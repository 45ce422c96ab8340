import LagoEcosystem.Library.BitFields
import LagoEcosystem.RamWriter.Data

/-!
# The address channel of the RAM writer

The address is the beat counter, shown while `awvalid` waits for `awready`. It is the
address of the burst as long as no beat of the burst passes in the meantime; a slave that
takes data first moves it. `addressLaw_iff` says that these are exactly the runs in which
every burst gets its own address.
-/

namespace LagoEcosystem.RamWriter

open BitFields Clocked

variable {g : Generics}

/-- A cycle out of reset with the base address `cfg`. -/
def In.Configured (cfg : BitVec g.axiAddrWidth) (i : In g) : Prop :=
  i.aresetn = true ∧ i.cfgData = cfg

/-- The address of burst `n`: 16 words of 8 bytes each, in a ring of `2 ^ ADDR_WIDTH`
words. -/
def burstAddress (cfg : BitVec g.axiAddrWidth) (n : ℕ) : BitVec g.axiAddrWidth :=
  cfg + BitVec.ofNat _ (128 * (n % (2 ^ g.addrWidth / 16)))

/-- While `awvalid` waits, it stays, and so does the address. -/
def Stable (cfg : BitVec g.axiAddrWidth) (s : St g) (i : In g) : Prop :=
  s.intAwvalidReg = true → i.mAxiAwready = false →
    (step s i).intAwvalidReg = true ∧ (step s i).mAxiAwaddr cfg = s.mAxiAwaddr cfg

/-- The address channel in the run `is`. -/
structure AddressLaw (cfg : BitVec g.axiAddrWidth) (is : List (In g)) : Prop where
  address : ∀ n a, (addresses is)[n]? = some a → a = burstAddress cfg n
  stable : Along step (Stable cfg) (.reset g) is
  /-- At every point, the bursts that have begun are the addresses transferred or waiting. -/
  own : ∀ js, js <+: is →
    (addresses js).length + (after js).intAwvalidReg.toNat =
      (beats js).length / 16 + (after js).intWvalidReg.toNat

/-- No beat passes while an address waits. -/
def AddressFirst (s : St g) (i : In g) : Prop :=
  s.intAwvalidReg = true → i.mAxiAwready = false → s.intRdenWire i = false

instance (s : St g) (i : In g) : Decidable (AddressFirst s i) :=
  inferInstanceAs (Decidable (_ → _ → _))

instance (cfg : BitVec g.axiAddrWidth) (i : In g) : Decidable (i.Configured cfg) :=
  inferInstanceAs (Decidable (_ ∧ _))

/-! ## The address and the beat counter -/

theorem toNat_addrBytes (s : St g) :
    ((s.intAddrReg ++ BitVec.ofNat addrSize 0).setWidth g.axiAddrWidth).toNat =
      8 * s.intAddrReg.toNat := by
  have hbytes : (s.intAddrReg ++ BitVec.ofNat addrSize 0).toNat = 8 * s.intAddrReg.toNat := by
    rw [BitVec.toNat_append, addrSize_eq]
    simp [Nat.shiftLeft_eq, Nat.mul_comm]
  have hlt : (s.intAddrReg ++ BitVec.ofNat addrSize 0).toNat < 2 ^ g.axiAddrWidth :=
    Nat.lt_of_lt_of_le (BitVec.isLt _) (Nat.pow_le_pow_right (by decide) g.fits)
  rw [BitVec.toNat_setWidth, Nat.mod_eq_of_lt hlt, hbytes]

/-- The address shows every bit of the counter. -/
theorem mAxiAwaddr_inj {s t : St g} {cfg : BitVec g.axiAddrWidth}
    (h : s.mAxiAwaddr cfg = t.mAxiAwaddr cfg) : s.intAddrReg = t.intAddrReg := by
  have hbytes := congrArg BitVec.toNat (BitVec.add_right_inj _ |>.mp h)
  rw [toNat_addrBytes, toNat_addrBytes] at hbytes
  exact BitVec.eq_of_toNat_eq (by omega)

theorem mAxiAwaddr_eq {s : St g} {n : ℕ} (h : s.intAddrReg.toNat = 16 * n % 2 ^ g.addrWidth)
    (cfg : BitVec g.axiAddrWidth) : s.mAxiAwaddr cfg = burstAddress cfg n := by
  have hring : 2 ^ g.addrWidth = 16 * (2 ^ g.addrWidth / 16) := by
    have hdvd : 16 ∣ 2 ^ g.addrWidth := by simpa using Nat.pow_dvd_pow 2 g.four_le
    omega
  have hword : s.intAddrReg.toNat = 16 * (n % (2 ^ g.addrWidth / 16)) := by
    rw [h, hring, Nat.mul_mod_mul_left, ← hring]
  have hbytes : (s.intAddrReg ++ BitVec.ofNat addrSize 0).setWidth g.axiAddrWidth =
      BitVec.ofNat _ (128 * (n % (2 ^ g.addrWidth / 16))) := by
    apply BitVec.eq_of_toNat_eq
    have hlt := ((s.intAddrReg ++ BitVec.ofNat addrSize 0).setWidth g.axiAddrWidth).isLt
    have hval := toNat_addrBytes s
    rw [BitVec.toNat_ofNat, Nat.mod_eq_of_lt (by omega)]
    omega
  rw [St.mAxiAwaddr, burstAddress, hbytes]

/-! ## The invariant -/

/-- After `k` beats and `n` addresses: an address waits only before the first beat of its
burst, and the bursts begun are the addresses transferred or waiting. -/
structure Addressed (s : St g) (k n : ℕ) : Prop where
  waits : s.intAwvalidReg = true → s.intWvalidReg = true ∧ k % 16 = 0
  own : n + s.intAwvalidReg.toNat = k / 16 + s.intWvalidReg.toNat

theorem Addressed.next {s : St g} {k n : ℕ} (h : Addressed s k n) (hc : Counted s k) {i : In g}
    (hi : AddressFirst s i) :
    Addressed (s.next i) (k + if s.intRdenWire i then 1 else 0)
      (n + if s.intAwvalidReg && i.mAxiAwready then 1 else 0) := by
  obtain ⟨hwaits, hown⟩ := h
  have hlast := St.intWlastWire_iff hc.addr
  have hidle := hc.idle
  unfold AddressFirst at hi
  constructor
  · show s.intAwvalidNext i = true → s.intWvalidNext i = true ∧ _
    grind [St.intAwvalidNext, St.intWvalidNext, St.starts, St.intRdenWire]
  · show _ + (s.intAwvalidNext i).toNat = _ + (s.intWvalidNext i).toNat
    grind [St.intAwvalidNext, St.intWvalidNext, St.starts, St.intRdenWire]

theorem addressed_snoc {js : List (In g)} {i : In g} (hjs : ∀ j ∈ js, j.aresetn = true)
    (h : Addressed (after js) (beats js).length (addresses js).length) (hres : i.aresetn = true)
    (hi : AddressFirst (after js) i) :
    Addressed (after (js ++ [i])) (beats (js ++ [i])).length (addresses (js ++ [i])).length := by
  have hlen : (addressOut (after js) i).length =
      if (after js).intAwvalidReg && i.mAxiAwready then 1 else 0 := by
    grind [addressOut]
  rw [after_snoc, beats_snoc, addresses_snoc, step_of_aresetn hres, List.length_append,
    List.length_append, length_beatOut, hlen]
  exact h.next (counted_after hjs) hi

/-- A cycle of a configured run in which no beat overtakes its address. -/
def InOrder (cfg : BitVec g.axiAddrWidth) (s : St g) (i : In g) : Prop :=
  i.Configured cfg ∧ AddressFirst s i

section Run

variable {cfg : BitVec g.axiAddrWidth} {is : List (In g)}

theorem InOrder.aresetn (h : Along step (InOrder cfg) (.reset g) is) :
    ∀ i ∈ is, i.aresetn = true := h.forall_input fun _ _ hi => hi.1.1

theorem addressed_after (h : Along step (InOrder cfg) (.reset g) is) :
    Addressed (after is) (beats is).length (addresses is).length := by
  refine h.induction_on_past
    (P := fun js => Addressed (after js) (beats js).length (addresses js).length)
    ⟨by simp [after, St.reset], by simp [addresses, beats, after, St.reset]⟩ ?_
  intro js i hpast hjs hi
  exact addressed_snoc (InOrder.aresetn hpast) hjs hi.1.1 hi.2

theorem addresses_eq (h : Along step (InOrder cfg) (.reset g) is) (n : ℕ)
    (a : BitVec g.axiAddrWidth) (ha : (addresses is)[n]? = some a) : a = burstAddress cfg n := by
  revert n a
  refine h.induction_on_past
    (P := fun js => ∀ n a, (addresses js)[n]? = some a → a = burstAddress cfg n)
    (by simp [addresses]) ?_
  intro js i hpast ih hi n a ha
  rw [addresses_snoc, List.getElem?_append] at ha
  split at ha
  · exact ih n a ha
  · simp only [addressOut] at ha
    split at ha
    case isTrue hout =>
      rw [List.getElem?_singleton, Option.ite_none_right_eq_some, Option.some.injEq] at ha
      obtain ⟨hn, rfl⟩ := ha
      -- the address that leaves has waited since the bursts before it were complete
      have hinv := addressed_after hpast
      have hvalid : (after js).intAwvalidReg = true := by grind
      have hwaits := hinv.waits hvalid
      have hown := hinv.own
      simp only [hvalid, hwaits.1] at hown
      rw [hi.1.2]
      refine mAxiAwaddr_eq ?_ cfg
      rw [(counted_after (InOrder.aresetn hpast)).addr]
      congr 1
      omega
    case isFalse => simp at ha

/-- One cycle keeps a waiting address if and only if no beat passes. -/
theorem stable_iff {s : St g} {i : In g} (hi : i.aresetn = true) :
    Stable cfg s i ↔ AddressFirst s i := by
  have hlt : 1 < 2 ^ g.addrWidth := Nat.one_lt_two_pow (by have := g.four_le; omega)
  unfold Stable AddressFirst
  rw [step_of_aresetn hi]
  constructor
  · intro h hv hr
    have haddr : s.intAddrNext i = s.intAddrReg := mAxiAwaddr_inj (h hv hr).2
    unfold St.intAddrNext at haddr
    split at haddr
    case isTrue => exact absurd (congrArg BitVec.toNat haddr) (toNat_add_one_ne hlt)
    case isFalse hrd => simpa using hrd
  · intro h hv hr
    have hrd := h hv hr
    constructor
    · show s.intAwvalidNext i = true
      grind [St.intAwvalidNext]
    · have haddr : (s.next i).intAddrReg = s.intAddrReg := by
        simp [St.next, St.intAddrNext, hrd]
      rw [St.mAxiAwaddr, haddr, St.mAxiAwaddr]

/-- Every burst gets its own address, in order and unmoved, exactly if no beat passes while
an address waits. -/
theorem addressLaw_iff (cfg : BitVec g.axiAddrWidth) (is : List (In g))
    (h : ∀ i ∈ is, i.Configured cfg) :
    AddressLaw cfg is ↔ Along step AddressFirst (.reset g) is := by
  have hconf := along_of_forall step (St.reset g) h
  constructor
  · intro hlaw
    refine (hlaw.stable.and hconf).mono fun s i hi => (stable_iff hi.2.1).mp hi.1
  · intro hfirst
    have hin : Along step (InOrder cfg) (.reset g) is := hconf.and hfirst
    refine ⟨addresses_eq hin, hin.mono fun s i hi => (stable_iff hi.1.1).mpr hi.2, ?_⟩
    intro js hjs
    exact (addressed_after (hin.of_isPrefix hjs)).own

end Run

theorem addressLaw_burst : AddressLaw 0x1E000000 burst :=
  (addressLaw_iff 0x1E000000 burst (by decide +kernel)).mpr (by decide +kernel)

/-- The burst is ready, and the slave takes a beat before it takes the address. -/
def dataFirst : List (In .blockDesign) :=
  (List.range 17).map (fun k => In.word (BitVec.ofNat 64 k) true) ++
    [In.word 17 false, { In.word 18 true with mAxiAwready := false }, In.word 19 true]

/-- The address of the first burst leaves as the address of its second word. -/
theorem not_addressLaw_dataFirst :
    (∀ i ∈ dataFirst, i.Configured 0x1E000000) ∧ Along step Honest (.reset _) dataFirst ∧
      addresses dataFirst = [0x1E000008] ∧ ¬ AddressLaw 0x1E000000 dataFirst := by
  have haddr : addresses dataFirst = [0x1E000008] := by decide +kernel
  refine ⟨by decide +kernel, by decide +kernel, haddr, ?_⟩
  intro hlaw
  have hfirst := hlaw.address 0 0x1E000008 (by rw [haddr]; rfl)
  exact absurd hfirst (by decide +kernel)

end LagoEcosystem.RamWriter
