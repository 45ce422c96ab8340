import LagoEcosystem.RamWriter.Core
import Mathlib.Tactic.Common

/-!
# The data channel of the RAM writer

In every run with honest flags the beats carry the accepted words in order, in bursts of
16, whatever the address channel does. The invariant is the stock: while a burst is on,
the FIFO holds at least the beats that are missing to its end.
-/

namespace LagoEcosystem.RamWriter

open Clocked

variable {g : Generics}

/-- A cycle out of reset whose `ALMOSTEMPTY` means what it says. -/
def Honest (s : St g) (i : In g) : Prop := i.aresetn = true ∧ FlagsHonest s i

instance (s : St g) (i : In g) : Decidable (Honest s i) :=
  inferInstanceAs (Decidable (_ ∧ _))

/-- The data channel after the cycles of `is`, and in the next one whatever its inputs. -/
structure DataLaw (is : List (In g)) : Prop where
  /-- Beat `k` carries the `k`-th accepted word. -/
  words : (beats is).map Beat.data <+: (accepted is).map some
  last : ∀ k b, (beats is)[k]? = some b → (b.last = true ↔ k % 16 = 15)
  id : ∀ k b, (beats is)[k]? = some b → b.id.toNat = k / 16 % 2 ^ g.axiIdWidth
  idOutput : (after is).intWvalidReg = true →
    (after is).intWidReg.toNat = (beats is).length / 16 % 2 ^ g.axiIdWidth
  withdrawn : ∀ i, i.aresetn = true → (after is).intWvalidReg = true →
    (after (is ++ [i])).intWvalidReg = false → (beats (is ++ [i])).length % 16 = 0
  stsData : (after is).intAddrReg.toNat = (beats is).length % 2 ^ g.addrWidth
  readsWord : ∀ i, (after is).intRdenWire i = true → (after is).fifo ≠ []

/-! ## One cycle more -/

section Snoc

variable (is : List (In g)) (i : In g)

theorem after_snoc : after (is ++ [i]) = step (after is) i := by simp [after]
theorem beats_snoc : beats (is ++ [i]) = beats is ++ beatOut (after is) i := by
  simp [beats, after]
theorem accepted_snoc : accepted (is ++ [i]) = accepted is ++ acceptOut (after is) i := by
  simp [accepted, after]
theorem addresses_snoc : addresses (is ++ [i]) = addresses is ++ addressOut (after is) i := by
  simp [addresses, after]

/-- A beat and a read of the FIFO are the same event. -/
theorem length_beatOut (s : St g) (i : In g) :
    (beatOut s i).length = if s.intRdenWire i then 1 else 0 := by
  grind [beatOut, St.intRdenWire]

end Snoc

/-! ## The counters, for every pattern of the flags -/

/-- The address and the identifier count beats and bursts, and no burst is left open while
`wvalid` is low. -/
structure Counted (s : St g) (k : ℕ) : Prop where
  addr : s.intAddrReg.toNat = k % 2 ^ g.addrWidth
  wid : s.intWidReg.toNat = k / 16 % 2 ^ g.axiIdWidth
  idle : s.intWvalidReg = false → k % 16 = 0

theorem counted_reset : Counted (.reset g) 0 := ⟨by simp [St.reset], by simp [St.reset], by simp⟩

/-- The identifier moves with the last beat of a burst: that beat is never waited for with
`wvalid` low. -/
theorem Counted.intWidNext_eq {s : St g} {k : ℕ} (h : Counted s k) (i : In g) :
    (s.intWidNext i).toNat =
      (s.intWidReg.toNat + if s.intRdenWire i && s.intWlastWire then 1 else 0) %
        2 ^ g.axiIdWidth := by
  have hlt := s.intWidReg.isLt
  have hlast := St.intWlastWire_iff h.addr
  unfold St.intWidNext St.intRdenWire
  cases hv : s.intWvalidReg with
  | true => cases i.mAxiWready <;> cases s.intWlastWire <;> simp [Nat.mod_eq_of_lt hlt]
  | false =>
    have hnot : s.intWlastWire = false := by
      have := h.idle hv
      grind
    simp [hnot, Nat.mod_eq_of_lt hlt]

theorem Counted.next {s : St g} {k : ℕ} (h : Counted s k) (i : In g) :
    Counted (s.next i) (k + if s.intRdenWire i then 1 else 0) := by
  have hlast := St.intWlastWire_iff h.addr
  refine ⟨intAddrNext_eq h.addr i, ?_, ?_⟩
  · have hk : (k + if s.intRdenWire i then 1 else 0) / 16 =
        k / 16 + if s.intRdenWire i && s.intWlastWire then 1 else 0 := by
      by_cases hl : s.intWlastWire = true
      · have hmod := hlast.mp hl
        cases s.intRdenWire i <;> simp [hl]
        omega
      · have hmod : k % 16 ≠ 15 := fun hmod => hl (hlast.mpr hmod)
        rw [Bool.not_eq_true] at hl
        cases s.intRdenWire i <;> simp [hl]
        omega
    show (s.intWidNext i).toNat = _
    rw [h.intWidNext_eq, hk, h.wid, Nat.mod_add_mod]
  · intro hv
    have hidle := h.idle
    change s.intWvalidNext i = false at hv
    grind [St.intWvalidNext, St.intRdenWire, St.starts]

theorem counted_after {is : List (In g)} (h : ∀ i ∈ is, i.aresetn = true) :
    Counted (after is) (beats is).length := by
  refine (along_of_forall step (.reset g) h).induction_on_past
    (P := fun js => Counted (after js) (beats js).length) counted_reset ?_
  intro js i _ hjs hi
  rw [after_snoc, beats_snoc, step_of_aresetn hi, List.length_append, length_beatOut]
  exact hjs.next i

/-! ## The stock -/

/-- What has been sent, and what the FIFO holds of the rest. -/
structure Stocked (is : List (In g)) : Prop where
  flow : (accepted is).map some = (beats is).map Beat.data ++ (after is).fifo.map some
  stock : (after is).intWvalidReg = true → 16 ≤ (after is).fifo.length + (beats is).length % 16

theorem Stocked.fifo_ne_nil {is : List (In g)} (h : Stocked is) {i : In g}
    (hr : (after is).intRdenWire i = true) : (after is).fifo ≠ [] := by
  have hlen := h.stock (by grind [St.intRdenWire])
  intro hnil
  rw [hnil, List.length_nil] at hlen
  omega

section Step

variable {js : List (In g)} {i : In g}

/-- A beat takes the word at the head of the FIFO, and an accepted word goes behind it. -/
theorem Stocked.flow_snoc (h : Stocked js) (hres : i.aresetn = true) :
    (accepted (js ++ [i])).map some =
      (beats (js ++ [i])).map Beat.data ++ (after (js ++ [i])).fifo.map some := by
  rw [accepted_snoc, beats_snoc, after_snoc, step_of_aresetn hres, List.map_append, h.flow,
    List.map_append, List.append_assoc, List.append_assoc]
  congr 1
  show _ = _ ++ List.map some ((after js).fifoNext i)
  by_cases hr : (after js).intRdenWire i = true
  · obtain ⟨w, ws, hws⟩ := List.exists_cons_of_ne_nil (h.fifo_ne_nil hr)
    have hv : ((after js).intWvalidReg && i.mAxiWready) = true := by grind [St.intRdenWire]
    simp [beatOut, hv, St.mAxiWdata, hws, St.fifoNext, hr, acceptOut, In.wren]
  · have hv : ((after js).intWvalidReg && i.mAxiWready) = false := by grind [St.intRdenWire]
    simp [beatOut, hv, St.fifoNext, hr, acceptOut, In.wren]

/-- A burst begins with 16 words in stock and uses one of them for each beat. -/
theorem Stocked.stock_snoc (h : Stocked js) (hc : Counted (after js) (beats js).length)
    (hi : Honest (after js) i) (hv : (after (js ++ [i])).intWvalidReg = true) :
    16 ≤ (after (js ++ [i])).fifo.length + (beats (js ++ [i])).length % 16 := by
  obtain ⟨hres, hflags⟩ := hi
  have hlast := St.intWlastWire_iff hc.addr
  have hbeat := length_beatOut (after js) i
  rw [after_snoc, step_of_aresetn hres] at hv ⊢
  rw [beats_snoc, List.length_append, hbeat]
  change (after js).intWvalidNext i = true at hv
  show 16 ≤ ((after js).fifoNext i).length + _
  have hfifo : ((if (after js).intRdenWire i then (after js).fifo.tail
      else (after js).fifo)).length ≤ ((after js).fifoNext i).length := by
    simp [St.fifoNext]
  by_cases hempty : i.fifoAlmostempty = false
  · have hstock := hflags hempty
    omega
  -- no burst begins in this cycle, so one is on and this is not its last beat
  have hon : (after js).intWvalidReg = true ∧
      ¬ (i.mAxiWready = true ∧ (after js).intWlastWire = true) := by
    grind [St.intWvalidNext, St.starts, In.intEmptyWire]
  have hstock := h.stock hon.1
  by_cases hr : (after js).intRdenWire i = true
  · have hmod : (beats js).length % 16 ≠ 15 := by grind [St.intRdenWire]
    simp only [hr, if_true, List.length_tail] at hfifo ⊢
    omega
  · rw [Bool.not_eq_true] at hr
    simp only [hr] at hfifo ⊢
    simp only [Bool.false_eq_true, if_false] at hfifo ⊢
    omega

end Step

theorem Honest.aresetn {is : List (In g)} (h : Along step Honest (.reset g) is) :
    ∀ i ∈ is, i.aresetn = true := h.forall_input fun _ _ hi => hi.1

theorem stocked_after {is : List (In g)} (h : Along step Honest (.reset g) is) : Stocked is := by
  refine h.induction_on_past (P := Stocked) ⟨rfl, by simp [after, St.reset]⟩ ?_
  intro js i hpast hjs hi
  exact ⟨hjs.flow_snoc hi.1, hjs.stock_snoc (counted_after (Honest.aresetn hpast)) hi⟩

/-! ## The law -/

/-- Every beat is marked by its own number. -/
theorem beats_marked {is : List (In g)} (h : ∀ i ∈ is, i.aresetn = true) (k : ℕ) (b : Beat g)
    (hb : (beats is)[k]? = some b) :
    (b.last = true ↔ k % 16 = 15) ∧ b.id.toNat = k / 16 % 2 ^ g.axiIdWidth := by
  induction is using List.reverseRecOn with
  | nil => simp [beats] at hb
  | append_singleton js i ih =>
    have hjs : ∀ j ∈ js, j.aresetn = true := fun j hj => h j (by simp [hj])
    have hc := counted_after hjs
    rw [beats_snoc, List.getElem?_append] at hb
    split at hb
    · exact ih hjs hb
    · simp only [beatOut] at hb
      split at hb
      · rw [List.getElem?_singleton, Option.ite_none_right_eq_some, Option.some.injEq] at hb
        obtain ⟨hk, rfl⟩ := hb
        have hk : k = (beats js).length := by omega
        rw [hk]
        exact ⟨St.intWlastWire_iff hc.addr, hc.wid⟩
      · simp at hb

/-- The data channel keeps its law in every run with honest flags. -/
theorem dataLaw (is : List (In g)) (h : Along step Honest (.reset g) is) : DataLaw is := by
  have hres := Honest.aresetn h
  have hc := counted_after hres
  have hs := stocked_after h
  refine ⟨⟨_, hs.flow.symm⟩, fun k b hb => (beats_marked hres k b hb).1,
    fun k b hb => (beats_marked hres k b hb).2, fun _ => hc.wid, ?_, hc.addr,
    fun i hr => hs.fifo_ne_nil hr⟩
  intro i hi _ hv
  have hall : ∀ j ∈ is ++ [i], j.aresetn = true := by
    intro j hj
    rcases List.mem_append.mp hj with hj | hj
    · exact hres j hj
    · rw [List.mem_singleton.mp hj]
      exact hi
  exact (counted_after hall).idle hv

/-! A burst goes out: 17 words arrive, `ALMOSTEMPTY` falls, the slave is ready. -/

/-- A cycle in which the word `w` arrives and `ALMOSTEMPTY` has the value `e`. -/
def In.word (w : BitVec 64) (e : Bool) : In .blockDesign where
  aresetn := true
  cfgData := 0x1E000000
  fifoFull := false
  fifoAlmostempty := e
  mAxiAwready := true
  mAxiWready := true
  sAxisTdata := w
  sAxisTvalid := true

/-- Seventeen words, a burst, and a cycle more. -/
def burst : List (In .blockDesign) :=
  (List.range 17).map (fun k => In.word (BitVec.ofNat 64 k) true) ++
    In.word 17 false :: (List.range 17).map fun k => In.word (BitVec.ofNat 64 (18 + k)) true

theorem dataLaw_burst : (beats burst).length = 16 ∧ DataLaw burst :=
  ⟨by decide +kernel, dataLaw _ (by decide +kernel)⟩

end LagoEcosystem.RamWriter
