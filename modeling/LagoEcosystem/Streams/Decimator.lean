import LagoEcosystem.Packetizer.Core

/-!
# The decimator

`axis_decimator`, which passes on one word out of `cfg_data + 1`. The slave side takes a word
in every cycle in which one is there, whatever the master side does, and the chosen ones go
through a register of one word. A word that is still in the register when the next one is
chosen is lost.
-/

namespace LagoEcosystem.Decimator

open Clocked
open Packetizer (Beat)

/-- The input ports; `D` is `AXIS_TDATA_WIDTH` and `W` is `CNTR_WIDTH`. -/
structure In (D W : ℕ) where
  aresetn : Bool
  cfgData : BitVec W
  sAxisTdata : BitVec D
  sAxisTvalid : Bool
  mAxisTready : Bool

structure St (D W : ℕ) where
  intTdataReg : BitVec D
  intTvalidReg : Bool
  intTreadyReg : Bool
  intCntrReg : BitVec W

/-- The output ports. -/
structure Out (D : ℕ) where
  sAxisTready : Bool
  mAxisTdata : BitVec D
  mAxisTvalid : Bool

variable {D W : ℕ}

def St.intCompWire (s : St D W) (i : In D W) : Bool :=
  decide (s.intCntrReg.toNat < i.cfgData.toNat)

def St.intTvalidWire (s : St D W) (i : In D W) : Bool := s.intTreadyReg && i.sAxisTvalid

def St.intTreadyNext (s : St D W) (i : In D W) : Bool :=
  if !s.intTreadyReg && s.intCompWire i then true else s.intTreadyReg

def St.intCntrNext (s : St D W) (i : In D W) : BitVec W :=
  if s.intTvalidWire i && s.intCompWire i then s.intCntrReg + 1
  else if s.intTvalidWire i && !s.intCompWire i then 0
  else s.intCntrReg

def St.intTdataNext (s : St D W) (i : In D W) : BitVec D :=
  if s.intTvalidWire i && !s.intCompWire i then i.sAxisTdata else s.intTdataReg

def St.intTvalidNext (s : St D W) (i : In D W) : Bool :=
  if s.intTvalidWire i && !s.intCompWire i then true
  else if i.mAxisTready && s.intTvalidReg then false
  else s.intTvalidReg

/-- The registers after a clock edge with `aresetn` low. -/
def St.reset : St D W := ⟨0, false, false, 0⟩

def step (s : St D W) (i : In D W) : St D W :=
  if i.aresetn then
    ⟨s.intTdataNext i, s.intTvalidNext i, s.intTreadyNext i, s.intCntrNext i⟩
  else .reset

def St.out (s : St D W) : Out D := ⟨s.intTreadyReg, s.intTdataReg, s.intTvalidReg⟩

/-! ## The two sides -/

/-- The word that the slave side accepts in a cycle. -/
def accepted (s : St D W) (i : In D W) : List (BitVec D) :=
  if i.sAxisTvalid && s.out.sAxisTready then [i.sAxisTdata] else []

/-- The word that the master side hands over in a cycle. -/
def transferred (s : St D W) (i : In D W) : List (BitVec D) :=
  if s.out.mAxisTvalid && i.mAxisTready then [s.out.mAxisTdata] else []

/-- The word that goes into the register in a cycle. -/
def selected (s : St D W) (i : In D W) : List (BitVec D) :=
  if s.intTvalidWire i && !s.intCompWire i then [i.sAxisTdata] else []

/-- The word in the register. -/
def held (s : St D W) : List (BitVec D) := if s.intTvalidReg then [s.intTdataReg] else []

/-- The word that is overwritten in the register. -/
def overwritten (s : St D W) (i : In D W) : List (BitVec D) :=
  if s.intTvalidWire i && !s.intCompWire i && s.intTvalidReg && !i.mAxisTready then
    [s.intTdataReg]
  else []

/-- The words number `N`, `2 * N` and so on. -/
def everyNth {α : Type*} (N : ℕ) (l : List α) : List α :=
  (l.zipIdx 1).filterMap fun p => if N ∣ p.2 then some p.1 else none

/-- A cycle outside the reset. -/
def In.running (cfgData : BitVec W) (b : Beat D) : In D W :=
  ⟨true, cfgData, b.tdata, b.tvalid, b.tready⟩

/-- The words handed over and the one in the register are the chosen ones of those
accepted. -/
def DecimationLaw (cfg : BitVec W) (bs : List (Beat D)) : Prop :=
  everyNth (cfg.toNat + 1) (collect step accepted .reset (bs.map (.running cfg))) =
    collect step transferred .reset (bs.map (.running cfg)) ++
      held (run step .reset (bs.map (.running cfg)))

/-- The words number `N`, `2 * N` and so on arrive in the cycles `Chosen N bs`. -/
def Chosen (N : ℕ) (bs : List (Beat D)) (n : ℕ) : Prop :=
  ∃ b ∈ bs[n]?, b.tvalid = true ∧ N ∣ (bs.take (n + 1)).countP Beat.tvalid

/-- After a chosen word the receiver is ready at least once until the next one arrives. -/
def KeepsUp (N : ℕ) (bs : List (Beat D)) : Prop :=
  ∀ m n, m < n → Chosen N bs m → Chosen N bs n →
    ∃ k, m < k ∧ k ≤ n ∧ ∃ b ∈ bs[k]?, b.tready = true

/-- When a word is chosen, the register is empty or its word is taken in the same cycle. -/
def NoOverwrite (s : St D W) (i : In D W) : Prop :=
  s.intTvalidWire i = true → s.intCompWire i = false → s.intTvalidReg = true →
    i.mAxisTready = true

theorem step_reset (s : St D W) {i : In D W} (h : i.aresetn = false) : step s i = .reset := by
  simp [step, h]

theorem step_of_aresetn (s : St D W) {i : In D W} (h : i.aresetn = true) : step s i =
    ⟨s.intTdataNext i, s.intTvalidNext i, s.intTreadyNext i, s.intCntrNext i⟩ := by
  simp [step, h]

theorem noOverwrite_iff (s : St D W) (i : In D W) : NoOverwrite s i ↔ overwritten s i = [] := by
  unfold NoOverwrite overwritten
  cases s.intTvalidWire i <;> cases s.intCompWire i <;> cases s.intTvalidReg <;>
    cases i.mAxisTready <;> simp

/-! ## What is chosen -/

section Choice

variable {cfg : BitVec W} {s : St D W} {b : Beat D} {n : ℕ}

/-- The first cycle after the reset opens the slave side. -/
theorem step_first (b : Beat D) (hcfg : 1 ≤ cfg.toNat) :
    (step .reset (.running cfg b)).intTreadyReg = true ∧
      (step .reset (.running cfg b)).intCntrReg = 0 ∧
      accepted (.reset : St D W) (.running cfg b) = [] ∧
      selected (.reset : St D W) (.running cfg b) = [] := by
  have hpos : 0 < cfg.toNat := hcfg
  simp [step, accepted, selected, St.out, St.reset, St.intTreadyNext, St.intCntrNext,
    St.intCompWire, St.intTvalidWire, In.running, hpos]

variable (cfg) in
/-- A cycle without a word on the slave side. -/
theorem step_gap (hs : s.intTreadyReg = true) (hb : b.tvalid = false) :
    (step s (.running cfg b)).intTreadyReg = true ∧
      (step s (.running cfg b)).intCntrReg = s.intCntrReg ∧
      accepted s (.running cfg b) = [] ∧ selected s (.running cfg b) = [] := by
  simp [step, accepted, selected, St.intTreadyNext, St.intCntrNext, St.intTvalidWire, In.running,
    hs, hb]

/-- The comparison finds the words to choose. -/
theorem intCompWire_eq (hn : s.intCntrReg.toNat = n % (cfg.toNat + 1)) :
    s.intCompWire (.running cfg b) = !decide ((cfg.toNat + 1) ∣ n + 1) := by
  have hpos : 0 < cfg.toNat + 1 := Nat.succ_pos _
  have hlt : n % (cfg.toNat + 1) < cfg.toNat + 1 := Nat.mod_lt n hpos
  have hcomp : s.intCompWire (.running cfg b) = decide (s.intCntrReg.toNat < cfg.toNat) := rfl
  rw [hcomp, ← decide_not, decide_eq_decide, hn, Pulses.dvd_succ_iff hpos]
  omega

/-- The counter holds the number of words since the last one chosen. -/
theorem step_word (hs : s.intTreadyReg = true) (hb : b.tvalid = true)
    (hn : s.intCntrReg.toNat = n % (cfg.toNat + 1)) :
    (step s (.running cfg b)).intTreadyReg = true ∧
      (step s (.running cfg b)).intCntrReg.toNat = (n + 1) % (cfg.toNat + 1) ∧
      accepted s (.running cfg b) = [b.tdata] ∧
      selected s (.running cfg b) = if (cfg.toNat + 1) ∣ n + 1 then [b.tdata] else [] := by
  have hcomp := intCompWire_eq (b := b) hn
  have hwire : s.intTvalidWire (.running cfg b) = true := by
    simp [St.intTvalidWire, In.running, hs, hb]
  refine ⟨by simp [step, St.intTreadyNext, In.running, hs], ?_,
    by simp [accepted, St.out, In.running, hs, hb], ?_⟩
  case refine_2 =>
    rw [selected, hwire, hcomp]
    simp [In.running]
  have hpos : 0 < cfg.toNat + 1 := Nat.succ_pos _
  have hnext : (step s (.running cfg b)).intCntrReg = s.intCntrNext (.running cfg b) := rfl
  rw [hnext, St.intCntrNext, hwire, hcomp]
  by_cases hall : (cfg.toNat + 1) ∣ n + 1
  case pos => simp [hall, Nat.dvd_iff_mod_eq_zero.mp hall]
  case neg =>
    have hlast := mt (Pulses.dvd_succ_iff hpos n).mpr hall
    have hlt : n % (cfg.toNat + 1) < cfg.toNat + 1 := Nat.mod_lt n hpos
    have hfit : s.intCntrReg.toNat + 1 < 2 ^ W := by have := cfg.isLt; omega
    rw [Pulses.succ_mod_eq hpos, if_neg hlast, ← hn]
    simp only [hall, decide_false, Bool.not_false, Bool.and_true, if_true]
    exact BitFields.toNat_add_one hfit

/-- The words that go into the register, with the slave side open. -/
theorem collect_selected (bs : List (Beat D)) (n : ℕ) {s : St D W} (hs : s.intTreadyReg = true)
    (hn : s.intCntrReg.toNat = n % (cfg.toNat + 1)) :
    collect step selected s (bs.map (.running cfg)) =
      ((collect step accepted s (bs.map (.running cfg))).zipIdx (n + 1)).filterMap
        fun p => if (cfg.toNat + 1) ∣ p.2 then some p.1 else none := by
  induction bs generalizing n s with
  | nil => rfl
  | cons b bs ih =>
    rw [List.map_cons, collect_cons, collect_cons]
    cases hb : b.tvalid with
    | false =>
      obtain ⟨hready, hcntr, hacc, hsel⟩ := step_gap cfg hs hb
      rw [hacc, hsel, List.nil_append, List.nil_append]
      exact ih n hready (hcntr ▸ hn)
    | true =>
      obtain ⟨hready, hcntr, hacc, hsel⟩ := step_word hs hb hn
      rw [hacc, hsel, ih (n + 1) hready hcntr, List.singleton_append, List.zipIdx_cons,
        List.filterMap_cons]
      split_ifs <;> rfl

/-- The words that go into the register are the ones number `cfg_data + 1`,
`2 * (cfg_data + 1)` and so on. -/
theorem selected_eq_everyNth (hcfg : 1 ≤ cfg.toNat) (bs : List (Beat D)) :
    collect step selected .reset (bs.map (.running cfg)) =
      everyNth (cfg.toNat + 1) (collect step accepted .reset (bs.map (.running cfg))) := by
  cases bs with
  | nil => rfl
  | cons b bs =>
    obtain ⟨hready, hcntr, hacc, hsel⟩ := step_first b hcfg
    rw [List.map_cons, collect_cons, collect_cons, hacc, hsel, List.nil_append, List.nil_append]
    exact collect_selected bs 0 hready (by simp [hcntr])

end Choice

/-! ## The register -/

/-- One edge of the register: what was in it or goes into it is handed over, stays, or is
overwritten. -/
theorem length_conserved {s : St D W} {i : In D W} (hi : i.aresetn = true) :
    (held s).length + (selected s i).length =
      (transferred s i).length + (held (step s i)).length + (overwritten s i).length := by
  rw [step_of_aresetn s hi]
  cases hwire : s.intTvalidWire i <;> cases hcomp : s.intCompWire i <;>
    cases hvalid : s.intTvalidReg <;> cases hready : i.mAxisTready <;>
    simp [held, selected, transferred, overwritten, St.out, St.intTvalidNext, hwire, hcomp, hvalid,
      hready]

theorem conserved {s : St D W} {i : In D W} (hi : i.aresetn = true)
    (h : overwritten s i = []) : held s ++ selected s i = transferred s i ++ held (step s i) := by
  rw [step_of_aresetn s hi]
  revert h
  cases hwire : s.intTvalidWire i <;> cases hcomp : s.intCompWire i <;>
    cases hvalid : s.intTvalidReg <;> cases hready : i.mAxisTready <;>
    simp [held, selected, transferred, overwritten, St.out, St.intTvalidNext, St.intTdataNext, hwire,
      hcomp, hvalid, hready]

theorem decimationLaw_iff_along {cfg : BitVec W} (hcfg : 1 ≤ cfg.toNat) (bs : List (Beat D)) :
    DecimationLaw cfg bs ↔ Along step NoOverwrite .reset (bs.map (.running cfg)) := by
  have hrunning : Along step (fun _ i => i.aresetn = true) (.reset : St D W)
      (bs.map (.running cfg)) := by
    refine along_of_forall step .reset fun i hi => ?_
    obtain ⟨b, -, rfl⟩ := List.mem_map.mp hi
    rfl
  have hiff := hrunning.conserved_iff selected transferred held overwritten
    (fun s i hi => length_conserved hi) fun s i hi => conserved hi
  have hempty : held (.reset : St D W) = [] := rfl
  rw [hempty, List.nil_append, selected_eq_everyNth hcfg] at hiff
  rw [DecimationLaw, hiff]
  exact along_congr (P := fun _ => True) trivial (fun _ _ _ => trivial)
    (fun s i _ => (noOverwrite_iff s i).symm) _

/-! ## The receiver -/

section Receiver

variable {N m n : ℕ} {bs : List (Beat D)} {b : Beat D}

theorem Chosen.lt_length (h : Chosen N bs m) : m < bs.length := by
  obtain ⟨b, hb, -⟩ := h
  exact (List.getElem?_eq_some_iff.mp hb).1

theorem chosen_take (h : m < n) : Chosen N (bs.take n) m ↔ Chosen N bs m := by
  rw [Chosen, Chosen, List.getElem?_take_of_lt h, List.take_take, Nat.min_eq_left h]

variable (N bs b) in
theorem chosen_snoc_length : Chosen N (bs ++ [b]) bs.length ↔
    b.tvalid = true ∧ N ∣ bs.countP Beat.tvalid + 1 := by
  have htake : (bs ++ [b]).take (bs.length + 1) = bs ++ [b] := List.take_of_length_le (by simp)
  rw [Chosen, htake, List.getElem?_concat_length, List.countP_append]
  constructor
  case mp =>
    rintro ⟨c, hc, hv, hall⟩
    obtain rfl := Option.some.inj hc
    exact ⟨hv, by simpa [hv] using hall⟩
  case mpr => exact fun ⟨hv, hall⟩ => ⟨b, rfl, hv, by simpa [hv] using hall⟩

/-- A chosen word has arrived after which the receiver has not been ready. -/
def Waiting (N : ℕ) (bs : List (Beat D)) : Prop :=
  ∃ m, Chosen N bs m ∧ ∀ k, m < k → ∀ b ∈ bs[k]?, b.tready = false

theorem waiting_snoc : Waiting N (bs ++ [b]) ↔
    (b.tvalid = true ∧ N ∣ bs.countP Beat.tvalid + 1) ∨ Waiting N bs ∧ b.tready = false := by
  have htake : (bs ++ [b]).take bs.length = bs := List.take_left
  constructor
  case mp =>
    rintro ⟨m, hm, hnone⟩
    have hlt := hm.lt_length
    rw [List.length_append, List.length_singleton] at hlt
    rcases Nat.lt_succ_iff_lt_or_eq.mp hlt with hlt | rfl
    · refine .inr ⟨⟨m, ?_, fun k hk c hc => hnone k hk c ?_⟩, hnone bs.length hlt b (by simp)⟩
      · rwa [← htake, chosen_take hlt]
      · have hk := (List.getElem?_eq_some_iff.mp hc).1
        rwa [List.getElem?_append_left hk]
    · exact .inl ((chosen_snoc_length N bs b).mp hm)
  case mpr =>
    rintro (hb | ⟨⟨m, hm, hnone⟩, hb⟩)
    · refine ⟨bs.length, (chosen_snoc_length N bs b).mpr hb, fun k hk c hc => ?_⟩
      have hlt := (List.getElem?_eq_some_iff.mp hc).1
      rw [List.length_append, List.length_singleton] at hlt
      omega
    · refine ⟨m, ?_, fun k hk c hc => ?_⟩
      · rwa [← chosen_take hm.lt_length, htake]
      · have hlt := (List.getElem?_eq_some_iff.mp hc).1
        rw [List.length_append, List.length_singleton] at hlt
        rcases Nat.lt_succ_iff_lt_or_eq.mp hlt with hlt | rfl
        · rw [List.getElem?_append_left hlt] at hc
          exact hnone k hk c hc
        · rw [List.getElem?_concat_length] at hc
          obtain rfl := Option.some.inj hc
          exact hb

/-- The receiver keeps up if a chosen word that arrives finds none waiting, or is ready. -/
theorem keepsUp_iff : KeepsUp N bs ↔ ∀ n, ∀ b ∈ bs[n]?, Chosen N bs n → Waiting N (bs.take n) →
    b.tready = true := by
  constructor
  case mp =>
    rintro h n b hb hn ⟨m, hm, hnone⟩
    have hlt : m < n := hm.lt_length.trans_le (List.length_take_le n bs)
    obtain ⟨k, hmk, hkn, c, hc, hready⟩ := h m n hlt ((chosen_take hlt).mp hm) hn
    rcases hkn.lt_or_eq with hkn | rfl
    · have hlow := hnone k hmk c (by rwa [List.getElem?_take_of_lt hkn])
      rw [hready] at hlow
      exact Bool.noConfusion hlow
    · obtain rfl := Option.some.inj (hc.symm.trans hb)
      exact hready
  case mpr =>
    intro h m n hmn hm hn
    by_contra hnone
    have hlow : ∀ k, m < k → k ≤ n → ∀ b ∈ bs[k]?, b.tready = false := by
      intro k hmk hkn b hb
      by_contra hready
      exact hnone ⟨k, hmk, hkn, b, hb, by simpa using hready⟩
    obtain ⟨b, hb, -⟩ := id hn
    have hready := h n b hb hn ⟨m, (chosen_take hmn).mpr hm, fun k hk c hc => ?_⟩
    · rw [hlow n hmn (Nat.le_refl n) b hb] at hready
      exact Bool.noConfusion hready
    · have hlt : k < n := (List.getElem?_eq_some_iff.mp hc).1.trans_le (List.length_take_le n bs)
      rw [List.getElem?_take_of_lt hlt] at hc
      exact hlow k hk hlt.le c hc

end Receiver
/-- The registers after a run with the slave side open. -/
structure Open (cfg : BitVec W) (bs : List (Beat D)) (s : St D W) : Prop where
  tready : s.intTreadyReg = true
  cntr : s.intCntrReg.toNat = bs.countP Beat.tvalid % (cfg.toNat + 1)
  tvalid : s.intTvalidReg = true ↔ Waiting (cfg.toNat + 1) bs

section Open

variable {cfg : BitVec W} {bs : List (Beat D)} {s : St D W}

theorem Open.chooses_iff (h : Open cfg bs s) (b : Beat D) :
    (s.intTvalidWire (.running cfg b) = true ∧ s.intCompWire (.running cfg b) = false) ↔
      b.tvalid = true ∧ (cfg.toNat + 1) ∣ bs.countP Beat.tvalid + 1 := by
  rw [intCompWire_eq h.cntr]
  simp [St.intTvalidWire, In.running, h.tready]

theorem Open.snoc (h : Open cfg bs s) (b : Beat D) :
    Open cfg (bs ++ [b]) (step s (.running cfg b)) := by
  have hvalid : (step s (.running cfg b)).intTvalidReg = true ↔
      Waiting (cfg.toNat + 1) (bs ++ [b]) := by
    have hnext : (step s (.running cfg b)).intTvalidReg = s.intTvalidNext (.running cfg b) := rfl
    rw [waiting_snoc, ← h.chooses_iff b, ← h.tvalid, hnext, St.intTvalidNext]
    show _ ↔ _ ∨ _ ∧ (In.running cfg b).mAxisTready = false
    cases s.intTvalidWire (.running cfg b) <;> cases s.intCompWire (.running cfg b) <;>
      cases s.intTvalidReg <;> cases (In.running cfg b).mAxisTready <;> simp
  cases hb : b.tvalid with
  | false =>
    obtain ⟨hready, hcntr, -⟩ := step_gap cfg h.tready hb
    refine ⟨hready, ?_, hvalid⟩
    rw [hcntr, h.cntr, List.countP_append]
    simp [hb]
  | true =>
    obtain ⟨hready, hcntr, -⟩ := step_word h.tready hb h.cntr
    refine ⟨hready, ?_, hvalid⟩
    rw [hcntr, List.countP_append]
    simp [hb]

theorem Open.run (h : Open cfg [] s) (bs : List (Beat D)) :
    Open cfg bs (Clocked.run step s (bs.map (.running cfg))) := by
  induction bs using List.reverseRecOn with
  | nil => exact h
  | append_singleton bs b ih =>
    rw [List.map_append, run_append]
    exact ih.snoc b

/-- Nothing is overwritten if and only if the receiver keeps up. -/
theorem Open.along_iff (h : Open cfg [] s) (bs : List (Beat D)) :
    Along step NoOverwrite s (bs.map (.running cfg)) ↔ KeepsUp (cfg.toNat + 1) bs := by
  rw [along_iff_getElem?, keepsUp_iff]
  have hcycle : ∀ n b, bs[n]? = some b →
      (NoOverwrite (Clocked.run step s ((bs.map (.running cfg)).take n)) (.running cfg b) ↔
        (Chosen (cfg.toNat + 1) bs n → Waiting (cfg.toNat + 1) (bs.take n) →
          b.tready = true)) := by
    intro n b hb
    have hopen := h.run (bs.take n)
    have hlt := (List.getElem?_eq_some_iff.mp hb).1
    have hchosen : Chosen (cfg.toNat + 1) bs n ↔
        b.tvalid = true ∧ (cfg.toNat + 1) ∣ (bs.take n).countP Beat.tvalid + 1 := by
      have htake : bs.take (n + 1) = bs.take n ++ [b] := by
        rw [List.take_add_one, hb]
        rfl
      have hlast := chosen_snoc_length (cfg.toNat + 1) (bs.take n) b
      rw [List.length_take_of_le hlt.le, ← htake] at hlast
      rw [← hlast, chosen_take (Nat.lt_succ_self n)]
    rw [← List.map_take, hchosen, ← hopen.chooses_iff b, ← hopen.tvalid, NoOverwrite, and_imp]
    rfl
  constructor
  case mp =>
    intro hall n b hb
    exact (hcycle n b hb).mp (hall n _ (by rw [List.getElem?_map, hb]; rfl))
  case mpr =>
    intro hall n i hi
    rw [List.getElem?_map] at hi
    obtain ⟨b, hb, rfl⟩ := Option.map_eq_some_iff.mp hi
    exact (hcycle n b hb).mpr (hall n b hb)

end Open

/-- The decimator hands over the chosen words if and only if the receiver keeps up with
them. -/
theorem decimationLaw_iff (cfg : BitVec W) (hcfg : 1 ≤ cfg.toNat) (bs : List (Beat D)) :
    DecimationLaw cfg bs ↔ KeepsUp (cfg.toNat + 1) bs.tail := by
  rw [decimationLaw_iff_along hcfg]
  cases bs with
  | nil => exact iff_of_true trivial fun m n _ hm => absurd hm.lt_length (Nat.not_lt_zero m)
  | cons b bs =>
    obtain ⟨hready, hcntr, -⟩ := step_first b hcfg
    have hopen : Open cfg ([] : List (Beat D)) (step .reset (.running cfg b)) := by
      refine ⟨hready, by simp [hcntr], iff_of_false ?_ ?_⟩
      · simp [step, St.reset, St.intTvalidNext, St.intTvalidWire, In.running]
      · rintro ⟨m, hm, -⟩
        exact absurd hm.lt_length (Nat.not_lt_zero m)
    have hfirst : NoOverwrite (.reset : St D W) (.running cfg b) := by
      intro hwire
      exact Bool.noConfusion hwire
    rw [List.map_cons, along_cons, and_iff_right hfirst, List.tail_cons]
    exact hopen.along_iff bs

/-- Every second word, with a pause of the receiver that is short enough. -/
theorem decimationLaw_iff_short :
    DecimationLaw (1 : BitVec 4) [⟨0, true, true⟩, ⟨1, true, true⟩, ⟨2, true, true⟩,
        ⟨3, true, false⟩, ⟨(4 : BitVec 8), true, true⟩] ↔
      KeepsUp 2 [⟨1, true, true⟩, ⟨2, true, true⟩, ⟨3, true, false⟩,
        ⟨(4 : BitVec 8), true, true⟩] :=
  decimationLaw_iff 1 (by decide) _

/-- Every second word of four, with a receiver that takes nothing until the last cycle. Word 2
is lost. -/
theorem word_overwritten :
    1 ≤ (1 : BitVec 4).toNat ∧
      ¬DecimationLaw (1 : BitVec 4) [⟨0, false, false⟩, ⟨1, true, false⟩, ⟨2, true, false⟩,
        ⟨3, true, false⟩, ⟨(4 : BitVec 8), true, false⟩, ⟨5, false, true⟩] := by
  refine ⟨by decide, ?_⟩
  unfold DecimationLaw
  decide

end LagoEcosystem.Decimator
