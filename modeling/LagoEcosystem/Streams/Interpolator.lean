import LagoEcosystem.Packetizer.Core

/-!
# The interpolator

`axis_interpolator`, which hands over every word `cfg_data + 1` times. The slave side is open
while the register is empty, and the register is emptied by the transfer of the last copy.
-/

namespace LagoEcosystem.Interpolator

open Clocked
open Packetizer (Beat)

/-- The input ports; `D` is `AXIS_TDATA_WIDTH` and `W` is `CNTR_WIDTH`. -/
structure In (D W : ℕ) where
  aresetn : Bool
  cfgData : BitVec W
  sAxisTdata : BitVec D
  sAxisTvalid : Bool
  mAxisTready : Bool

structure St (D W : ℕ) where
  intTdataReg : BitVec D
  intTvalidReg : Bool
  intCntrReg : BitVec W

/-- The output ports. -/
structure Out (D : ℕ) where
  sAxisTready : Bool
  mAxisTdata : BitVec D
  mAxisTvalid : Bool

variable {D W : ℕ}

def St.intTdataNext (s : St D W) (i : In D W) : BitVec D :=
  if i.sAxisTvalid && !s.intTvalidReg then i.sAxisTdata else s.intTdataReg

def St.intCntrNext (s : St D W) (i : In D W) : BitVec W :=
  if i.mAxisTready && s.intTvalidReg && decide (s.intCntrReg.toNat < i.cfgData.toNat) then
    s.intCntrReg + 1
  else if i.mAxisTready && s.intTvalidReg && !decide (s.intCntrReg.toNat < i.cfgData.toNat) then 0
  else s.intCntrReg

def St.intTvalidNext (s : St D W) (i : In D W) : Bool :=
  if i.sAxisTvalid && !s.intTvalidReg then true
  else if i.mAxisTready && s.intTvalidReg && !decide (s.intCntrReg.toNat < i.cfgData.toNat) then
    false
  else s.intTvalidReg

/-- The registers after a clock edge with `aresetn` low. -/
def St.reset : St D W := ⟨0, false, 0⟩

def step (s : St D W) (i : In D W) : St D W :=
  if i.aresetn then ⟨s.intTdataNext i, s.intTvalidNext i, s.intCntrNext i⟩ else .reset

def St.out (s : St D W) : Out D := ⟨!s.intTvalidReg, s.intTdataReg, s.intTvalidReg⟩

/-! ## The two sides -/

/-- The word that the slave side accepts in a cycle. -/
def accepted (s : St D W) (i : In D W) : List (BitVec D) :=
  if i.sAxisTvalid && s.out.sAxisTready then [i.sAxisTdata] else []

/-- The word that the master side hands over in a cycle. -/
def transferred (s : St D W) (i : In D W) : List (BitVec D) :=
  if s.out.mAxisTvalid && i.mAxisTready then [s.out.mAxisTdata] else []

/-- A cycle outside the reset. -/
def In.running (cfgData : BitVec W) (b : Beat D) : In D W :=
  ⟨true, cfgData, b.tdata, b.tvalid, b.tready⟩

theorem step_reset (s : St D W) {i : In D W} (h : i.aresetn = false) : step s i = .reset := by
  simp [step, h]

section Run

variable (cfg : BitVec W)

/-- The registers after a run. -/
def after (bs : List (Beat D)) : St D W := run step .reset (bs.map (.running cfg))

/-- The words accepted in a run. -/
def taken (bs : List (Beat D)) : List (BitVec D) :=
  collect step accepted .reset (bs.map (.running cfg))

/-- The words handed over in a run. -/
def given (bs : List (Beat D)) : List (BitVec D) :=
  collect step transferred .reset (bs.map (.running cfg))

/-- The copies that the words of a run are to be handed over as. -/
def copies (ds : List (BitVec D)) : List (BitVec D) := ds.flatMap (List.replicate (cfg.toNat + 1))

/-- Copies are handed over in order, the missing ones are offered and are copies of the last
word accepted, and a word that is offered is accepted exactly when none is missing. -/
structure InterpolationLaw (bs : List (Beat D)) : Prop where
  inOrder : ∃ rest, copies cfg (taken cfg bs) = given cfg bs ++ rest ∧
    rest.length ≤ cfg.toNat + 1 ∧ ((after cfg bs).out.mAxisTvalid = true ↔ rest ≠ [])
  oneByOne : ∀ js b, js ++ [b] <+: bs → accepted (after cfg js) (.running cfg b) ≠ [] →
    copies cfg (taken cfg js) = given cfg js
  accepts : ∀ js b, js ++ [b] <+: bs → b.tvalid = true →
    copies cfg (taken cfg js) = given cfg js → accepted (after cfg js) (.running cfg b) = [b.tdata]

/-- The copies that are missing. -/
def missing (s : St D W) : List (BitVec D) :=
  if s.intTvalidReg then List.replicate (cfg.toNat + 1 - s.intCntrReg.toNat) s.intTdataReg else []

end Run

/-! ## One edge -/

section Edge

variable {cfg : BitVec W} {s : St D W} {b : Beat D}

variable (cfg) in
/-- Nothing to take in, or nobody to hand over to. -/
theorem step_wait (h : if s.intTvalidReg then b.tready = false else b.tvalid = false) :
    step s (.running cfg b) = s ∧ accepted s (.running cfg b) = [] ∧
      transferred s (.running cfg b) = [] := by
  obtain ⟨d, v, c⟩ := s
  cases v <;>
    simp_all [step, accepted, transferred, St.out, St.intTdataNext, St.intTvalidNext,
      St.intCntrNext, In.running]

variable (cfg) in
theorem step_load (hs : s.intTvalidReg = false) (hb : b.tvalid = true) :
    step s (.running cfg b) = ⟨b.tdata, true, s.intCntrReg⟩ ∧
      accepted s (.running cfg b) = [b.tdata] ∧ transferred s (.running cfg b) = [] := by
  simp [step, accepted, transferred, St.out, St.intTdataNext, St.intTvalidNext, St.intCntrNext,
    In.running, hs, hb]

theorem step_copy (hs : s.intTvalidReg = true) (hb : b.tready = true)
    (hlt : s.intCntrReg.toNat < cfg.toNat) :
    step s (.running cfg b) = ⟨s.intTdataReg, true, s.intCntrReg + 1⟩ ∧
      accepted s (.running cfg b) = [] ∧ transferred s (.running cfg b) = [s.intTdataReg] := by
  simp [step, accepted, transferred, St.out, St.intTdataNext, St.intTvalidNext, St.intCntrNext,
    In.running, hs, hb, hlt]

theorem step_last (hs : s.intTvalidReg = true) (hb : b.tready = true)
    (hge : cfg.toNat ≤ s.intCntrReg.toNat) :
    step s (.running cfg b) = ⟨s.intTdataReg, false, 0⟩ ∧
      accepted s (.running cfg b) = [] ∧ transferred s (.running cfg b) = [s.intTdataReg] := by
  have hnot : ¬s.intCntrReg.toNat < cfg.toNat := Nat.not_lt.mpr hge
  simp [step, accepted, transferred, St.out, St.intTdataNext, St.intTvalidNext, St.intCntrNext,
    In.running, hs, hb, hnot]

end Edge

/-! ## The copies -/

section Copies

variable {cfg : BitVec W} {s : St D W}

/-- The counter holds the number of copies that were handed over. -/
structure Inv (cfg : BitVec W) (s : St D W) : Prop where
  le : s.intCntrReg.toNat ≤ cfg.toNat
  zero : s.intTvalidReg = false → s.intCntrReg = 0

theorem length_missing (s : St D W) : (missing cfg s).length ≤ cfg.toNat + 1 := by
  unfold missing
  split
  · rw [List.length_replicate]
    omega
  · exact Nat.zero_le _

theorem Inv.tvalid_iff (h : Inv cfg s) : s.out.mAxisTvalid = true ↔ missing cfg s ≠ [] := by
  have hle := h.le
  have hne : cfg.toNat + 1 - s.intCntrReg.toNat ≠ 0 := by omega
  cases hv : s.intTvalidReg <;> simp [missing, St.out, hv, hne]

/-- What is missing or has to be copied is handed over or is missing after the edge. -/
theorem Inv.step (h : Inv cfg s) (b : Beat D) :
    Inv cfg (step s (.running cfg b)) ∧
      missing cfg s ++ copies cfg (accepted s (.running cfg b)) =
        transferred s (.running cfg b) ++ missing cfg (Interpolator.step s (.running cfg b)) := by
  by_cases hwait : if s.intTvalidReg then b.tready = false else b.tvalid = false
  case pos =>
    obtain ⟨hstep, hacc, hout⟩ := step_wait cfg hwait
    rw [hstep, hacc, hout]
    exact ⟨h, List.append_nil _⟩
  case neg =>
    cases hv : s.intTvalidReg with
    | false =>
      obtain ⟨hstep, hacc, hout⟩ := step_load (b := b) cfg hv (by simpa [hv] using hwait)
      have hzero := h.zero hv
      rw [hstep, hacc, hout]
      exact ⟨⟨h.le, by simp⟩, by simp [missing, copies, hv, hzero]⟩
    | true =>
      have hb : b.tready = true := by simpa [hv] using hwait
      by_cases hlt : s.intCntrReg.toNat < cfg.toNat
      case pos =>
        obtain ⟨hstep, hacc, hout⟩ := step_copy hv hb hlt
        have hfit : s.intCntrReg.toNat + 1 < 2 ^ W := by have := cfg.isLt; omega
        have hsucc := BitFields.toNat_add_one hfit
        have hmore : cfg.toNat + 1 - s.intCntrReg.toNat =
            cfg.toNat + 1 - (s.intCntrReg + 1).toNat + 1 := by omega
        rw [hstep, hacc, hout]
        refine ⟨⟨by show (s.intCntrReg + 1).toNat ≤ _; omega, by simp⟩, ?_⟩
        rw [missing, missing, hv, if_pos rfl, if_pos rfl, hmore, List.replicate_succ]
        simp [copies]
      case neg =>
        obtain ⟨hstep, hacc, hout⟩ := step_last hv hb (Nat.le_of_not_lt hlt)
        have hle := h.le
        have hone : cfg.toNat + 1 - s.intCntrReg.toNat = 1 := by omega
        rw [hstep, hacc, hout]
        exact ⟨⟨Nat.zero_le _, fun _ => rfl⟩, by simp [missing, copies, hv, hone]⟩

end Copies

/-! ## Runs -/

theorem after_snoc (cfg : BitVec W) (bs : List (Beat D)) (b : Beat D) :
    after cfg (bs ++ [b]) = step (after cfg bs) (.running cfg b) := by
  simp [after]

theorem taken_snoc (cfg : BitVec W) (bs : List (Beat D)) (b : Beat D) :
    taken cfg (bs ++ [b]) = taken cfg bs ++ accepted (after cfg bs) (.running cfg b) := by
  simp [taken, after]

theorem given_snoc (cfg : BitVec W) (bs : List (Beat D)) (b : Beat D) :
    given cfg (bs ++ [b]) = given cfg bs ++ transferred (after cfg bs) (.running cfg b) := by
  simp [given, after]

/-- Every copy is handed over or missing. -/
theorem copies_taken (cfg : BitVec W) (bs : List (Beat D)) : Inv cfg (after cfg bs) ∧
    copies cfg (taken cfg bs) = given cfg bs ++ missing cfg (after cfg bs) := by
  induction bs using List.reverseRecOn with
  | nil => exact ⟨⟨Nat.zero_le _, fun _ => rfl⟩, rfl⟩
  | append_singleton bs b ih =>
    obtain ⟨hinv, hcopies⟩ := ih
    obtain ⟨hinv', hedge⟩ := hinv.step b
    have happend : copies cfg (taken cfg bs ++ accepted (after cfg bs) (.running cfg b)) =
        copies cfg (taken cfg bs) ++ copies cfg (accepted (after cfg bs) (.running cfg b)) :=
      List.flatMap_append
    rw [after_snoc, taken_snoc, given_snoc, happend, hcopies, List.append_assoc, hedge,
      List.append_assoc]
    exact ⟨hinv', rfl⟩

/-- The law of the interpolator. -/
theorem interpolationLaw (cfg : BitVec W) (bs : List (Beat D)) : InterpolationLaw cfg bs where
  inOrder := by
    obtain ⟨hinv, hcopies⟩ := copies_taken cfg bs
    exact ⟨_, hcopies, length_missing _, hinv.tvalid_iff⟩
  oneByOne := by
    intro js b _ hacc
    have hempty : missing cfg (after cfg js) = [] := by
      cases hv : (after cfg js).intTvalidReg with
      | false => simp [missing, hv]
      | true => simp [accepted, St.out, hv] at hacc
    rw [(copies_taken cfg js).2, hempty, List.append_nil]
  accepts := by
    intro js b _ hb hdone
    obtain ⟨hinv, hcopies⟩ := copies_taken cfg js
    have hempty : missing cfg (after cfg js) = [] :=
      List.self_eq_append_right.mp (hdone.symm.trans hcopies)
    have hclosed : (after cfg js).intTvalidReg = false :=
      Bool.eq_false_iff.mpr fun hv => hinv.tvalid_iff.mp hv hempty
    exact (step_load cfg hclosed hb).2.1

end LagoEcosystem.Interpolator
