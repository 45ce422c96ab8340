import LagoEcosystem.Library.Clocked
import Mathlib.Data.BitVec

/-!
# A configuration word as a stream

`axis_variable` offers `cfg_data` as a stream word whenever it has changed. The data register
follows the input at every edge, so the word on offer is replaced by a newer one, and the flag
is set again when the input changes in the very cycle of a transfer.
-/

namespace LagoEcosystem.AxisVariable

open Clocked

/-- The input ports; `D` is `AXIS_TDATA_WIDTH`. -/
structure In (D : ℕ) where
  aresetn : Bool
  cfgData : BitVec D
  mAxisTready : Bool

structure St (D : ℕ) where
  intTdataReg : BitVec D
  intTvalidReg : Bool

/-- The output ports. -/
structure Out (D : ℕ) where
  mAxisTdata : BitVec D
  mAxisTvalid : Bool

variable {D : ℕ}

def St.intTvalidNext (s : St D) (i : In D) : Bool :=
  if s.intTdataReg ≠ i.cfgData then true
  else if i.mAxisTready && s.intTvalidReg then false
  else s.intTvalidReg

/-- The registers after a clock edge with `aresetn` low. -/
def St.reset : St D := ⟨0, false⟩

def step (s : St D) (i : In D) : St D :=
  if i.aresetn then ⟨i.cfgData, s.intTvalidNext i⟩ else .reset

def St.out (s : St D) : Out D := ⟨s.intTdataReg, s.intTvalidReg⟩

/-- The word that is handed over in a cycle. -/
def transferred (s : St D) (i : In D) : List (BitVec D) :=
  if s.out.mAxisTvalid && i.mAxisTready then [s.out.mAxisTdata] else []

/-- What happens around the core in a cycle outside the reset. -/
structure Cycle (D : ℕ) where
  cfgData : BitVec D
  tready : Bool

def Cycle.toIn (c : Cycle D) : In D := ⟨true, c.cfgData, c.tready⟩

theorem step_reset (s : St D) {i : In D} (h : i.aresetn = false) : step s i = .reset := by
  simp [step, h]

/-- The registers after a run. -/
def after (cs : List (Cycle D)) : St D := run step .reset (cs.map Cycle.toIn)

/-- The word that the consumer holds after a run: the last one handed over, zero before the
first. -/
def consumer (cs : List (Cycle D)) : BitVec D :=
  (collect step transferred .reset (cs.map Cycle.toIn)).getLastD 0

/-- Without a transfer pending the consumer holds the word of the last edge, and so the final
word once the input rests. -/
structure UpdateLaw (cs : List (Cycle D)) : Prop where
  upToDate : ∀ js c, js ++ [c] <+: cs → (after (js ++ [c])).out.mAxisTvalid = false →
    consumer (js ++ [c]) = c.cfgData
  settled : ∀ js ks v, js ++ ks <+: cs → ks ≠ [] → (∀ c ∈ ks, c.cfgData = v) →
    (after (js ++ ks)).out.mAxisTvalid = false → consumer (js ++ ks) = v

/-! ## One edge -/

section Edge

variable {s : St D} {c : Cycle D}

/-- A change of the input sets the flag, also in the cycle of a transfer. -/
theorem step_changed (h : s.intTdataReg ≠ c.cfgData) : step s c.toIn = ⟨c.cfgData, true⟩ := by
  simp [step, St.intTvalidNext, Cycle.toIn, h]

/-- The flag falls by a transfer only. -/
theorem step_same (h : s.intTdataReg = c.cfgData) :
    step s c.toIn = ⟨s.intTdataReg, s.intTvalidReg && !c.tready⟩ := by
  cases hv : s.intTvalidReg <;> cases hr : c.tready <;>
    simp [step, St.intTvalidNext, Cycle.toIn, h, hv, hr]

theorem transferred_eq (s : St D) (c : Cycle D) : transferred s c.toIn =
    if s.intTvalidReg && c.tready then [s.intTdataReg] else [] := rfl

end Edge

/-! ## Runs -/

theorem after_snoc (cs : List (Cycle D)) (c : Cycle D) :
    after (cs ++ [c]) = step (after cs) c.toIn := by
  simp [after]

theorem consumer_snoc (cs : List (Cycle D)) (c : Cycle D) : consumer (cs ++ [c]) =
    if (after cs).intTvalidReg && c.tready then (after cs).intTdataReg else consumer cs := by
  have hsplit : collect step transferred .reset ((cs ++ [c]).map Cycle.toIn) =
      collect step transferred .reset (cs.map Cycle.toIn) ++ transferred (after cs) c.toIn := by
    simp [after]
  rw [consumer, hsplit, transferred_eq]
  cases (after cs).intTvalidReg && c.tready with
  | false => simp [consumer]
  | true => exact List.getLastD_concat

/-- The data register holds the word of the last edge. -/
theorem intTdataReg_after_snoc (cs : List (Cycle D)) (c : Cycle D) :
    (after (cs ++ [c])).intTdataReg = c.cfgData := by
  rw [after_snoc]
  rfl

/-- With the flag low the consumer holds what the data register holds. -/
theorem consumer_eq_intTdataReg (cs : List (Cycle D)) (h : (after cs).intTvalidReg = false) :
    consumer cs = (after cs).intTdataReg := by
  induction cs using List.reverseRecOn with
  | nil => rfl
  | append_singleton cs c ih =>
    rw [after_snoc] at h ⊢
    rw [consumer_snoc]
    by_cases hsame : (after cs).intTdataReg = c.cfgData
    case pos =>
      rw [step_same hsame] at h ⊢
      cases hv : (after cs).intTvalidReg with
      | false => simpa [hv] using ih hv
      | true =>
        have hready : c.tready = true := by simpa [hv] using h
        simp [hready]
    case neg =>
      rw [step_changed hsame] at h
      exact Bool.noConfusion h

/-- The law of the core. -/
theorem updateLaw (cs : List (Cycle D)) : UpdateLaw cs := by
  have hlast : ∀ js c, (after (js ++ [c])).out.mAxisTvalid = false →
      consumer (js ++ [c]) = (c : Cycle D).cfgData := by
    intro js c hlow
    rw [consumer_eq_intTdataReg _ hlow, intTdataReg_after_snoc]
  refine ⟨fun js c _ => hlast js c, fun js ks v _ hne hrest hlow => ?_⟩
  have hsplit : js ++ ks = js ++ ks.dropLast ++ [ks.getLast hne] := by
    rw [List.append_assoc, List.dropLast_append_getLast]
  rw [hsplit] at hlow ⊢
  rw [hlast _ _ hlow]
  exact hrest _ (List.getLast_mem hne)

end LagoEcosystem.AxisVariable
