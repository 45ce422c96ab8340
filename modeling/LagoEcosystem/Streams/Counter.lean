import LagoEcosystem.Library.Sweep

/-!
# The counter

`axis_counter`, a source of the numbers `0` to `cfg_data - 1` over and over. The flags
`comp_reg` and `tlast_reg` compare the counter of the cycle before, so they are right for a
receiver that takes every word at once. One that waits at the end of a pass gets the mark too
early, or does not get the last number.
-/

namespace LagoEcosystem.AxisCounter

open Clocked Sweep

/-- The input ports; `W` is `CNTR_WIDTH`. -/
structure In (W : ℕ) where
  aresetn : Bool
  cfgData : BitVec W
  mAxisTready : Bool

structure St (W : ℕ) where
  cntrReg : BitVec W
  tlastReg : Bool
  compReg : Bool

/-- The output ports; `D` is `AXIS_TDATA_WIDTH`. -/
structure Out (D : ℕ) where
  mAxisTdata : BitVec D
  mAxisTlast : Bool
  mAxisTvalid : Bool

variable {D W : ℕ}

def St.tlastNext (s : St W) (i : In W) : Bool := if s.cntrReg = i.cfgData - 2 then true else false

def St.compNext (s : St W) (i : In W) : Bool := if s.cntrReg = i.cfgData - 1 then false else true

def St.cntrNext (s : St W) (i : In W) : BitVec W :=
  if s.compReg && i.mAxisTready then s.cntrReg + 1
  else if !s.compReg then 0
  else s.cntrReg

/-- The registers after a clock edge with `aresetn` low. -/
def St.reset : St W := ⟨0, false, false⟩

def step (s : St W) (i : In W) : St W :=
  if i.aresetn then ⟨s.cntrNext i, s.tlastNext i, s.compNext i⟩ else .reset

def St.out (D : ℕ) (s : St W) : Out D := ⟨s.cntrReg.setWidth D, s.tlastReg, s.compReg⟩

/-- The word that is handed over in a cycle, with its `tlast`. -/
def transferred (D : ℕ) (s : St W) (i : In W) : List (BitVec D × Bool) :=
  if (s.out D).mAxisTvalid && i.mAxisTready then [((s.out D).mAxisTdata, (s.out D).mAxisTlast)]
  else []

/-- A cycle outside the reset. -/
def In.running (cfgData : BitVec W) (tready : Bool) : In W := ⟨true, cfgData, tready⟩

theorem step_reset (s : St W) {i : In W} (h : i.aresetn = false) : step s i = .reset := by
  simp [step, h]

/-- The words handed over in a run, given by the cycles in which the receiver is ready. -/
def given (D : ℕ) (cfg : BitVec W) (rs : List Bool) : List (BitVec D × Bool) :=
  collect step (transferred D) .reset (rs.map (.running cfg))

/-- The words are the numbers below `cfg_data` over and over, with `tlast` on the greatest. -/
def CountingLaw (D : ℕ) (cfg : BitVec W) (rs : List Bool) : Prop :=
  ∀ k, ∀ x ∈ (given D cfg rs)[k]?,
    x = (BitVec.ofNat D (k % cfg.toNat), decide (k % cfg.toNat = cfg.toNat - 1))

/-! ## The counter is a sweep -/

/-- The registers as those of a sweep to `cfg_data - 1`. -/
def St.sweep (s : St W) : Sweep.St W := ⟨s.cntrReg, s.compReg, s.tlastReg⟩

theorem sweep_step (cfg : BitVec W) (s : St W) (r : Bool) :
    (step s (.running cfg r)).sweep = next (cfg - 1) s.sweep r := by
  have htwo : cfg - 2 = cfg - 1 - 1 := by rw [sub_sub, one_add_one_eq_two]
  have hstep : step s (.running cfg r) = ⟨s.cntrNext (.running cfg r),
      s.tlastNext (.running cfg r), s.compNext (.running cfg r)⟩ := rfl
  have hcomp : s.compNext (.running cfg r) = decide (s.cntrReg ≠ cfg - 1) := by
    show (if s.cntrReg = cfg - 1 then false else true) = _
    simp only [Bool.if_true_right, Bool.or_false, decide_not, ne_eq]
  have htlast : s.tlastNext (.running cfg r) = decide (s.cntrReg = cfg - 1 - 1) := by
    rw [← htwo]
    show (if s.cntrReg = cfg - 2 then true else false) = _
    simp only [Bool.if_false_right, Bool.and_true]
  rw [hstep, St.sweep, hcomp, htlast, St.cntrNext, next, Bool.and_comm]
  rfl

theorem given_eq_words (D : ℕ) (cfg : BitVec W) (rs : List Bool) :
    given D cfg rs = words (cfg - 1) (BitVec.setWidth D) .reset rs := by
  rw [given, collect_map_input]
  exact collect_map (sweep_step cfg) (shown (BitVec.setWidth D)) .reset rs

/-- The counter counts for a receiver if and only if it transfers nothing any more after a
cycle without a transfer in which the counter has one of its last two values. -/
theorem countingLaw_iff (D : ℕ) (cfg : BitVec W) (hcfg : 2 ≤ cfg.toNat) (rs : List Bool) :
    CountingLaw D cfg rs ↔ Unspoiled (cfg - 1) .reset rs := by
  have hlast : (cfg - 1).toNat = cfg.toNat - 1 := BitFields.toNat_sub_one (by omega)
  have hlen : (cfg - 1).toNat + 1 = cfg.toNat := by omega
  have hpass : ∀ k, passes (W := W) (BitVec.setWidth D) ((cfg - 1).toNat + 1) k =
      (BitVec.ofNat D (k % cfg.toNat), decide (k % cfg.toNat = cfg.toNat - 1)) := by
    intro k
    have hlt : k % cfg.toNat < cfg.toNat := Nat.mod_lt k (by omega)
    rw [passes, hlen, Prod.mk.injEq]
    constructor
    · apply BitVec.eq_of_toNat_eq
      rw [BitVec.toNat_setWidth, BitVec.toNat_ofNat, BitVec.toNat_ofNat,
        Nat.mod_eq_of_lt (hlt.trans cfg.isLt)]
    · rw [decide_eq_decide]
      omega
  rw [← follows_iff_unspoiled (BitVec.setWidth D) (by omega), CountingLaw, given_eq_words]
  simp only [Follows, Nat.zero_add, hpass]

/-- Three numbers, and a receiver that waits with the first one. -/
theorem countingLaw_iff_three :
    CountingLaw 8 (3 : BitVec 4) [true, false, true, true, true, true] ↔
      Unspoiled (3 - 1 : BitVec 4) .reset [true, false, true, true, true, true] :=
  countingLaw_iff 8 3 (by decide) _

/-- Three numbers, and a receiver that waits with the second one, which then has the mark. -/
theorem early_mark : 2 ≤ (3 : BitVec 4).toNat ∧
    ¬CountingLaw 8 (3 : BitVec 4) [true, true, false, true] :=
  ⟨by decide, fun h => absurd (h 1 (1, true) (by decide)) (by decide)⟩

end LagoEcosystem.AxisCounter
