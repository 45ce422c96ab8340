import LagoEcosystem.Library.DelayedLoop
import Mathlib.Algebra.Order.Group.Abs
import Mathlib.Data.BitVec

/-!
# The removal of the baseline

`dc_removal` with its default `DATA_WIDTH` of 16. The integrator `d32` collects the
difference of the samples and its own upper half, and the upper half is subtracted from the
delayed samples. The gain is the constant 1 of the block design. Read as integers, the
integrator with the two increments under way is the window of a delayed loop.
-/

namespace LagoEcosystem.DcRemoval

open Clocked DelayedLoop

/-- The input ports. -/
structure In where
  aresetn : Bool
  kI : BitVec 16
  dataI : BitVec 16

/-- A cycle outside the reset, with the gain as it is wired. -/
def In.running (dataI : BitVec 16) : In := ⟨true, 1, dataI⟩

structure St where
  k : BitVec 16
  d0 : BitVec 16
  d11 : BitVec 16
  d12 : BitVec 16
  d21 : BitVec 16
  d22 : BitVec 32
  d31 : BitVec 16
  d32 : BitVec 32
  d4 : BitVec 16

def St.dataFbk (s : St) : BitVec 16 := s.d32.extractLsb' 16 16

def St.subS (s : St) : BitVec 16 := s.d0 - s.dataFbk

/-- The product of two signed words of 16 bits, in full. -/
def St.multS (s : St) : BitVec 32 := s.k.signExtend 32 * s.d12.signExtend 32

def St.sub2S (s : St) : BitVec 16 := s.d31 - s.dataFbk

/-- The registers after a clock edge with `aresetn` low. -/
def St.reset : St := ⟨0, 0, 0, 0, 0, 0, 0, 0, 0⟩

def step (s : St) (i : In) : St :=
  if i.aresetn then
    { k := i.kI
      d0 := i.dataI
      d11 := s.d0
      d12 := s.subS
      d21 := s.d11
      d22 := s.multS
      d31 := s.d21
      d32 := s.d32 + s.d22
      d4 := s.sub2S }
  else .reset

def St.dataO (s : St) : BitVec 16 := s.d4

theorem step_reset (s : St) {i : In} (h : i.aresetn = false) : step s i = .reset := by
  simp [step, h]

/-! ## The registers as integers -/

/-- A sample of magnitude at most `2 ^ 13`. -/
def Small (x : BitVec 16) : Prop := |x.toInt| ≤ 2 ^ 13

instance (x : BitVec 16) : Decidable (Small x) := inferInstanceAs (Decidable (_ ≤ _))

theorem Small.bounds {x : BitVec 16} (h : Small x) : -2 ^ 13 ≤ x.toInt ∧ x.toInt ≤ 2 ^ 13 :=
  abs_le.mp h

theorem small_zero : Small 0 := by decide

/-- The upper half of the integrator is its quotient, rounded down. -/
theorem St.toInt_dataFbk (s : St) : s.dataFbk.toInt = s.d32.toInt / 2 ^ 16 := by
  have hlt := s.d32.isLt
  have hnat : s.dataFbk.toNat = s.d32.toNat / 2 ^ 16 := by
    rw [dataFbk, BitVec.extractLsb'_toNat, Nat.shiftRight_eq_div_pow]
    omega
  rw [BitVec.toInt_eq_toNat_cond, BitVec.toInt_eq_toNat_cond, hnat]
  split_ifs <;> omega

/-- With gain 1 the product is the other factor. In the first cycle after the reset both
are zero. -/
theorem St.toInt_multS {s : St} (h : s.k = 1 ∨ s.k = 0 ∧ s.d12 = 0) :
    s.multS.toInt = s.d12.toInt := by
  rcases h with hk | ⟨hk, hd⟩
  · have hone : (1 : BitVec 16).signExtend 32 = 1#32 := by decide
    rw [multS, hk, hone, BitVec.one_mul, BitVec.toInt_signExtend_of_le (by decide)]
  · rw [multS, hk, hd]
    decide

/-- The integrator now, one cycle and two cycles ahead. -/
def St.window (s : St) : Window where
  a := s.d32.toInt
  b := s.d32.toInt + s.d22.toInt
  c := s.d32.toInt + s.d22.toInt + s.d12.toInt

/-! ## The invariant -/

/-- No subtraction of 16 bits and no sum of 32 bits wraps in the next cycle. -/
structure NoWrap (s : St) : Prop where
  sub : s.d0.ssubOverflow s.dataFbk = false
  sub2 : s.d31.ssubOverflow s.dataFbk = false
  add : s.d32.saddOverflow s.d22 = false

structure Inv (s : St) : Prop where
  window : Bounded (2 ^ 16) (2 ^ 13) s.window
  d0 : Small s.d0
  d11 : Small s.d11
  d21 : Small s.d21
  d31 : Small s.d31
  gain : s.k = 1 ∨ s.k = 0 ∧ s.d12 = 0

theorem inv_reset : Inv .reset where
  window := bounded_zero (by decide) (by decide)
  d0 := small_zero
  d11 := small_zero
  d21 := small_zero
  d31 := small_zero
  gain := .inr ⟨rfl, rfl⟩

variable {s : St} {x : BitVec 16}

theorem Inv.dataFbk (h : Inv s) : Small s.dataFbk := by
  have hq := h.window.quotient (by decide) (by decide)
  rw [Small, s.toInt_dataFbk, abs_le]
  exact hq

theorem ssubOverflow_of_small {y : BitVec 16} (hx : Small x) (hy : Small y) :
    x.ssubOverflow y = false := by
  have hx := hx.bounds
  have hy := hy.bounds
  simp only [BitVec.ssubOverflow, Bool.or_eq_false_iff, decide_eq_false_iff_not]
  omega

theorem Inv.noWrap (h : Inv s) : NoWrap s where
  sub := ssubOverflow_of_small h.d0 h.dataFbk
  sub2 := ssubOverflow_of_small h.d31 h.dataFbk
  add := by
    have hb := h.window.b
    simp only [St.window] at hb
    simp only [BitVec.saddOverflow, Bool.or_eq_false_iff, decide_eq_false_iff_not]
    omega

/-- A clock edge is a step of the delayed loop, whose input is the registered sample. -/
theorem window_step (h : Inv s) (x : BitVec 16) :
    (step s (.running x)).window = s.window.next (2 ^ 16) s.d0.toInt := by
  have hadd : (s.d32 + s.d22).toInt = s.d32.toInt + s.d22.toInt :=
    BitVec.toInt_add_of_not_saddOverflow (by simp [h.noWrap.add])
  have hsub : s.subS.toInt = s.d0.toInt - s.d32.toInt / 2 ^ 16 := by
    rw [← s.toInt_dataFbk]
    exact BitVec.toInt_sub_of_not_ssubOverflow (by simp [h.noWrap.sub])
  simp only [step, In.running, if_true, St.window, Window.next, hadd, hsub, St.toInt_multS h.gain]

theorem Inv.step (h : Inv s) (hx : Small x) : Inv (step s (.running x)) where
  window := by
    rw [window_step h]
    exact h.window.next (by decide) (by decide) h.d0.bounds
  d0 := hx
  d11 := h.d0
  d21 := h.d11
  d31 := h.d21
  gain := .inl rfl

/-! ## Runs -/

/-- The registers after a run of small samples. -/
def Reachable (s : St) : Prop :=
  ∃ ds : List (BitVec 16), (∀ d ∈ ds, Small d) ∧ s = run DcRemoval.step .reset (ds.map .running)

theorem Reachable.inv (h : Reachable s) : Inv s := by
  obtain ⟨ds, hds, rfl⟩ := h
  induction ds using List.reverseRecOn with
  | nil => exact inv_reset
  | append_singleton ds d ih =>
    rw [List.map_append, run_append]
    exact (ih fun d hd => hds d (by simp [hd])).step (hds d (by simp))

/-- Nothing wraps in any run, and the feedback stays in the range of the samples. -/
theorem dcRemoval_noWrap (ds : List (BitVec 16)) (hds : ∀ d ∈ ds, |d.toInt| ≤ 2 ^ 13) :
    NoWrap (run DcRemoval.step .reset (ds.map .running)) ∧
      |(run DcRemoval.step .reset (ds.map .running)).dataFbk.toInt| ≤ 2 ^ 13 := by
  have hinv : Inv (run DcRemoval.step .reset (ds.map .running)) := Reachable.inv ⟨ds, hds, rfl⟩
  exact ⟨hinv.noWrap, hinv.dataFbk⟩

/-- The largest samples of both signs. -/
theorem dcRemoval_noWrap_extremes :
    (∀ d ∈ [(0x2000 : BitVec 16), 0xe000], |d.toInt| ≤ 2 ^ 13) ∧
      NoWrap (run DcRemoval.step .reset ([(0x2000 : BitVec 16), 0xe000].map .running)) :=
  have hsmall : ∀ d ∈ [(0x2000 : BitVec 16), 0xe000], |d.toInt| ≤ 2 ^ 13 :=
    List.forall_mem_cons.mpr ⟨by decide, List.forall_mem_singleton.mpr (by decide)⟩
  ⟨hsmall, (dcRemoval_noWrap [0x2000, 0xe000] hsmall).1⟩

end LagoEcosystem.DcRemoval
