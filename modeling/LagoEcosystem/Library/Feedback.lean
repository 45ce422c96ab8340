import Mathlib.Data.BitVec
import Mathlib.Dynamics.PeriodicPts.Lemmas

/-!
# Feedback shift registers

A register whose bits move up by one in every update, with a feedback from all of them as the
new lowest bit. The bit that leaves is not lost if the feedback depends on it: then the
update is injective, no value but the fixed points leads to a fixed point, and every value
comes back.
-/

namespace LagoEcosystem.Feedback

section Register

variable {m i : ℕ} {f : BitVec m → Bool} {x : BitVec m}

/-- The register after an update. -/
def feed (f : BitVec m → Bool) (x : BitVec m) : BitVec m := x.shiftConcat (f x)

theorem getLsbD_feed_zero (hm : 0 < m) : (feed f x).getLsbD 0 = f x := by
  rw [feed, BitVec.getLsbD_shiftConcat, decide_eq_true hm]
  rfl

theorem getLsbD_feed_succ (hi : i + 1 < m) : (feed f x).getLsbD (i + 1) = x.getLsbD i := by
  rw [feed, BitVec.getLsbD_shiftConcat, decide_eq_true hi]
  rfl

/-- The feedback tells values apart that agree below the top bit. -/
def HeedsTop (f : BitVec m → Bool) : Prop :=
  ∀ x y : BitVec m, (∀ i, i + 1 < m → x.getLsbD i = y.getLsbD i) → f x = f y → x = y

theorem feed_injective (h : HeedsTop f) : Function.Injective (feed f) := by
  intro x y hxy
  refine h x y (fun i hi => ?_) ?_
  · rw [← getLsbD_feed_succ (f := f) hi, hxy, getLsbD_feed_succ hi]
  · rcases Nat.eq_zero_or_pos m with rfl | hm
    · rw [BitVec.eq_of_zero_length rfl (x := x) (y := y)]
    · rw [← getLsbD_feed_zero (f := f) (x := x) hm, hxy, getLsbD_feed_zero hm]

/-- An update changes nothing only where all bits are that of the feedback. -/
theorem feed_eq_self_iff : feed f x = x ↔ ∀ i, i < m → x.getLsbD i = f x := by
  constructor
  · intro h i hi
    induction i with
    | zero => rw [← h, getLsbD_feed_zero hi, h]
    | succ i ih => rw [← ih (by omega), ← getLsbD_feed_succ (f := f) hi, h]
  · intro h
    apply BitVec.eq_of_getLsbD_eq
    intro i hi
    cases i with
    | zero => rw [getLsbD_feed_zero hi, h 0 hi]
    | succ i => rw [getLsbD_feed_succ hi, h i (by omega), h (i + 1) hi]

end Register

section Orbit

variable {α : Type*} {f : α → α} {x z : α}

theorem ne_of_fixed (hf : Function.Injective f) (hz : f z = z) (hx : x ≠ z) : f x ≠ z :=
  fun h => hx (hf (h.trans hz.symm))

/-- Injective updates of a finite register repeat, from the first value on. -/
theorem exists_period [Finite α] (hf : Function.Injective f) (x : α) :
    ∃ p, 0 < p ∧ ∀ k, f^[k + p] x = f^[k] x := by
  obtain ⟨p, hp, hperiod⟩ := hf.mem_periodicPts x
  refine ⟨p, hp, fun k => ?_⟩
  rw [Function.iterate_add_apply]
  exact congrArg f^[k] hperiod

instance finite_bitVec (m : ℕ) : Finite (BitVec m) :=
  Finite.of_equiv (Fin (2 ^ m)) BitVec.equivFin.symm.toEquiv

end Orbit

end LagoEcosystem.Feedback
