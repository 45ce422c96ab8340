import LagoEcosystem.Library.Pulses
import Mathlib.Algebra.Order.Ring.Int
import Mathlib.Order.OrderIsoNat
import Mathlib.Tactic.Ring

/-!
# Integer loops with a delay

An accumulator that follows its input. In every cycle it takes the difference of the input
and its own quotient by `R`, rounded down, where the quotient is two cycles old. The inputs
are bounded by `M`. If the increments that are under way are small against `R`, the quotient
never leaves the range of the inputs, and it settles on a constant input: the accumulator
cannot jump over the interval of length `R` that the input stands for.
-/

namespace LagoEcosystem.DelayedLoop

open Clocked

/-- The last three values of the accumulator, from the oldest one. -/
structure Window where
  a : ℤ
  b : ℤ
  c : ℤ

def Window.next (R : ℤ) (w : Window) (x : ℤ) : Window := ⟨w.b, w.c, w.c + (x - w.a / R)⟩

/-- The values lie in the range that the feedback holds them in, and neighbours are at most
the largest difference of input and quotient apart. -/
structure Bounded (R M : ℤ) (w : Window) : Prop where
  a : -(M * R) ≤ w.a ∧ w.a < M * R + 6 * M
  b : -(M * R) ≤ w.b ∧ w.b < M * R + 6 * M
  c : -(M * R) ≤ w.c ∧ w.c < M * R + 6 * M
  ab : -(2 * M) ≤ w.b - w.a ∧ w.b - w.a ≤ 2 * M
  bc : -(2 * M) ≤ w.c - w.b ∧ w.c - w.b ≤ 2 * M

variable {R M x : ℤ} {w : Window} (hR : 0 < R) (hMR : 6 * M ≤ R)

theorem bounded_zero (hR : 0 < R) (hM : 0 < M) : Bounded R M ⟨0, 0, 0⟩ := by
  have hpos : 0 < M * R := Int.mul_pos hM hR
  constructor <;> constructor <;> simp only <;> omega

section Step

include hR hMR

/-- The quotient stays in the range of the inputs. -/
theorem Bounded.quotient (hw : Bounded R M w) : -M ≤ w.a / R ∧ w.a / R ≤ M := by
  constructor
  · rw [Int.le_ediv_iff_mul_le hR, Int.neg_mul]
    exact hw.a.1
  · rw [← Int.lt_add_one_iff, Int.ediv_lt_iff_lt_mul hR, Int.add_mul, Int.one_mul]
    have hlt := hw.a.2
    omega

/-- A value that is too high has a quotient that no input exceeds, and so on the other
side. -/
theorem Bounded.next (hw : Bounded R M w) (hx : -M ≤ x ∧ x ≤ M) : Bounded R M (w.next R x) := by
  obtain ⟨hlo, hhi⟩ := hw.quotient hR hMR
  obtain ⟨ha, hb, hc, hab, hbc⟩ := hw
  have htop : w.a / R < M → w.a < M * R := fun h => (Int.ediv_lt_iff_lt_mul hR).mp h
  have hbottom : -M < w.a / R → -(M * R) + R ≤ w.a := fun h => by
    have hle := (Int.le_ediv_iff_mul_le hR).mp (Int.add_one_le_of_lt h)
    rw [Int.add_mul, Int.one_mul, Int.neg_mul] at hle
    exact hle
  refine ⟨hb, hc, ?_, hbc, ?_⟩
  · constructor
    · by_cases h : -M < w.a / R
      · have hle := hbottom h
        simp only [Window.next]
        omega
      · simp only [Window.next]
        omega
    · by_cases h : w.a / R < M
      · have hlt := htop h
        simp only [Window.next]
        omega
      · simp only [Window.next]
        omega
  · simp only [Window.next]
    omega

end Step

/-! ## A constant input -/

/-- No value is below the interval of quotient `x`. -/
def Upper (R x : ℤ) (w : Window) : Prop := x * R ≤ w.a ∧ x * R ≤ w.b ∧ x * R ≤ w.c

/-- No value is above it. -/
def Lower (R x : ℤ) (w : Window) : Prop :=
  w.a < x * R + R ∧ w.b < x * R + R ∧ w.c < x * R + R

section Constant

include hR hMR

/-- The values are too close to each other to lie on both sides of the interval. -/
theorem Bounded.upper_or_lower (hw : Bounded R M w) (x : ℤ) : Upper R x w ∨ Lower R x w := by
  obtain ⟨-, -, -, hab, hbc⟩ := hw
  unfold Upper Lower
  omega

/-- From above the accumulator comes down, but not below the interval. -/
theorem Upper.next (h : Upper R x w) (hw : Bounded R M w) :
    Upper R x (w.next R x) ∧ (w.next R x).c ≤ w.c := by
  obtain ⟨ha, hb, hc⟩ := h
  obtain ⟨-, -, -, hab, hbc⟩ := hw
  have hq : x ≤ w.a / R := (Int.le_ediv_iff_mul_le hR).mpr ha
  have hle : w.a / R * R ≤ w.a := Int.ediv_mul_le w.a (Int.ne_of_gt hR)
  refine ⟨⟨hb, hc, ?_⟩, ?_⟩
  · show x * R ≤ w.c + (x - w.a / R)
    rcases hq.eq_or_lt with heq | hlt
    · omega
    · have hfar : R - 1 ≤ (w.a / R - x) * (R - 1) := le_mul_of_one_le_left (by omega) (by omega)
      have hexpand : (w.a / R - x) * (R - 1) = w.a / R * R - x * R - (w.a / R - x) := by ring
      omega
  · show w.c + (x - w.a / R) ≤ w.c
    omega

/-- From below it goes up, but not above the interval. -/
theorem Lower.next (h : Lower R x w) (hw : Bounded R M w) :
    Lower R x (w.next R x) ∧ w.c ≤ (w.next R x).c := by
  obtain ⟨ha, hb, hc⟩ := h
  obtain ⟨-, -, -, hab, hbc⟩ := hw
  have hq : w.a / R < x + 1 := by
    rw [Int.ediv_lt_iff_lt_mul hR, Int.add_mul, Int.one_mul]
    exact ha
  have hlt : w.a < (w.a / R + 1) * R := Int.lt_ediv_add_one_mul_self w.a hR
  refine ⟨⟨hb, hc, ?_⟩, ?_⟩
  · show w.c + (x - w.a / R) < x * R + R
    rcases (Int.lt_add_one_iff.mp hq).eq_or_lt with heq | hless
    · omega
    · have hfar : R - 1 ≤ (x - w.a / R) * (R - 1) := le_mul_of_one_le_left (by omega) (by omega)
      have hexpand : (x - w.a / R) * (R - 1) = x * R - w.a / R * R - (x - w.a / R) := by ring
      rw [Int.add_mul, Int.one_mul] at hlt
      omega
  · show w.c ≤ w.c + (x - w.a / R)
    omega

end Constant

/-- The window in cycle `n` of a constant input. -/
def held (R : ℤ) (w : Window) (x : ℤ) (n : ℕ) : Window := trace (Window.next R) w (fun _ => x) n

theorem held_succ (R : ℤ) (w : Window) (x : ℤ) (n : ℕ) :
    held R w x (n + 1) = (held R w x n).next R x := trace_succ _ _ _ n

/-- What the window keeps holds in every cycle. -/
theorem held_of_next {P : Window → Prop} (h : P w) (hnext : ∀ v, P v → P (v.next R x)) (n : ℕ) :
    P (held R w x n) := by
  induction n with
  | zero => exact h
  | succ n ih =>
    rw [held_succ]
    exact hnext _ ih

/-- A distance that does not grow ends the movement of the accumulator. -/
theorem settles_of_antitone {f : ℕ → ℕ} (hf : Antitone f)
    (hstop : ∀ n, f n = f (n + 1) → (held R w x (n + 1)).c = (held R w x n).c) :
    ∃ N, ∀ n ≥ N, (held R w x n).a / R = x := by
  obtain ⟨N, hN⟩ := WellFoundedLT.antitone_chain_condition hf
  refine ⟨N, fun n hn => ?_⟩
  have hsame := hstop n ((hN n hn).symm.trans (hN (n + 1) (by omega)))
  rw [held_succ, Window.next] at hsame
  simp only at hsame
  omega

section Settling

include hR hMR

theorem bounded_held (hw : Bounded R M w) (hx : -M ≤ x ∧ x ≤ M) (n : ℕ) :
    Bounded R M (held R w x n) :=
  held_of_next hw (fun _ hv => hv.next hR hMR hx) n

theorem upper_held (hw : Bounded R M w) (hx : -M ≤ x ∧ x ≤ M) (h : Upper R x w) (n : ℕ) :
    Upper R x (held R w x n) :=
  (held_of_next (P := fun v => Bounded R M v ∧ Upper R x v) ⟨hw, h⟩
    (fun _ ⟨hv, hup⟩ => ⟨hv.next hR hMR hx, (hup.next hR hMR hv).1⟩) n).2

theorem lower_held (hw : Bounded R M w) (hx : -M ≤ x ∧ x ≤ M) (h : Lower R x w) (n : ℕ) :
    Lower R x (held R w x n) :=
  (held_of_next (P := fun v => Bounded R M v ∧ Lower R x v) ⟨hw, h⟩
    (fun _ ⟨hv, hlow⟩ => ⟨hv.next hR hMR hx, (hlow.next hR hMR hv).1⟩) n).2

/-- From above, the newest value falls until the quotient is the input. -/
theorem settles_of_upper (hw : Bounded R M w) (hx : -M ≤ x ∧ x ≤ M) (h : Upper R x w) :
    ∃ N, ∀ n ≥ N, (held R w x n).a / R = x := by
  have hupper := upper_held hR hMR hw hx h
  have hle : ∀ n, (held R w x (n + 1)).c ≤ (held R w x n).c := fun n => by
    rw [held_succ]
    exact ((hupper n).next hR hMR (bounded_held hR hMR hw hx n)).2
  refine settles_of_antitone (f := fun n => ((held R w x n).c - x * R).toNat)
    (antitone_nat_of_succ_le fun n => ?_) fun n hn => ?_
  · have := hle n
    omega
  · have := (hupper n).2.2
    have := (hupper (n + 1)).2.2
    omega

/-- From below, it rises. -/
theorem settles_of_lower (hw : Bounded R M w) (hx : -M ≤ x ∧ x ≤ M) (h : Lower R x w) :
    ∃ N, ∀ n ≥ N, (held R w x n).a / R = x := by
  have hlower := lower_held hR hMR hw hx h
  have hle : ∀ n, (held R w x n).c ≤ (held R w x (n + 1)).c := fun n => by
    rw [held_succ]
    exact ((hlower n).next hR hMR (bounded_held hR hMR hw hx n)).2
  refine settles_of_antitone (f := fun n => (x * R + R - (held R w x n).c).toNat)
    (antitone_nat_of_succ_le fun n => ?_) fun n hn => ?_
  · have := hle n
    omega
  · have := (hlower n).2.2
    have := (hlower (n + 1)).2.2
    omega

/-- The quotient settles on a constant input. -/
theorem settles (hw : Bounded R M w) (hx : -M ≤ x ∧ x ≤ M) :
    ∃ N, ∀ n ≥ N, (held R w x n).a / R = x := by
  rcases hw.upper_or_lower hR hMR x with h | h
  · exact settles_of_upper hR hMR hw hx h
  · exact settles_of_lower hR hMR hw hx h

end Settling

end LagoEcosystem.DelayedLoop
