import Mathlib.Data.Int.ModEq
import Mathlib.Data.Rat.Floor
import Mathlib.Tactic.Linarith
import Mathlib.Tactic.NormNum
import Mathlib.Tactic.Positivity

/-!
# Fixed-point numbers

A rational is scaled, truncated toward zero as a C conversion does, and kept in a two's
complement word of `w` bits. The word stands for the rational to within one unit exactly
when the truncated number fits the word (`within_iff`).
-/

namespace LagoEcosystem.FixedPoint

/-- Truncation toward zero. -/
def truncate (q : ℚ) : ℤ := if 0 ≤ q then ⌊q⌋ else ⌈q⌉

/-- `round`, halves away from zero. -/
def roundAway (q : ℚ) : ℤ := if 0 ≤ q then ⌊q + 1 / 2⌋ else ⌈q - 1 / 2⌉

theorem abs_truncate_sub (q : ℚ) : |(truncate q : ℚ) - q| < 1 := by
  unfold truncate
  split
  · have h1 := Int.floor_le q
    have h2 := Int.lt_floor_add_one q
    rw [abs_lt]
    constructor <;> linarith
  · have h1 := Int.le_ceil q
    have h2 := Int.ceil_lt_add_one q
    rw [abs_lt]
    constructor <;> linarith

/-- Rounding is off by half a unit at most. -/
theorem abs_roundAway_sub (q : ℚ) : |(roundAway q : ℚ) - q| ≤ 1 / 2 := by
  unfold roundAway
  split
  · have h1 := Int.floor_le (q + 1 / 2)
    have h2 := Int.lt_floor_add_one (q + 1 / 2)
    rw [abs_le]
    constructor <;> linarith
  · have h1 := Int.le_ceil (q - 1 / 2)
    have h2 := Int.ceil_lt_add_one (q - 1 / 2)
    rw [abs_le]
    constructor <;> linarith

/-- Both conversions are odd. -/
theorem truncate_neg (q : ℚ) : truncate (-q) = -truncate q := by
  unfold truncate
  rcases lt_trichotomy q 0 with hq | rfl | hq
  · rw [if_pos (by linarith), if_neg (by linarith), Int.floor_neg]
  · simp
  · rw [if_neg (by linarith), if_pos hq.le, Int.ceil_neg]

theorem roundAway_neg (q : ℚ) : roundAway (-q) = -roundAway q := by
  unfold roundAway
  rcases lt_trichotomy q 0 with hq | rfl | hq
  · rw [if_pos (by linarith), if_neg (by linarith), ← Int.floor_neg, neg_sub]
    congr 1
    ring
  · norm_num
  · rw [if_neg (by linarith), if_pos hq.le, ← Int.ceil_neg, neg_add, sub_eq_add_neg]

theorem roundAway_intCast (n : ℤ) : roundAway n = n := by
  have h := abs_roundAway_sub (n : ℚ)
  have hlt : |roundAway (n : ℚ) - n| < 1 := by
    have : |((roundAway (n : ℚ) - n : ℤ) : ℚ)| < 1 := by
      push_cast
      linarith
    exact_mod_cast this
  have := Int.abs_lt_one_iff.mp hlt
  omega

theorem truncate_natCast_add {n : ℕ} {f : ℚ} (h0 : 0 ≤ f) (h1 : f < 1) :
    truncate (n + f) = n := by
  have hn : (0 : ℚ) ≤ n := by positivity
  rw [truncate, if_pos (by linarith), Int.floor_eq_iff]
  push_cast
  constructor <;> linarith

theorem truncate_lt_iff {n : ℤ} (hn : 0 < n) (q : ℚ) : truncate q < n ↔ q < n := by
  unfold truncate
  split
  · exact Int.floor_lt
  · rename_i hq
    have hn' : (0 : ℚ) < n := by exact_mod_cast hn
    have hceil : ⌈q⌉ ≤ 0 := Int.ceil_le.mpr (by push_cast; linarith)
    exact iff_of_true (by omega) (by linarith)

theorem le_truncate_iff {n : ℤ} (hn : n ≤ 0) (q : ℚ) : n ≤ truncate q ↔ (n : ℚ) - 1 < q := by
  unfold truncate
  split
  · rename_i hq
    have hn' : (n : ℚ) ≤ 0 := by exact_mod_cast hn
    have hfloor : 0 ≤ ⌊q⌋ := Int.floor_nonneg.mpr hq
    exact iff_of_true (by omega) (by linarith)
  · rw [← Int.sub_one_lt_iff, Int.lt_ceil]
    push_cast
    rfl

/-- A number that does not fit is off by at least the size of the word. -/
theorem two_pow_le_abs_toInt_sub {w : ℕ} {n : ℤ} (h : (BitVec.ofInt w n).toInt ≠ n) :
    (2 : ℤ) ^ w ≤ |(BitVec.ofInt w n).toInt - n| := by
  have hdvd : ((2 ^ w : ℕ) : ℤ) ∣ (BitVec.ofInt w n).toInt - n := by
    rw [BitVec.toInt_ofInt]
    exact Int.ModEq.dvd Int.bmod_emod.symm
  have hle := Int.le_of_dvd (abs_pos.mpr (sub_ne_zero.mpr h)) ((dvd_abs _ _).mpr hdvd)
  simpa using hle

theorem toInt_ofInt_eq_iff {w : ℕ} (hw : 0 < w) (n : ℤ) :
    (BitVec.ofInt w n).toInt = n ↔ -2 ^ (w - 1) ≤ n ∧ n < 2 ^ (w - 1) := by
  constructor
  · intro h
    rw [← h]
    exact ⟨BitVec.le_toInt _, BitVec.toInt_lt⟩
  · rintro ⟨hlo, hhi⟩
    exact BitVec.toInt_ofInt_eq_self hw hlo hhi

/-- The word recovers the scaled number to within one unit exactly when the truncated
number fits. -/
theorem within_iff {w : ℕ} (hw : 2 ≤ w) (q : ℚ) :
    |((BitVec.ofInt w (truncate q)).toInt : ℚ) - q| ≤ 1 ↔
      -2 ^ (w - 1) - 1 < q ∧ q < 2 ^ (w - 1) := by
  have hpow : (0 : ℤ) < 2 ^ (w - 1) := by positivity
  have hfits : (BitVec.ofInt w (truncate q)).toInt = truncate q ↔
      -2 ^ (w - 1) - 1 < q ∧ q < 2 ^ (w - 1) := by
    rw [toInt_ofInt_eq_iff (by omega), truncate_lt_iff hpow, le_truncate_iff (by omega)]
    push_cast
    rfl
  rw [← hfits]
  have htrunc := abs_truncate_sub q
  constructor
  · intro hle
    by_contra hne
    have hfar : (2 : ℚ) ^ w ≤ |((BitVec.ofInt w (truncate q)).toInt : ℚ) - truncate q| := by
      exact_mod_cast two_pow_le_abs_toInt_sub hne
    have hfour : (2 : ℚ) ^ 2 ≤ 2 ^ w := pow_le_pow_right₀ (by norm_num) hw
    have htri := abs_sub_le ((BitVec.ofInt w (truncate q)).toInt : ℚ) q (truncate q)
    rw [abs_sub_comm q] at htri
    linarith
  · intro heq
    rw [heq]
    exact htrunc.le

end LagoEcosystem.FixedPoint
