import LagoEcosystem.Library.FixedPoint
import Mathlib.Data.Int.Log
import Mathlib.Tactic.FieldSimp
import Mathlib.Tactic.Ring

/-!
# Rounding to a binary floating-point number

A rational becomes the nearest number with `precision` significant bits, a tie the one whose
last bit is even. Exponents have a least value, which makes small numbers subnormal, and no
greatest one. An integer part survives the rounding unless the rest of the number lies within
half a unit of the next integer (`truncate_round`).
-/

namespace LagoEcosystem.FloatingPoint

open FixedPoint

/-- The nearest integer, the even one of two. -/
def roundEven (q : ℚ) : ℤ :=
  if q - ⌊q⌋ < 1 / 2 then ⌊q⌋
  else if 1 / 2 < q - ⌊q⌋ then ⌊q⌋ + 1
  else ⌊q⌋ + ⌊q⌋ % 2

/-- The significant bits, and the exponent of the unit of a subnormal number. -/
structure Format where
  precision : ℕ
  minExponent : ℤ

/-- A `double`. -/
def binary64 : Format := ⟨53, -1074⟩

namespace Format

/-- The exponent of the last bit. -/
def exponent (f : Format) (q : ℚ) : ℤ := max (Int.log 2 |q| + 1 - f.precision) f.minExponent

def round (f : Format) (q : ℚ) : ℚ := roundEven (q / 2 ^ f.exponent q) * 2 ^ f.exponent q

end Format

/-! ## The nearest integer -/

theorem roundEven_mem (q : ℚ) : ⌊q⌋ ≤ roundEven q ∧ roundEven q ≤ ⌊q⌋ + 1 := by
  unfold roundEven
  split_ifs <;> omega

theorem le_roundEven {a : ℤ} {q : ℚ} (h : a ≤ q) : a ≤ roundEven q :=
  (Int.le_floor.mpr h).trans (roundEven_mem q).1

theorem roundEven_le {a : ℤ} {q : ℚ} (h : q ≤ a) : roundEven q ≤ a := by
  rcases lt_or_eq_of_le h with hlt | rfl
  · have hfloor : ⌊q⌋ < a := Int.floor_lt.mpr hlt
    have hle := (roundEven_mem q).2
    omega
  · simp [roundEven]

/-- An even integer attracts all numbers within a half. -/
theorem even_le_roundEven_iff {a : ℤ} (ha : a % 2 = 0) (q : ℚ) :
    a ≤ roundEven q ↔ (a : ℚ) - 1 / 2 ≤ q := by
  have hlo := Int.floor_le q
  have hhi := Int.lt_floor_add_one q
  obtain ⟨hge, hle⟩ := roundEven_mem q
  rcases lt_trichotomy (a - 1) ⌊q⌋ with hlt | heq | hgt
  · have hnear : (a : ℚ) ≤ ⌊q⌋ := by exact_mod_cast (by omega : a ≤ ⌊q⌋)
    exact iff_of_true (by omega) (by linarith)
  · have hcast : (⌊q⌋ : ℚ) = a - 1 := by rw [← heq]; push_cast; ring
    unfold roundEven
    rw [← heq]
    push_cast
    constructor
    · intro h
      split_ifs at h with hbelow habove
      · omega
      · linarith
      · linarith
    · intro h
      split_ifs with hbelow habove
      · linarith
      · omega
      · omega
  · have hfar : (⌊q⌋ : ℚ) + 2 ≤ a := by exact_mod_cast (by omega : ⌊q⌋ + 2 ≤ a)
    exact iff_of_false (by omega) (by linarith)

/-! ## Integer parts -/

section IntegerPart

variable {f : Format} {n : ℕ} {x : ℚ}

/-- The exponent of a number between two powers of two. -/
theorem log_eq {x : ℚ} {e : ℤ} (h0 : 2 ^ e ≤ x) (h1 : x < 2 ^ (e + 1)) : Int.log 2 x = e := by
  have hpos : 0 < x := (zpow_pos (by norm_num) e).trans_le h0
  have hle := (Int.zpow_le_iff_le_log (b := 2) (by decide) hpos).mp (by exact_mod_cast h0)
  have hlt := (Int.lt_zpow_iff_log_lt (b := 2) (by decide) hpos).mp (by exact_mod_cast h1)
  omega

/-- The binary digits of `n` and one for the half. -/
def digits (n : ℕ) : ℕ := Nat.log2 (2 * n + 1)

theorem two_pow_digits_le (n : ℕ) : 2 ^ digits n ≤ 2 * n + 1 := Nat.log2_self_le (by omega)

theorem lt_two_pow_digits (n : ℕ) : n + 1 ≤ 2 ^ digits n := by
  have hlt : 2 * n + 1 < 2 ^ (digits n + 1) := Nat.lt_log2_self
  rw [Nat.pow_succ] at hlt
  omega

/-- A number from a half on whose integer part is `n`. -/
theorem exponent_eq (hmin : f.minExponent ≤ -f.precision) (h0 : n ≤ x) (h1 : x < n + 1)
    (hhalf : 1 / 2 ≤ x) : f.exponent x = digits n - f.precision := by
  have hlog : Int.log 2 |x| = digits n - 1 := by
    rw [abs_of_nonneg (by linarith)]
    refine log_eq ?_ ?_
    · rw [zpow_sub₀ (by norm_num), zpow_one, zpow_natCast]
      have hle := two_pow_digits_le n
      rcases Nat.eq_zero_or_pos n with rfl | hn
      · norm_num [digits]
        exact hhalf
      · have hpos : 1 ≤ digits n := (Nat.le_log2 (by omega)).mpr (by omega)
        have heven : 2 ^ digits n = 2 * 2 ^ (digits n - 1) := by
          rw [← Nat.pow_succ']
          congr 1
          omega
        have hdouble : 2 ^ digits n ≤ 2 * n := by omega
        have hcast : (2 : ℚ) ^ digits n ≤ 2 * n := by exact_mod_cast hdouble
        linarith
    · rw [sub_add_cancel, zpow_natCast]
      have hcast : (n : ℚ) + 1 ≤ 2 ^ digits n := by exact_mod_cast lt_two_pow_digits n
      linarith
  rw [Format.exponent, hlog]
  omega

/-- Below one half the unit is too small to reach one. -/
theorem round_le_half (hp : 2 ≤ f.precision) (hmin : f.minExponent ≤ -f.precision) (h0 : 0 ≤ x)
    (h1 : x < 1 / 2) : 0 ≤ f.round x ∧ f.round x ≤ 1 / 2 := by
  have hlog : Int.log 2 |x| ≤ 0 := by
    rw [abs_of_nonneg h0]
    rcases h0.eq_or_lt with rfl | hpos
    · simp
    · refine Int.lt_add_one_iff.mp ((Int.lt_zpow_iff_log_lt (b := 2) (by decide) hpos).mp ?_)
      norm_num
      linarith
  have hexp : f.exponent x ≤ -1 := by
    rw [Format.exponent]
    omega
  have hunit : (0 : ℚ) < 2 ^ f.exponent x := zpow_pos (by norm_num) _
  obtain ⟨k, hk⟩ := Int.eq_ofNat_of_zero_le (by omega : 0 ≤ -1 - f.exponent x)
  have hhalf : ((2 ^ k : ℤ) : ℚ) * 2 ^ f.exponent x = 1 / 2 := by
    push_cast
    rw [← zpow_natCast, ← zpow_add₀ (by norm_num), show (k : ℤ) + f.exponent x = -1 by omega]
    norm_num
  have hlo : (0 : ℤ) ≤ roundEven (x / 2 ^ f.exponent x) :=
    le_roundEven (by push_cast; positivity)
  have hhi : roundEven (x / 2 ^ f.exponent x) ≤ 2 ^ k :=
    roundEven_le (by rw [div_le_iff₀ hunit, hhalf]; exact h1.le)
  rw [Format.round]
  constructor
  · have hcast : (0 : ℚ) ≤ roundEven (x / 2 ^ f.exponent x) := by exact_mod_cast hlo
    positivity
  · rw [← hhalf]
    gcongr

/-- From one half on the unit divides one into an even number of parts. -/
theorem round_eq (hmin : f.minExponent ≤ -f.precision) (hn : digits n < f.precision)
    (h0 : n ≤ x) (h1 : x < n + 1) (hhalf : 1 / 2 ≤ x) :
    ∃ m : ℕ, (m : ℤ) % 2 = 0 ∧ (m : ℚ) = 2 ^ f.precision / 2 ^ digits n ∧
      f.round x = roundEven (x * m) / m := by
  obtain ⟨k, hk⟩ := Nat.exists_eq_add_of_lt hn
  have hexp := exponent_eq hmin h0 h1 hhalf
  have hunit : (2 : ℚ) ^ f.exponent x = 1 / 2 ^ (k + 1) := by
    rw [hexp, hk, one_div, ← zpow_natCast, ← zpow_neg]
    congr 1
    push_cast
    ring
  refine ⟨2 ^ (k + 1), by rw [Nat.pow_succ]; omega, ?_, ?_⟩
  · rw [hk, add_assoc, pow_add]
    push_cast
    field_simp
    ring
  · rw [Format.round, hunit]
    push_cast
    simp only [div_div_eq_mul_div, div_one, mul_one_div]

theorem truncate_div {m : ℕ} {r : ℤ} (hpos : (0 : ℚ) < m) (hlo : n * m ≤ r)
    (hhi : r ≤ (n + 1) * m) :
    truncate (r / m) = if ((n : ℤ) + 1) * m ≤ r then (n : ℤ) + 1 else n := by
  have hloQ : (n : ℚ) * m ≤ r := by exact_mod_cast hlo
  have hr : (0 : ℚ) ≤ r := le_trans (by positivity) hloQ
  rw [truncate, if_pos (by positivity)]
  split_ifs with hup
  · rw [le_antisymm hhi hup, Int.floor_eq_iff]
    push_cast
    rw [mul_div_assoc, div_self hpos.ne']
    constructor <;> linarith
  · have hltQ : (r : ℚ) < (n + 1) * m := by exact_mod_cast lt_of_not_ge hup
    rw [Int.floor_eq_iff, le_div_iff₀ hpos, div_lt_iff₀ hpos]
    push_cast
    exact ⟨hloQ, hltQ⟩

/-- The integer part of the rounded number is the next one when the rest is within half a unit
of it. -/
theorem truncate_round (hp : 2 ≤ f.precision) (hmin : f.minExponent ≤ -f.precision)
    (hn : digits n < f.precision) {fraction : ℚ} (h0 : 0 ≤ fraction) (h1 : fraction < 1) :
    truncate (f.round (n + fraction)) =
      if 1 - fraction ≤ 2 ^ digits n / 2 ^ (f.precision + 1) then (n : ℤ) + 1 else n := by
  by_cases hhalf : 1 / 2 ≤ (n : ℚ) + fraction
  · obtain ⟨m, heven, hm, hround⟩ := round_eq hmin hn (x := n + fraction) (by linarith)
      (by linarith) hhalf
    have hpos : (0 : ℚ) < m := by rw [hm]; positivity
    have hunit : (2 : ℚ) ^ digits n / 2 ^ (f.precision + 1) = 1 / (2 * m) := by
      rw [hm, pow_succ]
      field_simp
    have hlo : (n : ℤ) * m ≤ roundEven ((n + fraction) * m) :=
      le_roundEven (by push_cast; gcongr; linarith)
    have hhi : roundEven ((n + fraction) * m) ≤ ((n : ℤ) + 1) * m :=
      roundEven_le (by push_cast; gcongr)
    have hup : ((n : ℤ) + 1) * m ≤ roundEven ((n + fraction) * m) ↔
        1 - fraction ≤ 2 ^ digits n / 2 ^ (f.precision + 1) := by
      rw [even_le_roundEven_iff (by rw [Int.mul_emod, heven]; simp), hunit,
        le_div_iff₀ (by positivity)]
      push_cast
      constructor <;> intro h <;> nlinarith only [h]
    rw [hround, truncate_div hpos hlo hhi]
    simp only [hup]
  · have hzero : n = 0 := by
      by_contra hne
      have hge : (1 : ℚ) ≤ n := by exact_mod_cast Nat.one_le_iff_ne_zero.mpr hne
      linarith
    subst hzero
    obtain ⟨hnonneg, hle⟩ := round_le_half hp hmin (by push_cast; linarith) (lt_of_not_ge hhalf)
    have hfar : ¬ 1 - fraction ≤ 2 ^ digits 0 / 2 ^ (f.precision + 1) := by
      have hunit : (2 : ℚ) ^ digits 0 / 2 ^ (f.precision + 1) ≤ 1 / 2 := by
        rw [div_le_div_iff₀ (by positivity) (by norm_num)]
        norm_num [digits, pow_succ]
        exact_mod_cast Nat.one_le_two_pow
      push_cast at hhalf
      linarith
    rw [if_neg hfar, truncate, if_pos hnonneg, Int.floor_eq_iff]
    push_cast at *
    constructor <;> linarith

end IntegerPart

end LagoEcosystem.FloatingPoint
