import Mathlib.Algebra.Group.Nat.Defs
import Mathlib.Data.Nat.Notation
import Mathlib.Order.Basic

/-!
# Functions of the cores

Each core declares its own copy of `clogb2` or `log2c` and computes its widths with it.
Both are loops; the fuel here is a number of rounds after which they have ended.
-/

namespace LagoEcosystem.Cores

/-- The loop of `clogb2`: halve `temp` and count. -/
def clogb2Loop : ℕ → ℕ → ℕ → ℕ
  | 0, _, retVal => retVal
  | fuel + 1, temp, retVal =>
    if 1 < temp then clogb2Loop fuel (temp / 2) (retVal + 1) else retVal

def clogb2 (value : ℕ) : ℕ := clogb2Loop value value 1

/-- The loop of `log2c`: double `p` and count. -/
def log2cLoop : ℕ → ℕ → ℕ → ℕ → ℕ
  | 0, _, m, _ => m
  | fuel + 1, n, m, p => if p < n then log2cLoop fuel n (m + 1) (p * 2) else m

def log2c (n : ℕ) : ℕ := log2cLoop n n 0 1

theorem clogb2Loop_spec (fuel temp retVal : ℕ) (h : temp ≤ fuel + 1) :
    ∃ d, clogb2Loop fuel temp retVal = retVal + d ∧ temp < 2 ^ (d + 1) ∧
      (1 ≤ temp → 2 ^ d ≤ temp) := by
  induction fuel generalizing temp retVal with
  | zero => exact ⟨0, rfl, by omega, fun h => h⟩
  | succ fuel ih =>
    rw [clogb2Loop]
    split
    · obtain ⟨d, hd, hlt, hge⟩ := ih (temp / 2) (retVal + 1) (by omega)
      have hhalf := hge (by omega)
      refine ⟨d + 1, by rw [hd]; omega, ?_, fun _ => ?_⟩ <;> rw [Nat.pow_succ] <;> omega
    · exact ⟨0, rfl, by omega, fun h => h⟩

/-- `clogb2` is the number of bits of its argument. -/
theorem lt_two_pow_clogb2 (value : ℕ) : value < 2 ^ clogb2 value := by
  obtain ⟨d, hd, hlt, -⟩ := clogb2Loop_spec value value 1 (Nat.le_succ value)
  rw [clogb2, hd, Nat.add_comm]
  exact hlt

/-- No smaller number of bits is enough. -/
theorem two_pow_le_of_clogb2 (value : ℕ) (h : 1 ≤ value) :
    1 ≤ clogb2 value ∧ 2 ^ (clogb2 value - 1) ≤ value := by
  obtain ⟨d, hd, -, hge⟩ := clogb2Loop_spec value value 1 (Nat.le_succ value)
  rw [clogb2, hd, Nat.add_sub_cancel_left]
  exact ⟨Nat.le_add_right 1 d, hge h⟩

/-- The indices of `size` words fill their bits if and only if `size` is a power of two. -/
theorem two_pow_clogb2_le_iff {size : ℕ} (h : 2 ≤ size) :
    2 ^ clogb2 (size - 1) ≤ size ↔ ∃ k, size = 2 ^ (k + 1) := by
  have hlt := lt_two_pow_clogb2 (size - 1)
  obtain ⟨hpos, hge⟩ := two_pow_le_of_clogb2 (size - 1) (by omega)
  constructor
  case mp =>
    intro hle
    refine ⟨clogb2 (size - 1) - 1, ?_⟩
    rw [Nat.sub_add_cancel hpos]
    omega
  case mpr =>
    rintro ⟨k, rfl⟩
    have hbits : clogb2 (2 ^ (k + 1) - 1) - 1 < k + 1 :=
      (Nat.pow_lt_pow_iff_right Nat.one_lt_two).mp (by omega)
    exact Nat.pow_le_pow_right (by decide) (by omega)

theorem log2cLoop_spec (fuel n m p : ℕ) (h : n ≤ p * 2 ^ fuel) :
    ∃ d, log2cLoop fuel n m p = m + d ∧ n ≤ p * 2 ^ d ∧ ∀ c < d, p * 2 ^ c < n := by
  induction fuel generalizing m p with
  | zero => exact ⟨0, rfl, h, by simp⟩
  | succ fuel ih =>
    rw [log2cLoop]
    split
    case isTrue hlt =>
      have hdouble : ∀ k, p * 2 ^ (k + 1) = p * 2 * 2 ^ k := fun k => by
        rw [Nat.pow_succ', Nat.mul_assoc]
      obtain ⟨d, hd, hle, hmin⟩ := ih (m + 1) (p * 2) (hdouble fuel ▸ h)
      refine ⟨d + 1, by rw [hd]; omega, hdouble d ▸ hle, ?_⟩
      intro c hc
      cases c with
      | zero => simpa using hlt
      | succ c =>
        rw [hdouble]
        exact hmin c (by omega)
    case isFalse hge => exact ⟨0, rfl, by simpa using Nat.le_of_not_lt hge, by simp⟩

/-- `log2c` is the least exponent whose power reaches its argument. -/
theorem log2c_spec (n : ℕ) : n ≤ 2 ^ log2c n ∧ ∀ c < log2c n, 2 ^ c < n := by
  obtain ⟨d, hd, hle, hmin⟩ := log2cLoop_spec n n 0 1 (by
    simpa using Nat.le_of_lt Nat.lt_two_pow_self)
  simp only [Nat.one_mul] at hle hmin
  rw [log2c, hd, Nat.zero_add]
  exact ⟨hle, hmin⟩

theorem log2c_two_pow (k : ℕ) : log2c (2 ^ k) = k := by
  obtain ⟨hle, hmin⟩ := log2c_spec (2 ^ k)
  have hge : k ≤ log2c (2 ^ k) := (Nat.pow_le_pow_iff_right (by decide)).mp hle
  refine Nat.le_antisymm ?_ hge
  by_contra hlt
  exact Nat.lt_irrefl _ (hmin k (Nat.lt_of_not_le hlt))

theorem log2c_pos {n : ℕ} (h : 2 ≤ n) : 0 < log2c n := by
  have hle := (log2c_spec n).1
  refine Nat.pos_of_ne_zero fun hzero => ?_
  rw [hzero] at hle
  omega

end LagoEcosystem.Cores
