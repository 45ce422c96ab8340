import LagoEcosystem.Library.BitFields

/-!
# Saturating counters

A counter of `w` bits that stays at its greatest value once it has reached it. It shows the
number of events as long as that number fits.
-/

namespace LagoEcosystem.Saturating

open BitFields

variable {w : ℕ}

/-- The counter after `k` events. -/
def sat (w k : ℕ) : BitVec w := BitVec.ofNat w (min k (2 ^ w - 1))

@[simp] theorem toNat_sat (w k : ℕ) : (sat w k).toNat = min k (2 ^ w - 1) := by
  have hpos := Nat.two_pow_pos w
  rw [sat, BitVec.toNat_ofNat, Nat.mod_eq_of_lt]
  omega

@[simp] theorem sat_zero (w : ℕ) : sat w 0 = 0 := by
  apply BitVec.eq_of_toNat_eq
  simp

theorem sat_eq_allOnes_iff {k : ℕ} : sat w k = BitVec.allOnes w ↔ 2 ^ w - 1 ≤ k := by
  rw [← BitVec.toNat_inj, toNat_sat, BitVec.toNat_allOnes]
  omega

/-- One event more. -/
theorem sat_succ (w k : ℕ) :
    sat w (k + 1) = if sat w k = BitVec.allOnes w then sat w k else sat w k + 1 := by
  have hpos := Nat.two_pow_pos w
  apply BitVec.eq_of_toNat_eq
  split
  case isTrue h =>
    have hle := sat_eq_allOnes_iff.mp h
    rw [toNat_sat, toNat_sat]
    omega
  case isFalse h =>
    have hlt : k < 2 ^ w - 1 := Nat.lt_of_not_le fun hle => h (sat_eq_allOnes_iff.mpr hle)
    have hval := toNat_sat w k
    rw [toNat_add_one (by omega), hval, toNat_sat]
    omega

end LagoEcosystem.Saturating
