import Mathlib.Data.List.GetD
import Mathlib.Data.Nat.Init

/-!
# The width converter

`axis_dwidth_converter` makes one word of eight bytes of two words of four bytes, in front of
the RAM writer.
-/

namespace LagoEcosystem

/-- The first one of two words is the low half, and an odd word waits for the next one. -/
def packWords : List (BitVec 32) → List (BitVec 64)
  | a :: b :: ws => (b ++ a) :: packWords ws
  | _ => []

theorem length_packWords : (ws : List (BitVec 32)) → (packWords ws).length = ws.length / 2
  | [] => by simp [packWords]
  | [_] => by simp [packWords]
  | a :: b :: ws => by
    rw [packWords, List.length_cons, length_packWords ws, List.length_cons, List.length_cons]
    omega

theorem packWords_getD : (ws : List (BitVec 32)) → (k : ℕ) → k < ws.length / 2 →
    (packWords ws).getD k 0 = ws.getD (2 * k + 1) 0 ++ ws.getD (2 * k) 0
  | [], k, hk => by simp at hk
  | [_], k, hk => by simp at hk
  | a :: b :: ws, 0, _ => rfl
  | a :: b :: ws, k + 1, hk => by
    rw [List.length_cons, List.length_cons] at hk
    exact packWords_getD ws k (by omega)

/-- A part of word `j` is in a half of word `j / 2`. -/
theorem packWords_part {ws : List (BitVec 32)} {j start len : ℕ} (hj : j / 2 < ws.length / 2)
    (hpart : start + len ≤ 32) :
    ((packWords ws).getD (j / 2) 0).extractLsb' (32 * (j % 2) + start) len =
      (ws.getD j 0).extractLsb' start len := by
  rw [packWords_getD ws (j / 2) hj]
  apply BitVec.eq_of_getLsbD_eq
  intro k hk
  rw [BitVec.getLsbD_extractLsb', BitVec.getLsbD_extractLsb', BitVec.getLsbD_append]
  rcases Nat.mod_two_eq_zero_or_one j with hmod | hmod
  · have heven : 2 * (j / 2) = j := by omega
    have hlow : 32 * (j % 2) + start + k < 32 := by omega
    have hplace : 32 * (j % 2) + start + k = start + k := by omega
    rw [if_pos hlow, hplace, heven]
  · have hodd : 2 * (j / 2) + 1 = j := by omega
    have hhigh : ¬ 32 * (j % 2) + start + k < 32 := by omega
    have hplace : 32 * (j % 2) + start + k - 32 = start + k := by omega
    rw [if_neg hhigh, hplace, hodd]

/-- Word `j` is a half of word `j / 2`. -/
theorem packWords_half {ws : List (BitVec 32)} {j : ℕ} (hj : j / 2 < ws.length / 2) :
    ((packWords ws).getD (j / 2) 0).extractLsb' (32 * (j % 2)) 32 = ws.getD j 0 := by
  have hpart : 0 + 32 ≤ 32 := Nat.le_refl 32
  have hhalf := packWords_part hj hpart
  rwa [Nat.add_zero, BitVec.extractLsb'_eq_self] at hhalf

end LagoEcosystem
