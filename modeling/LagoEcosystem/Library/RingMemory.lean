import Mathlib.Data.List.Range
import Mathlib.Data.Nat.ModEq
import Mathlib.Logic.Function.Basic

/-!
# Ring memories

A writer stores a stream word by word into the cells `0` to `N - 1` in turn. A reader that
has taken the first `n` words and is less than one ring behind finds the next ones where
they were stored, up to the end of the ring.
-/

namespace LagoEcosystem.RingMemory

variable {α : Type*} {N : ℕ} {init w : ℕ → α} {i j k m n : ℕ}

/-- The memory after the first `k` words of `w` were stored. -/
def fill (N : ℕ) (init w : ℕ → α) : ℕ → ℕ → α
  | 0 => init
  | k + 1 => Function.update (fill N init w k) (k % N) (w k)

/-- Only the words stored so far count. -/
theorem fill_congr {v : ℕ → α} (h : ∀ i < k, w i = v i) : fill N init w k = fill N init v k := by
  induction k with
  | zero => rfl
  | succ k ih => rw [fill, fill, ih fun i hi => h i (by omega), h k (by omega)]

/-- A word stays where it was stored for one turn of the writer. -/
theorem fill_mod (hi : i < k) (hk : k ≤ i + N) : fill N init w k (i % N) = w i := by
  induction k with
  | zero => omega
  | succ k ih =>
    by_cases hlast : i = k
    · simp [fill, hlast]
    · have hne : i % N ≠ k % N := by
        intro heq
        have hdvd : N ∣ k - i := (Nat.modEq_iff_dvd' (by omega)).mp heq
        exact absurd (Nat.le_of_dvd (by omega) hdvd) (by omega)
      rw [fill, Function.update_of_ne hne]
      exact ih (by omega) (by omega)

/-- A cell holds a word of its own place in the ring, if any. -/
theorem fill_cell (k j : ℕ) :
    fill N init w k j = init j ∨ ∃ i < k, i % N = j ∧ fill N init w k j = w i := by
  induction k with
  | zero => exact .inl rfl
  | succ k ih =>
    by_cases hj : j = k % N
    · exact .inr ⟨k, by omega, hj.symm, by simp [fill, hj]⟩
    · rw [fill, Function.update_of_ne hj]
      rcases ih with h | ⟨i, hi, hij, h⟩
      · exact .inl h
      · exact .inr ⟨i, by omega, hij, h⟩

/-- A cell holds the last word that was stored there. -/
theorem fill_last (hN : 0 < N) (hi : i < k) :
    fill N init w k (i % N) = w (i + N * ((k - 1 - i) / N)) := by
  have hturn := Nat.div_add_mod (k - 1 - i) N
  have hrest := Nat.mod_lt (k - 1 - i) hN
  have hcell : fill N init w k ((i + N * ((k - 1 - i) / N)) % N) = w (i + N * ((k - 1 - i) / N)) :=
    fill_mod (by omega) (by omega)
  rwa [Nat.add_mul_mod_self_left] at hcell

/-- Storing the first `r` parts of a word. -/
theorem fill_parts_add {β : Type*} {B r : ℕ} (init v : ℕ → β) (hr : r ≤ B) (k i : ℕ) :
    fill (B * N) init v (B * k + r) i =
      if i / B = k % N ∧ i % B < r then v (B * k + i % B) else fill (B * N) init v (B * k) i := by
  induction r with
  | zero => simp
  | succ r ih =>
    have hcell : (B * k + r) % (B * N) = r + B * (k % N) := by
      rw [Nat.mod_mul, Nat.mul_add_mod, Nat.mod_eq_of_lt (by omega : r < B),
        Nat.mul_add_div (by omega), Nat.div_eq_of_lt (by omega), Nat.add_zero]
    have hplace := Nat.div_add_mod i B
    rw [← Nat.add_assoc, fill, hcell, Function.update_apply, ih (by omega)]
    by_cases hi : i = r + B * (k % N)
    · have hdiv : i / B = k % N := by
        rw [hi, Nat.add_mul_div_left _ _ (by omega), Nat.div_eq_of_lt (by omega), Nat.zero_add]
      have hmod : i % B = r := by
        rw [hi, Nat.add_mul_mod_self_left, Nat.mod_eq_of_lt (by omega)]
      rw [if_pos hi, if_pos ⟨hdiv, by omega⟩, hmod]
    · have hother : ¬ (i / B = k % N ∧ i % B = r) := by
        rintro ⟨hdiv, hmod⟩
        rw [hdiv, hmod] at hplace
        omega
      have hiff : (i / B = k % N ∧ i % B < r) ↔ (i / B = k % N ∧ i % B < r + 1) := by omega
      rw [if_neg hi]
      simp only [hiff]

/-- A memory of words of `B` parts is a memory of the parts. -/
theorem fill_parts {β : Type*} {B : ℕ} (hB : 0 < B) (part : α → ℕ → β) (k i : ℕ) :
    fill (B * N) (fun i => part (init (i / B)) (i % B)) (fun i => part (w (i / B)) (i % B))
        (B * k) i = part (fill N init w k (i / B)) (i % B) := by
  induction k with
  | zero => rfl
  | succ k ih =>
    have hmod : i % B < B := Nat.mod_lt i hB
    have hword : (B * k + i % B) / B = k := by
      rw [Nat.mul_add_div hB, Nat.div_eq_of_lt hmod, Nat.add_zero]
    rw [Nat.mul_succ, fill_parts_add _ _ le_rfl, ih, fill, Function.update_apply]
    by_cases hi : i / B = k % N
    · rw [if_pos ⟨hi, hmod⟩, if_pos hi, hword, Nat.mul_add_mod, Nat.mod_mod]
    · rw [if_neg fun h => hi h.1, if_neg hi]

/-- Where a reader stops that has taken `n` of `avail` words and reads no further than the
end of the ring. -/
def drained (N n avail : ℕ) : ℕ := min avail ((n / N + 1) * N)

/-- The end of the turn that word `n` belongs to. -/
theorem endOfTurn_eq (N n : ℕ) : (n / N + 1) * N = n - n % N + N := by
  have := Nat.div_add_mod n N
  rw [Nat.add_mul, Nat.one_mul, Nat.mul_comm]
  omega

theorem le_drained (hN : 0 < N) (h : n ≤ m) : n ≤ drained N n m := by
  have := Nat.mod_lt n hN
  have := endOfTurn_eq N n
  rw [drained]
  omega

theorem drained_le (N n m : ℕ) : drained N n m ≤ m := min_le_left _ _

/-- The next words of the stream are in the next cells. -/
theorem map_fill (hN : 0 < N) (hm : m ≤ (n / N + 1) * N) (hmk : m ≤ k) (hk : k ≤ n + N) :
    (List.range' (n % N) (m - n)).map (fill N init w k) = (List.range' n (m - n)).map w := by
  apply List.ext_getElem (by simp)
  intro i hi _
  simp only [List.length_map, List.length_range'] at hi
  simp only [List.getElem_map, List.getElem_range', Nat.one_mul]
  have hcell : (n + i) % N = n % N + i := by
    have := Nat.div_add_mod n N
    have := endOfTurn_eq N n
    have := Nat.mod_lt n hN
    rw [show n + i = N * (n / N) + (n % N + i) by omega, Nat.mul_add_mod,
      Nat.mod_eq_of_lt (by omega)]
  rw [← hcell]
  exact fill_mod (by omega) (by omega)

end LagoEcosystem.RingMemory
