import Mathlib.Order.Fin.Basic
import Mathlib.Data.Nat.Notation

/-!
# Shift registers

A register of `n` places that moves one place down in every cycle and takes a new element
at the top. `Shifted` follows the elements that were in it at one moment. A count that is
shifted along with its own increments (`Counts`) tells of every element where it came from.
-/

namespace LagoEcosystem.ShiftRegister

variable {α : Type*} {n c : ℕ}

/-- Every place takes the element of the place above it, the last one takes `x`. -/
def shift (x : α) (reg : Fin n → α) (k : Fin n) : α :=
  if h : k.val + 1 < n then reg ⟨k.val + 1, h⟩ else x

theorem shift_of_lt (x : α) (reg : Fin n → α) {k : Fin n} (h : k.val + 1 < n) :
    shift x reg k = reg ⟨k.val + 1, h⟩ := dif_pos h

theorem shift_of_last (x : α) (reg : Fin n → α) {k : Fin n} (h : k.val + 1 = n) :
    shift x reg k = x := dif_neg (by omega)

@[simp] theorem shift_castSucc (x : α) (reg : Fin (n + 1) → α) (k : Fin n) :
    shift x reg k.castSucc = reg k.succ := shift_of_lt x reg (by simp)

@[simp] theorem shift_last (x : α) (reg : Fin (n + 1) → α) : shift x reg (Fin.last n) = x :=
  shift_of_last x reg rfl

theorem succ_eq_last {k : Fin n} (hk : ¬k.val + 1 < n) : k.succ = Fin.last n := by
  apply Fin.ext
  rw [Fin.val_succ, Fin.val_last]
  omega

/-- Without its last place, a register takes what stood there. -/
theorem succ_eq_shift (reg : Fin (n + 1) → α) (k : Fin n) :
    reg k.succ = shift (reg (Fin.last n)) (fun j => reg j.castSucc) k := by
  by_cases hk : k.val + 1 < n
  · rw [shift_of_lt _ _ hk]
    rfl
  · rw [shift_of_last _ _ (by omega), succ_eq_last hk]

/-- What holds of the elements and of the new one holds after the shift. -/
theorem shift_forall {P : α → Prop} {x : α} {reg : Fin n → α} (hreg : ∀ k, P (reg k)) (hx : P x)
    (k : Fin n) : P (shift x reg k) := by
  unfold shift
  split
  · exact hreg _
  · exact hx

/-! ## Elements on their way down -/

/-- The elements of `old` stand `c` places lower, as far as they have not left. -/
def Shifted (c : ℕ) (old reg : Fin n → α) : Prop :=
  ∀ (k : Fin n) (h : k.val + c < n), reg k = old ⟨k.val + c, h⟩

theorem Shifted.shift {old reg : Fin n → α} (h : Shifted c old reg) (x : α) :
    Shifted (c + 1) old (shift x reg) := by
  intro k hk
  have hlt : k.val + 1 < n := by omega
  rw [shift_of_lt x reg hlt, h ⟨k.val + 1, hlt⟩ (by simp only; omega)]
  congr 1
  simp only [Fin.mk.injEq]
  omega

/-- The element that leaves next. -/
theorem Shifted.head {old reg : Fin n → α} (h : Shifted c old reg) (hc : c < n) :
    reg ⟨0, Nat.zero_lt_of_lt hc⟩ = old ⟨c, hc⟩ := by
  rw [h ⟨0, Nat.zero_lt_of_lt hc⟩ (by simpa using hc)]
  simp

/-! ## Counts and their increments -/

/-- The count at a place is that of the place below it, increased where `inc` says so. -/
def Counts (count : Fin (n + 1) → ℕ) (inc : Fin n → Bool) : Prop :=
  ∀ k : Fin n, count k.succ = count k.castSucc + (inc k).toNat

variable {count : Fin (n + 1) → ℕ} {inc : Fin n → Bool}

theorem counts_const (m : ℕ) : Counts (fun _ : Fin (n + 1) => m) fun _ => false := fun _ => rfl

theorem Counts.shift (h : Counts count inc) (b : Bool) :
    Counts (shift (count (Fin.last n) + b.toNat) count) (shift b inc) := by
  intro k
  rw [shift_castSucc]
  by_cases hk : k.val + 1 < n
  · rw [shift_of_lt _ _ (k := k.succ) (by simpa using hk), shift_of_lt _ _ hk]
    exact h ⟨k.val + 1, hk⟩
  · rw [succ_eq_last hk, shift_last, shift_of_last _ _ (by omega)]

theorem Counts.mono (h : Counts count inc) : Monotone count :=
  Fin.monotone_iff_le_succ.mpr fun k => by rw [h k]; exact Nat.le_add_right _ _

/-- The counts above the lowest one are consecutive exactly when each of them, from the
second on, was increased. -/
theorem Counts.consecutive_iff (h : Counts count inc) (p : ℕ) :
    (∀ k : Fin n, count k.succ = p + k.val) ↔
      (∀ k : Fin n, 1 ≤ k.val → inc k = true) ∧ ∀ hn : 0 < n, count (Fin.succ ⟨0, hn⟩) = p := by
  constructor
  · intro heq
    refine ⟨fun k hk => ?_, fun hn => heq ⟨0, hn⟩⟩
    have hbelow := heq ⟨k.val - 1, by omega⟩
    have hcast : Fin.succ (⟨k.val - 1, by omega⟩ : Fin n) = k.castSucc := by
      apply Fin.ext
      simp
      omega
    rw [hcast] at hbelow
    have hstep := h k
    rw [heq k, hbelow] at hstep
    cases hinc : inc k
    · simp [hinc] at hstep
      omega
    · rfl
  · rintro ⟨hinc, hfirst⟩ k
    obtain ⟨k, hk⟩ := k
    induction k with
    | zero => exact hfirst hk
    | succ k ih =>
      have hcast : (⟨k + 1, hk⟩ : Fin n).castSucc = Fin.succ ⟨k, by omega⟩ := rfl
      rw [h ⟨k + 1, hk⟩, hcast, ih (by omega), hinc ⟨k + 1, hk⟩ (by simp)]
      simp only [Bool.toNat_true]
      omega

end LagoEcosystem.ShiftRegister
