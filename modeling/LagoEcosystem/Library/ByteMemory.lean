import LagoEcosystem.Library.BitFields
import Mathlib.Data.BitVec

/-!
# Byte memories

A memory of bytes behind an address of `w` bits, with little-endian words. `Shows` says that
the bytes from an address on are an array of words; storing a word of the array updates it,
and loading a part of a word finds that part.
-/

namespace LagoEcosystem.ByteMemory

open BitFields

variable {w B N : ℕ}

abbrev Memory (w : ℕ) := BitVec w → BitVec 8

/-- A word of `B` bytes replaces the bytes from `a` on. -/
def store (m : Memory w) (a : BitVec w) (d : BitVec (8 * B)) : Memory w := fun x =>
  if (x - a).toNat < B then byteAt d (x - a).toNat else m x

/-- The word of `B` bytes from `a` on. -/
def load (B : ℕ) (m : Memory w) (a : BitVec w) : BitVec (8 * B) :=
  ofBits fun k => (m (a + BitVec.ofNat w (k / 8))).getLsbD (k % 8)

/-- The byte with offset `i`. -/
def offset (base : BitVec w) (i : ℕ) : BitVec w := base + BitVec.ofNat w i

@[simp] theorem offset_zero (base : BitVec w) : offset base 0 = base := by simp [offset]

theorem offset_add (base : BitVec w) (i j : ℕ) : offset (offset base i) j = offset base (i + j) := by
  rw [offset, offset, offset, BitVec.add_assoc, BitVec.ofNat_add]

theorem toNat_offset_sub_of_le (base : BitVec w) {i j : ℕ} (hji : j ≤ i) (hi : i < 2 ^ w) :
    (offset base i - offset base j).toNat = i - j := by
  have hj : j < 2 ^ w := Nat.lt_of_le_of_lt hji hi
  have hwrap : 2 ^ w - j + i = 2 ^ w + (i - j) := by omega
  have hlt : i - j < 2 ^ w := by omega
  rw [offset, offset, add_sub_add_left_eq_sub, BitVec.toNat_sub, BitVec.toNat_ofNat,
    BitVec.toNat_ofNat, Nat.mod_eq_of_lt hi, Nat.mod_eq_of_lt hj, hwrap, Nat.add_mod_left,
    Nat.mod_eq_of_lt hlt]

/-- A byte before another one is far behind it. -/
theorem toNat_offset_sub_of_lt (base : BitVec w) {i j : ℕ} (hij : i < j) (hj : j < 2 ^ w) :
    (offset base i - offset base j).toNat = 2 ^ w - j + i := by
  have hi : i < 2 ^ w := Nat.lt_trans hij hj
  have hlt : 2 ^ w - j + i < 2 ^ w := by omega
  rw [offset, offset, add_sub_add_left_eq_sub, BitVec.toNat_sub, BitVec.toNat_ofNat,
    BitVec.toNat_ofNat, Nat.mod_eq_of_lt hi, Nat.mod_eq_of_lt hj, Nat.mod_eq_of_lt hlt]

theorem offset_toNat_sub (base x : BitVec w) : offset base (x - base).toNat = x := by
  rw [offset, BitVec.ofNat_toNat, BitVec.setWidth_eq, add_sub_cancel]

/-! ## Arrays of words -/

/-- From `base` on there are `N` words of `B` bytes, the word with index `j` being `cells j`. -/
def Shows (N : ℕ) (base : BitVec w) (m : Memory w) (cells : ℕ → BitVec (8 * B)) : Prop :=
  ∀ j < N, ∀ b < B, m (offset base (B * j + b)) = byteAt (cells j) b

/-- The words that a memory holds from `base` on. -/
def cellsAt (B : ℕ) (base : BitVec w) (m : Memory w) (j : ℕ) : BitVec (8 * B) :=
  load B m (offset base (B * j))

theorem getLsbD_load (m : Memory w) (a : BitVec w) {k : ℕ} (hk : k < 8 * B) :
    (load B m a).getLsbD k = (m (offset a (k / 8))).getLsbD (k % 8) :=
  getLsbD_ofBits _ ⟨k, hk⟩

theorem byteAt_load (m : Memory w) (a : BitVec w) {b : ℕ} (hb : b < B) :
    byteAt (load B m a) b = m (offset a b) := by
  apply BitVec.eq_of_getLsbD_eq
  intro k hk
  have hdiv : (8 * b + k) / 8 = b := by omega
  have hmod : (8 * b + k) % 8 = k := by omega
  rw [byteAt, BitVec.getLsbD_extractLsb', decide_eq_true hk, Bool.true_and,
    getLsbD_load _ _ (by omega), hdiv, hmod]

theorem shows_cellsAt (N : ℕ) (base : BitVec w) (m : Memory w) :
    Shows N base m (cellsAt B base m) := by
  intro j _ b hb
  rw [cellsAt, byteAt_load _ _ hb, offset_add]

/-- Word `i` ends before word `j` begins. -/
theorem word_end_le {i j : ℕ} (B : ℕ) (h : i < j) : B * i + B ≤ B * j := by
  simpa [Nat.mul_succ] using Nat.mul_le_mul_left B (Nat.succ_le_of_lt h)

section Words

variable {base : BitVec w} {m : Memory w} {cells : ℕ → BitVec (8 * B)} {j : ℕ}

/-- Storing word `j` updates the array at `j`. -/
theorem Shows.store (h : Shows N base m cells) (hN : B * N ≤ 2 ^ w) (hj : j < N)
    (d : BitVec (8 * B)) :
    Shows N base (store m (offset base (B * j)) d) (Function.update cells j d) := by
  intro k hk b hb
  have hjend := word_end_le B hj
  have hkend := word_end_le B hk
  rw [ByteMemory.store]
  rcases Nat.lt_trichotomy k j with hlt | rfl | hgt
  · have hstep := word_end_le B hlt
    rw [toNat_offset_sub_of_lt base (by omega) (by omega), if_neg (by omega),
      Function.update_of_ne hlt.ne]
    exact h k hk b hb
  · rw [toNat_offset_sub_of_le base (by omega) (by omega), Nat.add_sub_cancel_left, if_pos hb,
      Function.update_self]
  · have hstep := word_end_le B hgt
    rw [toNat_offset_sub_of_le base (by omega) (by omega), if_neg (by omega),
      Function.update_of_ne hgt.ne']
    exact h k hk b hb

/-- Nothing else changes. -/
theorem store_outside (hj : j < N) (d : BitVec (8 * B)) {x : BitVec w}
    (hx : B * N ≤ (x - base).toNat) : ByteMemory.store m (offset base (B * j)) d x = m x := by
  have hjend := word_end_le B hj
  have hdist := toNat_offset_sub_of_le base (i := (x - base).toNat) (j := B * j) (by omega)
    (BitVec.isLt _)
  rw [offset_toNat_sub] at hdist
  rw [ByteMemory.store, hdist, if_neg (by omega)]

/-- Loading `C` bytes of a word, the low one of them being byte `b`. -/
theorem Shows.load {b : ℕ} (h : Shows N base m cells) (hj : j < N) (C : ℕ) (hb : b + C ≤ B) :
    ByteMemory.load C m (offset base (B * j + b)) = (cells j).extractLsb' (8 * b) (8 * C) := by
  apply BitVec.eq_of_getLsbD_eq
  intro k hk
  have hmod : k % 8 < 8 := Nat.mod_lt k (by decide)
  rw [getLsbD_load _ _ hk, offset_add, Nat.add_assoc, h j hj _ (by omega), byteAt,
    BitVec.getLsbD_extractLsb', BitVec.getLsbD_extractLsb', decide_eq_true hk, decide_eq_true hmod,
    Bool.true_and, Bool.true_and]
  congr 1
  omega

end Words

end LagoEcosystem.ByteMemory
