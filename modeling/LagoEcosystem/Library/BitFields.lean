import Mathlib.Data.Nat.Bits
import Mathlib.Logic.Function.Basic
import Mathlib.Tactic.Ring

/-!
# Bit fields

Words that are packed by concatenation on one side and taken apart by shifts and masks
on the other. Both sides are read as numbers: concatenation is `hi * 2 ^ n + lo`, a shift
is a quotient and a mask of low ones is a remainder.
-/

namespace LagoEcosystem.BitFields

variable {m n w : ℕ}

theorem toNat_append (x : BitVec m) (y : BitVec n) :
    (x ++ y).toNat = x.toNat * 2 ^ n + y.toNat := by
  rw [BitVec.toNat_append, ← Nat.shiftLeft_add_eq_or_of_lt y.isLt, Nat.shiftLeft_eq]

theorem toNat_ushiftRight (x : BitVec w) (k : ℕ) : (x >>> k).toNat = x.toNat / 2 ^ k := by
  rw [BitVec.toNat_ushiftRight, Nat.shiftRight_eq_div_pow]

/-- A mask of `k` ones keeps the low `k` bits. -/
theorem toNat_and_mask (x : BitVec w) {k : ℕ} {mask : BitVec w} (h : mask.toNat = 2 ^ k - 1) :
    (x &&& mask).toNat = x.toNat % 2 ^ k := by
  rw [BitVec.toNat_and, h, Nat.and_two_pow_sub_one_eq_mod]

/-! ## Counting -/

theorem toNat_one (h : 1 < 2 ^ w) : (1 : BitVec w).toNat = 1 := Nat.mod_eq_of_lt h

/-- A counter that does not overflow. -/
theorem toNat_add_one {x : BitVec w} (h : x.toNat + 1 < 2 ^ w) : (x + 1).toNat = x.toNat + 1 := by
  have hone : 1 < 2 ^ w := Nat.lt_of_le_of_lt (Nat.le_add_left 1 _) h
  rw [BitVec.toNat_add, toNat_one hone, Nat.mod_eq_of_lt h]

/-- One less than a word that is not zero. -/
theorem toNat_sub_one {x : BitVec w} (h : 1 ≤ x.toNat) : (x - 1).toNat = x.toNat - 1 := by
  have hone : (1 : BitVec w).toNat = 1 := toNat_one (Nat.lt_of_le_of_lt h x.isLt)
  have hle : (1 : BitVec w) ≤ x := by
    rw [BitVec.le_def, hone]
    exact h
  rw [BitVec.toNat_sub_of_le hle, hone]

/-- The comparison of a counter with the last one of `x` values. -/
theorem eq_sub_one_iff {x y : BitVec w} (h : 1 ≤ x.toNat) : y = x - 1 ↔ y.toNat + 1 = x.toNat := by
  rw [← BitVec.toNat_inj, toNat_sub_one h]
  omega

theorem nontrivial_of_pos (h : 0 < w) : Nontrivial (BitVec w) := by
  refine ⟨0, 1, fun heq => ?_⟩
  have hone : (1 : BitVec w).toNat = 1 := toNat_one (Nat.one_lt_two_pow h.ne')
  have hzero : (0 : BitVec w).toNat = 0 := BitVec.toNat_zero
  rw [← heq] at hone
  omega

/-- Cells that hold the same in every memory are one cell. -/
theorem eq_of_forall_mem_eq {α : Type*} (β : Type*) [Nontrivial β] {a b : α}
    (h : ∀ mem : α → β, mem a = mem b) : a = b := by
  classical
  obtain ⟨y, z, hyz⟩ := exists_pair_ne β
  by_contra hne
  have hself : Function.update (fun _ => z) a y a = y := Function.update_self _ _ _
  have hother : Function.update (fun _ => z) a y b = z := Function.update_of_ne (Ne.symm hne) _ _
  exact hyz (hself.symm.trans ((h _).trans hother))

theorem prefix_of_forall_map {α : Type*} (β : Type*) [Nontrivial β] {xs ys : List α}
    (h : ∀ mem : α → β, xs.map mem <+: ys.map mem) : xs <+: ys := by
  obtain ⟨y, -, -⟩ := exists_pair_ne β
  have hle : xs.length ≤ ys.length := by simpa using (h fun _ => y).length_le
  rw [List.prefix_iff_eq_take]
  refine List.ext_getElem (by simp [hle]) fun j hj _ => ?_
  rw [List.getElem_take]
  refine eq_of_forall_mem_eq β fun mem => ?_
  have hget := (h mem).getElem (i := j) (by simpa using hj)
  simpa using hget

/-- Clearing the cell under a counter. The other cells are clear when they have another
number. -/
theorem update_clears {α : Type*} {mem : BitVec w → α} {z : α} {x a : BitVec w}
    (h : a.toNat ≠ x.toNat → mem a = z) : Function.update mem x z a = z := by
  by_cases heq : a = x
  · rw [heq, Function.update_self]
  · rw [Function.update_of_ne heq]
    exact h fun hval => heq (BitVec.eq_of_toNat_eq hval)

/-- One step of a counter is always visible. -/
theorem toNat_add_one_ne {x : BitVec w} (hw : 1 < 2 ^ w) : (x + 1).toNat ≠ x.toNat := by
  have hlt := x.isLt
  rw [BitVec.toNat_add, toNat_one hw]
  by_cases h : x.toNat + 1 < 2 ^ w
  · rw [Nat.mod_eq_of_lt h]
    omega
  · have hmax : x.toNat + 1 = 2 ^ w := by omega
    rw [hmax, Nat.mod_self]
    omega

/-! ## Words made of bits -/

/-- The word whose bit `k` is `f k`. -/
def ofBits (f : Fin w → Bool) : BitVec w :=
  (BitVec.ofBoolListLE (List.ofFn f)).cast List.length_ofFn

@[simp] theorem getLsbD_ofBits (f : Fin w → Bool) (k : Fin w) : (ofBits f).getLsbD k = f k := by
  rw [ofBits, BitVec.getLsbD_cast, BitVec.getLsbD_ofBoolListLE, List.getD_eq_getElem?_getD]
  simp

/-- Byte `b` of a word, from the least significant one. -/
def byteAt (x : BitVec w) (b : ℕ) : BitVec 8 := x.extractLsb' (8 * b) 8

theorem byteAt_eq_iff {x y : BitVec w} {b : ℕ} :
    byteAt x b = byteAt y b ↔ ∀ k < 8, x.getLsbD (8 * b + k) = y.getLsbD (8 * b + k) := by
  constructor
  · intro h k hk
    have hbit := congrArg (fun z => z.getLsbD k) h
    simpa [byteAt, hk] using hbit
  · intro h
    apply BitVec.eq_of_getLsbD_eq
    intro k hk
    simpa [byteAt, hk] using h k hk

/-- An `or` writes `y` over `x` if and only if `x` has no bit that `y` lacks. -/
theorem or_eq_right_iff {x y : BitVec w} :
    x ||| y = y ↔ ∀ k, x.getLsbD k = true → y.getLsbD k = true := by
  constructor
  · intro h k hk
    rw [← h, BitVec.getLsbD_or, hk, Bool.true_or]
  · intro h
    apply BitVec.eq_of_getLsbD_eq
    intro k _
    rw [BitVec.getLsbD_or]
    cases hx : x.getLsbD k with
    | false => rw [Bool.false_or]
    | true => rw [h k hx, Bool.or_true]

/-! ## Checksums -/

/-- The exclusive or of a list of words. -/
def xorSum (xs : List (BitVec w)) : BitVec w := xs.foldl (· ^^^ ·) 0#w

theorem foldl_xor (a : BitVec w) (xs : List (BitVec w)) :
    xs.foldl (· ^^^ ·) a = a ^^^ xorSum xs := by
  induction xs generalizing a with
  | nil => simp [xorSum]
  | cons x xs ih =>
    have hx : xorSum (x :: xs) = x ^^^ xorSum xs := by
      rw [xorSum, List.foldl_cons, ih, BitVec.zero_xor]
    rw [List.foldl_cons, ih, hx, BitVec.xor_assoc]

theorem xorSum_cons (x : BitVec w) (xs : List (BitVec w)) :
    xorSum (x :: xs) = x ^^^ xorSum xs := by
  rw [xorSum, List.foldl_cons, foldl_xor, BitVec.zero_xor]

/-- Another word in one place changes the checksum by the difference of the two words. -/
theorem xorSum_set (xs : List (BitVec w)) {k : ℕ} (hk : k < xs.length) (y : BitVec w) :
    xorSum (xs.set k y) = xorSum xs ^^^ (xs[k] ^^^ y) := by
  induction xs generalizing k with
  | nil => simp at hk
  | cons x xs ih =>
    cases k with
    | zero =>
      have hcancel : x ^^^ xorSum xs ^^^ (x ^^^ y) = y ^^^ xorSum xs := by
        rw [BitVec.xor_comm x (xorSum xs), BitVec.xor_assoc, ← BitVec.xor_assoc x x y,
          BitVec.xor_self, BitVec.zero_xor, BitVec.xor_comm]
      simpa [xorSum_cons] using hcancel.symm
    | succ k =>
      have hk' : k < xs.length := by simpa using hk
      simp [xorSum_cons, ih hk', BitVec.xor_assoc]

/-- So no single change goes unnoticed. -/
theorem xorSum_set_ne (xs : List (BitVec w)) {k : ℕ} (hk : k < xs.length) {y : BitVec w}
    (hy : y ≠ xs[k]) : xorSum (xs.set k y) ≠ xorSum xs := by
  rw [xorSum_set xs hk]
  intro heq
  have hdiff : xorSum xs ^^^ (xorSum xs ^^^ (xs[k] ^^^ y)) = xs[k] ^^^ y := by
    rw [← BitVec.xor_assoc, BitVec.xor_self, BitVec.zero_xor]
  rw [heq, BitVec.xor_self] at hdiff
  exact hy (BitVec.xor_eq_zero_iff.mp hdiff.symm).symm

end LagoEcosystem.BitFields
