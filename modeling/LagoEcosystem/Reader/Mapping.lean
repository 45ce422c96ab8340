import LagoEcosystem.Reader.Window

/-!
# The mapping, the buffer and the ring of v1_5

`cma_init` maps four mebibytes, `main` sets `limit` to eight and `axis_ram_writer` counts
through thirty-two. The reader stays inside the mapping exactly as long as the positions
it is given never fall and stay in the first four mebibytes.
-/

namespace LagoEcosystem.Reader

open Clocked

/-- The bytes that `cma_init` maps: `1024*sysconf(_SC_PAGESIZE)`. -/
def cmaBytes : ℕ := 1024 * 4096

/-- The byte offset at which the writer returns to its base. -/
def ringBytes (v : Version) : ℕ := 2 ^ v.addrWidth * 8

/-- The byte offsets that a call dereferences: a word of four bytes for every `i`. -/
def dereferenced (current : ℤ) (position : BitVec 22) : List ℕ :=
  (readBufferV15 current position.toNat).offsets.flatMap fun i => [i, i + 1, i + 2, i + 3]

/-- The value of `current` after a call. -/
def currentAfter (current : ℤ) (position : BitVec 22) : ℤ :=
  (readBufferV15 current position.toNat).current

/-- Every byte that the calls of a run dereference is mapped. -/
def InsideMapping (positions : List (BitVec 22)) : Prop :=
  ∀ off ∈ collect currentAfter dereferenced (-4) positions, off < cmaBytes

/-- Reader and writer wrap at the same byte offset. -/
def WrapsAgree : Prop := v15.limit = ringBytes v15

theorem not_wrapsAgree : ¬ WrapsAgree := by
  unfold WrapsAgree
  decide

/-- Words from `a` to `b` lie in the mapping if there are none or it reaches to `b`. -/
theorem bytes_inside_iff (a b : ℕ) :
    (∀ off ∈ ((List.range' a (b - a)).map (4 * ·)).flatMap fun i => [i, i + 1, i + 2, i + 3],
      off < cmaBytes) ↔ b ≤ a ∨ 4 * b ≤ cmaBytes := by
  simp only [List.mem_flatMap, List.mem_map, List.mem_range'_1, cmaBytes]
  constructor
  · intro h
    by_contra hnot
    have hlast := h (4 * (b - 1) + 3) ⟨4 * (b - 1), ⟨b - 1, by omega, rfl⟩, by simp⟩
    omega
  · rintro h off ⟨i, ⟨j, hj, rfl⟩, hoff⟩
    simp only [List.mem_cons, List.not_mem_nil, or_false] at hoff
    omega

/-- One call from a place in the first four mebibytes. -/
theorem dereferenced_inside_iff {last position : BitVec 22} (hlast : last.toNat ≤ 2 ^ 19) :
    (∀ off ∈ dereferenced (4 * (2 * last.toNat : ℕ) - 4) position, off < cmaBytes) ↔
      last.toNat ≤ position.toNat ∧ position.toNat ≤ 2 ^ 19 := by
  have hposition := position.isLt
  have hbuffer : bufferWords = 2 ^ 21 := rfl
  have hcma : cmaBytes = 2 ^ 22 := rfl
  have hnext : nextWord (2 * last.toNat) = 2 * last.toNat := if_neg (by omega)
  rw [dereferenced, readBufferV15_eq, readBufferV10_eq (by omega) (by omega) (by omega),
    bytes_inside_iff, stopWord, hnext]
  split <;> omega

theorem currentAfter_of_le {last position : BitVec 22} (hlast : last.toNat ≤ 2 ^ 19)
    (h : last.toNat ≤ position.toNat) :
    currentAfter (4 * (2 * last.toNat : ℕ) - 4) position =
      4 * (2 * position.toNat : ℕ) - 4 := by
  have hposition := position.isLt
  have hbuffer : bufferWords = 2 ^ 21 := rfl
  have hnext : nextWord (2 * last.toNat) = 2 * last.toNat := if_neg (by omega)
  rw [currentAfter, readBufferV15_eq, readBufferV10_eq (by omega) (by omega) (by omega), stopWord,
    hnext, if_pos (by omega)]

theorem collect_inside_iff {last : BitVec 22} (hlast : last.toNat ≤ 2 ^ 19)
    (positions : List (BitVec 22)) :
    (∀ off ∈ collect currentAfter dereferenced (4 * (2 * last.toNat : ℕ) - 4) positions,
      off < cmaBytes) ↔
    (last :: positions).IsChain (·.toNat ≤ ·.toNat) ∧ ∀ p ∈ positions, p.toNat ≤ 2 ^ 19 := by
  induction positions generalizing last with
  | nil => simp
  | cons position positions ih =>
    simp only [collect_cons, List.forall_mem_append, dereferenced_inside_iff hlast,
      List.isChain_cons_cons, List.forall_mem_cons]
    by_cases h : last.toNat ≤ position.toNat ∧ position.toNat ≤ 2 ^ 19
    · rw [currentAfter_of_le hlast h.1, ih h.2]
      tauto
    · tauto

/-- The reader stays inside the mapping if and only if the positions never fall and stay
within its size. -/
theorem insideMapping_iff (positions : List (BitVec 22)) :
    InsideMapping positions ↔
      positions.IsChain (·.toNat ≤ ·.toNat) ∧ ∀ p ∈ positions, p.toNat ≤ 2 ^ 19 := by
  have h := @collect_inside_iff 0 (by decide) positions
  have hchain : ((0 : BitVec 22) :: positions).IsChain (·.toNat ≤ ·.toNat) ↔
      positions.IsChain (·.toNat ≤ ·.toNat) := by
    cases positions with
    | nil => simp
    | cons p ps => simp [List.isChain_cons_cons]
  rw [← hchain]
  exact h

/-- The four sizes never agree: whatever the positions, the wraps differ, and the reader
keeps to the mapping only before the first wrap and in its first four mebibytes. -/
theorem sizes_disagree (positions : List (BitVec 22)) :
    ¬ (InsideMapping positions ∧ WrapsAgree) ∧
      (InsideMapping positions ↔
        positions.IsChain (·.toNat ≤ ·.toNat) ∧ ∀ p ∈ positions, p.toNat ≤ 2 ^ 19) :=
  ⟨fun h => not_wrapsAgree h.2, insideMapping_iff positions⟩

/-- The word behind the first four mebibytes. -/
theorem not_insideMapping : ¬ InsideMapping [524289#22] ∧ ¬ WrapsAgree := by
  refine ⟨fun h => ?_, not_wrapsAgree⟩
  rw [insideMapping_iff] at h
  exact absurd (h.2 524289#22 (by simp)) (by decide)

end LagoEcosystem.Reader
