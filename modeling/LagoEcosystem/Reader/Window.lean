import LagoEcosystem.Library.Clocked
import LagoEcosystem.Library.RingMemory
import Mathlib.Tactic.Ring

/-!
# Where `read_buffer` reads

`read_buffer` keeps its place in the global `current` and gets the position of the writer.
The versions v1_0, v1_2, v1_3 and v1_5 choose the words to process by the same comparisons with
different constants. `limit` and the first value of `current` are set by `main`.
-/

namespace LagoEcosystem.Reader

/-- The constants of a version: the value of `limit`, how far `current` stays behind the
next word, the factor of `pos`, the increment of the loop, the bytes that an increment of
`i` stands for, and `ADDR_WIDTH` of the writer. -/
structure Version where
  limit : ℕ
  back : ℕ
  scale : ℕ
  stride : ℕ
  unit : ℕ
  addrWidth : ℕ

def v10 : Version := ⟨1024 * 1024 * 8, 4, 8, 4, 1, 20⟩

/-- Here `cma_ptr` points to `int16_t` and is indexed with `2*i`. -/
def v13 : Version := ⟨1024 * 1024, 2, 1, 1, 4, 20⟩

def v12 : Version := ⟨1024 * 1024 * 8, 4, 8, 4, 1, 22⟩

def v15 : Version := ⟨1024 * 1024 * 8, 4, 8, 4, 1, 22⟩

/-- What a call dereferences, and the new value of `current`. -/
structure Window where
  offsets : List ℕ
  current : ℤ

/-- The conversion of an `int` to `uint32_t`. -/
def toUInt32 (x : ℤ) : ℕ := (BitVec.ofInt 32 x).toNat

/-- The values of `i` in `for(i = a; i < b; i += s)`. -/
def forRange (a b s : ℕ) : List ℕ := List.range' a ((b - a + s - 1) / s) s

/-- The loop over the words. Its last `i` becomes `current`. -/
def drain (stride : ℕ) (current : ℤ) (readinit readend : ℕ) : Window :=
  let offsets := forRange readinit readend stride
  ⟨offsets, (offsets.getLast?.map Int.ofNat).getD current⟩

/-- `if (current==limit-4) current=-4;` -/
def Version.home (v : Version) (current : ℤ) : ℤ :=
  if current = v.limit - v.back then -v.back else current

/-- The part of `read_buffer` that chooses the words. -/
def readWindow (v : Version) (current : ℤ) (pos : ℕ) : Window :=
  let pos : ℤ := pos * v.scale
  let current := v.home current
  let (readinit, readend) : ℤ × ℤ :=
    if current < pos + v.back then (current + v.back, pos)
    else if current > pos then (current + v.back, v.limit)
    else (0, v.limit)
  if current ≠ pos then drain v.stride current (toUInt32 readinit) (toUInt32 readend)
  else ⟨[], current⟩

def readBufferV10 : ℤ → ℕ → Window := readWindow v10
def readBufferV13 : ℤ → ℕ → Window := readWindow v13
def readBufferV15 : ℤ → ℕ → Window := readWindow v15

/-! ## The loop -/

section ForRange

variable {a b s : ℕ}

/-- A loop between two multiples of its increment. -/
theorem forRange_mul (hs : 0 < s) :
    forRange (s * a) (s * b) s = (List.range' a (b - a)).map (s * ·) := by
  have hcount : (s * b - s * a + s - 1) / s = b - a := by
    rw [← Nat.mul_sub, Nat.add_sub_assoc hs, Nat.mul_add_div hs, Nat.div_eq_of_lt (by omega),
      Nat.add_zero]
  rw [forRange, hcount]
  apply List.ext_getElem (by simp)
  intro i _ _
  simp [Nat.mul_add]

/-- The loop leaves `current` at the last word it processed. -/
theorem drain_mul (hs : 0 < s) {current : ℤ} :
    drain s current (s * a) (s * b) =
      ⟨(List.range' a (b - a)).map (s * ·), if a < b then s * (b : ℤ) - s else current⟩ := by
  rw [drain, forRange_mul hs]
  by_cases hab : a < b
  · obtain ⟨k, rfl⟩ := Nat.exists_eq_add_of_lt hab
    rw [show a + k + 1 - a = k + 1 by omega, List.range'_concat]
    simp only [List.map_append, List.map_cons, List.map_nil, List.getLast?_concat, Option.map_some,
      Option.getD_some, if_pos hab, Int.ofNat_eq_natCast]
    congr 1
    push_cast
    ring
  · have hempty : b - a = 0 := by omega
    simp [hempty, hab]

end ForRange

/-! ## One call -/

section Cases

theorem toUInt32_natCast {x : ℕ} (h : x < 2 ^ 32) : toUInt32 x = x := by
  rw [toUInt32, BitVec.toNat_ofInt]
  omega

variable (v : Version) (current : ℤ) (start pos : ℕ)

/-- With the writer ahead, the words up to its position are read. -/
theorem readWindow_ahead (hstart : (start : ℤ) = v.home current + v.back)
    (hstart32 : start < 2 ^ 32) (hpos32 : pos * v.scale < 2 ^ 32)
    (hne : v.home current ≠ pos * v.scale) (h : v.home current < pos * v.scale + v.back) :
    readWindow v current pos = drain v.stride (v.home current) start (pos * v.scale) := by
  have hend : toUInt32 ((pos : ℤ) * v.scale) = pos * v.scale := by
    exact_mod_cast toUInt32_natCast hpos32
  simp only [readWindow, if_pos h, if_pos hne, ← hstart, toUInt32_natCast hstart32, hend]

/-- With the writer behind, the words up to the end of the buffer are read. -/
theorem readWindow_behind (hstart : (start : ℤ) = v.home current + v.back)
    (hstart32 : start < 2 ^ 32) (hlimit32 : v.limit < 2 ^ 32)
    (h : pos * v.scale + v.back ≤ v.home current) (hback : 0 < v.back) :
    readWindow v current pos = drain v.stride (v.home current) start v.limit := by
  have hback' : (0 : ℤ) < v.back := by exact_mod_cast hback
  have hne : v.home current ≠ pos * v.scale := by omega
  have hgt : v.home current > pos * v.scale := by omega
  simp only [readWindow, if_neg (not_lt.mpr h), if_pos hgt, if_pos hne, ← hstart,
    toUInt32_natCast hstart32, toUInt32_natCast hlimit32]

end Cases

/-! ## The reader of eight mebibytes -/

/-- The words of four bytes in the buffer of v1_0 and v1_5. -/
def bufferWords : ℕ := 2 ^ 21

/-- The next word, when `m` words of the buffer are behind the reader. -/
def nextWord (m : ℕ) : ℕ := if m = bufferWords then 0 else m

/-- The word a call stops at: that of the writer, or the end of the buffer when the writer
is behind. -/
def stopWord (m pos : ℕ) : ℕ := if nextWord m ≤ 2 * pos then 2 * pos else bufferWords

theorem nextWord_lt {m : ℕ} (hm : m ≤ bufferWords) : nextWord m < bufferWords := by
  have : 0 < bufferWords := by decide
  unfold nextWord
  split <;> omega

theorem nextWord_even {m : ℕ} (hm : m % 2 = 0) : nextWord m % 2 = 0 := by
  unfold nextWord
  split <;> omega

theorem stopWord_even (m pos : ℕ) : stopWord m pos % 2 = 0 := by
  have : bufferWords % 2 = 0 := rfl
  unfold stopWord
  split <;> omega

theorem home_v10 (m : ℕ) : v10.home (4 * m - 4) = 4 * (nextWord m : ℤ) - 4 := by
  by_cases hm : m = bufferWords
  · subst hm
    rfl
  · have hne : (4 * m - 4 : ℤ) ≠ v10.limit - v10.back := by
      simp only [v10, bufferWords] at hm ⊢
      omega
    rw [Version.home, if_neg hne, nextWord, if_neg hm]

/-- The reader only ever stops at a word of the writer, which has eight bytes. From such a
place it reads on to the next one. -/
theorem readBufferV10_eq {m pos : ℕ} (hm : m ≤ bufferWords) (heven : m % 2 = 0)
    (hpos : pos < 2 ^ 28) :
    readBufferV10 (4 * m - 4) pos =
      ⟨(List.range' (nextWord m) (stopWord m pos - nextWord m)).map (4 * ·),
        4 * stopWord m pos - 4⟩ := by
  have hnext := nextWord_lt hm
  have hnext2 := nextWord_even heven
  have hhome := home_v10 m
  have hback : v10.back = 4 := rfl
  have hscale : pos * v10.scale = 4 * (2 * pos) := by simp only [v10]; ring
  have hlimit : v10.limit = 4 * bufferWords := rfl
  have hbuffer : bufferWords = 2 ^ 21 := rfl
  have hinit : ((4 * nextWord m : ℕ) : ℤ) = v10.home (4 * m - 4) + v10.back := by omega
  by_cases hahead : nextWord m ≤ 2 * pos
  · have hwindow := readWindow_ahead v10 _ (4 * nextWord m) pos hinit (by omega) (by omega)
      (by omega) (by omega)
    rw [readBufferV10, hwindow, stopWord, if_pos hahead, hhome, hscale,
      show v10.stride = 4 from rfl, drain_mul (by decide)]
    congr 1
    by_cases hempty : nextWord m < 2 * pos
    · simp [hempty]
    · simp only [hempty, if_false]
      omega
  · have hwindow := readWindow_behind v10 _ (4 * nextWord m) pos hinit (by omega) (by omega)
      (by omega) (by omega)
    rw [readBufferV10, hwindow, stopWord, if_neg hahead, hhome, hlimit,
      show v10.stride = 4 from rfl, drain_mul (by decide), if_pos hnext]
    rfl

theorem readBufferV15_eq : readBufferV15 = readBufferV10 := rfl

end LagoEcosystem.Reader
