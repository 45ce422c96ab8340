import LagoEcosystem.Library.CLib

/-!
# Searches in C strings

`strchr` and `strstr` return a pointer into the string or a null pointer, here the string
that starts there or `none`. `strtol` reads a hexadecimal number.
-/

namespace LagoEcosystem.CLib

/-- `strchr`, for a byte that is not the terminating NUL. -/
def strchr : CString → Byte → Option CString
  | [], _ => none
  | x :: s, c => if x = c then some (x :: s) else strchr s c

/-- `strstr`. -/
def strstr : CString → CString → Option CString
  | [], pat => if pat <+: [] then some [] else none
  | x :: s, pat => if pat <+: x :: s then some (x :: s) else strstr s pat

/-- `strtol(s, NULL, 16)`. -/
def strtol16 (s : CString) : ℤ :=
  let (minus, s) := takeSign (s.dropWhile isSpace)
  let n : ℤ := hexValue 0 (dropHexPrefix s)
  max (-2 ^ 31) (min (if minus then -n else n) (2 ^ 31 - 1))

example : strtol16 (text "4a*") = 0x4A := by decide

theorem strchr_eq_dropWhile {s : CString} {c : Byte} (h : c ∈ s) :
    strchr s c = some (s.dropWhile (· ≠ c)) := by
  induction s with
  | nil => simp at h
  | cons x s ih =>
    by_cases hx : x = c
    · simp [strchr, hx]
    · have hs : c ∈ s := by simpa [Ne.symm hx] using h
      simp [strchr, hx, ih hs]

/-- A text is found exactly in the strings that contain it. -/
theorem strstr_ne_none_iff (s pat : CString) : strstr s pat ≠ none ↔ pat <:+: s := by
  induction s with
  | nil => simp [strstr]
  | cons x s ih =>
    rw [List.infix_cons_iff, ← ih, strstr]
    by_cases h : pat <+: x :: s <;> simp [h]

/-! ## Two hexadecimal digits -/

/-- A hexadecimal digit is neither skipped as white space, nor a sign, nor the letter of a
prefix. -/
theorem hexDigit_plain : ∀ d : Byte, ∀ n ∈ hexDigit d, n < 16 ∧ isSpace d = false ∧
    d ≠ byte '-' ∧ d ≠ byte '+' ∧ d ≠ byte 'x' ∧ d ≠ byte 'X' := by
  decide +kernel

/-- Two digits, and then no third. -/
theorem strtol16_pair {a b : Byte} {m n : ℕ} (ha : hexDigit a = some m) (hb : hexDigit b = some n)
    {s : CString} (hs : hexValue (16 * m + n) s = 16 * m + n) :
    strtol16 (a :: b :: s) = 16 * m + n := by
  obtain ⟨hm, hspace, hminus, hplus, -, -⟩ := hexDigit_plain a m ha
  obtain ⟨hn, -, -, -, hx, hX⟩ := hexDigit_plain b n hb
  have hvalue : hexValue 0 (a :: b :: s) = 16 * m + n := by
    simpa [hexValue, ha, hb] using hs
  have hdrop : dropHexPrefix (a :: b :: s) = a :: b :: s := by simp [dropHexPrefix, hx, hX]
  have hsign : takeSign ((a :: b :: s).dropWhile isSpace) = (false, a :: b :: s) := by
    simp [hspace, takeSign, hminus, hplus]
  simp only [strtol16, hsign, hdrop, hvalue]
  push_cast
  omega

end LagoEcosystem.CLib
