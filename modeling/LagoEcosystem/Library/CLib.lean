import Mathlib.Data.Nat.Notation
import Mathlib.Data.List.Basic
import Mathlib.Tactic.GCongr
import Mathlib.Tactic.Ring

/-!
# Strings and numbers of the C library

A string is the list of its bytes before the terminating NUL, and a pointer into it is the
list that starts there. `int` and `long` have 32 bits.
-/

namespace LagoEcosystem.CLib

abbrev Byte := BitVec 8
abbrev CString := List Byte

/-- The code of an ASCII character. -/
def byte (c : Char) : Byte := BitVec.ofNat 8 c.toNat

/-- A string literal. -/
def text (s : String) : CString := s.toList.map byte

/-- `isdigit`. -/
def isDigit (c : Byte) : Bool := byte '0' ≤ c && c ≤ byte '9'

/-- The number a string of digits denotes. -/
def digitsValue (ds : CString) : ℕ := ds.foldl (fun n d => 10 * n + (d - byte '0').toNat) 0

/-- `isspace`. -/
def isSpace (c : Byte) : Bool := c = byte ' ' || (0x09#8 ≤ c && c ≤ 0x0D#8)

/-- An optional sign, and whether it was a minus. -/
def takeSign : CString → Bool × CString
  | c :: s =>
    if c = byte '-' then (true, s) else if c = byte '+' then (false, s) else (false, c :: s)
  | [] => (false, [])

/-- `atoi`, which is `strtol` to base 10. -/
def atoi (s : CString) : ℤ :=
  let (minus, s) := takeSign (s.dropWhile isSpace)
  let n : ℤ := digitsValue (s.takeWhile isDigit)
  max (-2 ^ 31) (min (if minus then -n else n) (2 ^ 31 - 1))

/-- The value of a hexadecimal digit. -/
def hexDigit (c : Byte) : Option ℕ :=
  if isDigit c then some (c - byte '0').toNat
  else if byte 'a' ≤ c ∧ c ≤ byte 'f' then some ((c - byte 'a').toNat + 10)
  else if byte 'A' ≤ c ∧ c ≤ byte 'F' then some ((c - byte 'A').toNat + 10)
  else none

/-- `isxdigit`. -/
def isHexDigit (c : Byte) : Bool := (hexDigit c).isSome

/-- The number that the leading hexadecimal digits denote, after `n`. -/
def hexValue (n : ℕ) : CString → ℕ
  | [] => n
  | c :: s =>
    match hexDigit c with
    | some d => hexValue (16 * n + d) s
    | none => n

/-- A prefix `0x`. -/
def dropHexPrefix : CString → CString
  | a :: b :: s => if a = byte '0' ∧ (b = byte 'x' ∨ b = byte 'X') then s else a :: b :: s
  | s => s

/-- `strtoul(s, NULL, 16)`. -/
def strtoul16 (s : CString) : BitVec 32 :=
  let (minus, s) := takeSign (s.dropWhile isSpace)
  let n := hexValue 0 (dropHexPrefix s)
  if 2 ^ 32 ≤ n then BitVec.allOnes 32
  else if minus then -BitVec.ofNat 32 n
  else BitVec.ofNat 32 n

example : strtoul16 (text " -0x1fG") = -0x1F#32 := by decide

/-! ## Digits -/

theorem takeWhile_digits {ds : CString} (h : ∀ d ∈ ds, isDigit d) {c : Byte}
    (hc : isDigit c = false) (s : CString) :
    (ds ++ c :: s).takeWhile isDigit = ds ∧ (ds ++ c :: s).dropWhile isDigit = c :: s := by
  constructor
  · rw [List.takeWhile_append_of_pos h, List.takeWhile_cons_of_neg (by simp [hc]), List.append_nil]
  · rw [List.dropWhile_append_of_pos h, List.dropWhile_cons_of_neg (by simp [hc])]

/-- A fraction is less than one. -/
theorem digitsValue_lt {ds : CString} (h : ∀ d ∈ ds, isDigit d) :
    digitsValue ds < 10 ^ ds.length := by
  have hfold : ∀ n : ℕ, ds.foldl (fun n d => 10 * n + (d - byte '0').toNat) n <
      (n + 1) * 10 ^ ds.length := by
    induction ds with
    | nil => simp
    | cons d ds ih =>
      intro n
      have hd : (d - byte '0').toNat ≤ 9 := by
        have hd' := h d (by simp)
        simp only [isDigit, Bool.and_eq_true, decide_eq_true_eq, BitVec.le_def] at hd'
        have h0 : (byte '0').toNat = 48 := rfl
        have h9 : (byte '9').toNat = 57 := rfl
        rw [BitVec.toNat_sub]
        omega
      have hrest := ih (fun e he => h e (by simp [he])) (10 * n + (d - byte '0').toNat)
      calc _ < (10 * n + (d - byte '0').toNat + 1) * 10 ^ ds.length := hrest
        _ ≤ (10 * n + 9 + 1) * 10 ^ ds.length := by gcongr
        _ = (n + 1) * 10 ^ (d :: ds).length := by rw [List.length_cons]; ring
  simpa [digitsValue] using hfold 0

theorem digit_plain : ∀ d : Byte, isDigit d → isSpace d = false ∧ d ≠ byte '-' ∧ d ≠ byte '+' := by
  decide +kernel

/-- Digits are neither skipped as white space nor taken for a sign. -/
theorem takeSign_digits {ds : CString} (hne : ds ≠ []) (h : ∀ d ∈ ds, isDigit d) (s : CString) :
    takeSign ((ds ++ s).dropWhile isSpace) = (false, ds ++ s) := by
  obtain ⟨d, ds, rfl⟩ := List.exists_cons_of_ne_nil hne
  obtain ⟨hspace, hminus, hplus⟩ := digit_plain d (h d (by simp))
  simp [hspace, takeSign, hminus, hplus]

/-- A number that starts with a digit has no hexadecimal prefix. -/
theorem dropHexPrefix_digits {ds : CString} (hne : ds ≠ []) (h : ∀ d ∈ ds, isDigit d) {c : Byte}
    (hc : c ≠ byte 'x' ∧ c ≠ byte 'X') (s : CString) :
    dropHexPrefix (ds ++ c :: s) = ds ++ c :: s := by
  have hplain : ∀ d, isDigit d → d ≠ byte 'x' ∧ d ≠ byte 'X' := by decide +kernel
  obtain ⟨a, ds, rfl⟩ := List.exists_cons_of_ne_nil hne
  cases ds with
  | nil => simp [dropHexPrefix, hc]
  | cons b ds => simp [dropHexPrefix, hplain b (h b (by simp))]

end LagoEcosystem.CLib
