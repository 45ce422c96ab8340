import LagoEcosystem.Library.CLib
import LagoEcosystem.Library.FloatingPoint

/-!
# NMEA lines

`rp_NmeaParseGpgga` on C strings, over any conversions that stop at a comma.
`strchr(p, ',')+1` is undefined when there is no comma left, so the parser is partial.
-/

namespace LagoEcosystem.Gps

open CLib FloatingPoint

/-- `strchr(p, ',')+1`. -/
def afterComma : CString → Option CString
  | [] => none
  | c :: s => if c = byte ',' then some s else afterComma s

/-- What the parsers use of `atof` and `atoi`: they read no further than the next comma. -/
structure Conversions where
  atof : CString → ℚ
  atoi : CString → ℤ
  atof_field : ∀ s t, byte ',' ∉ s → atof (s ++ byte ',' :: t) = atof s
  atoi_field : ∀ s t, byte ',' ∉ s → atoi (s ++ byte ',' :: t) = atoi s

/-- `gpgga_t`. -/
structure Gpgga where
  times : ℚ
  latitude : ℚ
  lat : Byte
  longitude : ℚ
  lon : Byte
  quality : BitVec 8
  satellites : BitVec 8
  altitude : ℚ

/-- The `switch (ptr[0])` on a hemisphere letter: any other byte, the terminating NUL
included, leaves the member as it was. -/
def hemisphere (pos neg : Char) (old : Byte) : CString → Byte
  | c :: _ =>
    if c = byte pos then byte pos
    else if c = byte neg then byte neg
    else if c = byte ',' then 0
    else old
  | [] => old

/-- `rp_NmeaParseGpgga`. -/
def Conversions.rpNmeaParseGpgga (conv : Conversions) (nmea : CString) (loc : Gpgga) : Option Gpgga := do
  let ptr ← afterComma nmea
  let times := conv.atof ptr
  let ptr ← afterComma ptr
  let latitude := conv.atof ptr
  let ptr ← afterComma ptr
  let lat := hemisphere 'N' 'S' loc.lat ptr
  let ptr ← afterComma ptr
  let longitude := conv.atof ptr
  let ptr ← afterComma ptr
  let lon := hemisphere 'W' 'E' loc.lon ptr
  let ptr ← afterComma ptr
  let quality := BitVec.ofInt 8 (conv.atoi ptr)
  let ptr ← afterComma ptr
  let satellites := BitVec.ofInt 8 (conv.atoi ptr)
  let ptr ← afterComma ptr
  let ptr ← afterComma ptr
  let altitude := conv.atof ptr
  return ⟨times, latitude, lat, longitude, lon, quality, satellites, altitude⟩

/-! ## Fields -/

theorem afterComma_append {s : CString} (h : byte ',' ∉ s) (t : CString) :
    afterComma (s ++ byte ',' :: t) = some t := by
  induction s with
  | nil => simp [afterComma]
  | cons c s ih =>
    simp only [List.mem_cons, not_or] at h
    simp [afterComma, Ne.symm h.1, ih h.2]

/-- There is a field to skip to as long as there is a comma. -/
theorem exists_afterComma {s : CString} (h : 0 < s.count (byte ',')) :
    ∃ t, afterComma s = some t ∧ t.count (byte ',') = s.count (byte ',') - 1 := by
  induction s with
  | nil => simp at h
  | cons c s ih =>
    by_cases hc : c = byte ','
    · exact ⟨s, by simp [afterComma, hc], by simp [hc]⟩
    · obtain ⟨t, ht, hcount⟩ := ih (by simpa [hc] using h)
      exact ⟨t, by simpa [afterComma, hc] using ht, by simpa [hc] using hcount⟩

/-- A line with a time field and seven commas behind the next one is parsed. -/
theorem exists_parseGpgga (conv : Conversions) {nmea field rest : CString}
    (hfield : afterComma nmea = some field) (hrest : afterComma field = some rest)
    (hcount : 7 ≤ rest.count (byte ',')) (loc : Gpgga) :
    ∃ gpgga, conv.rpNmeaParseGpgga nmea loc = some gpgga ∧ gpgga.times = conv.atof field := by
  obtain ⟨t1, h1, c1⟩ := exists_afterComma (s := rest) (by omega)
  obtain ⟨t2, h2, c2⟩ := exists_afterComma (s := t1) (by omega)
  obtain ⟨t3, h3, c3⟩ := exists_afterComma (s := t2) (by omega)
  obtain ⟨t4, h4, c4⟩ := exists_afterComma (s := t3) (by omega)
  obtain ⟨t5, h5, c5⟩ := exists_afterComma (s := t4) (by omega)
  obtain ⟨t6, h6, c6⟩ := exists_afterComma (s := t5) (by omega)
  obtain ⟨t7, h7, -⟩ := exists_afterComma (s := t6) (by omega)
  have hparse : conv.rpNmeaParseGpgga nmea loc =
      some ⟨conv.atof field, conv.atof rest, hemisphere 'N' 'S' loc.lat t1, conv.atof t2,
        hemisphere 'W' 'E' loc.lon t3, BitVec.ofInt 8 (conv.atoi t4),
        BitVec.ofInt 8 (conv.atoi t5), conv.atof t7⟩ := by
    simp only [Conversions.rpNmeaParseGpgga, hfield, hrest, h1, h2, h3, h4, h5, h6, h7, Option.bind_eq_bind,
      Option.bind_some]
    rfl
  exact ⟨_, hparse, rfl⟩

/-! ## Numbers -/

/-- The fraction behind a point, if there is one. -/
def takeFraction (isDigit : Byte → Bool) : CString → CString × CString
  | c :: s => if c = byte '.' then (s.takeWhile isDigit, s.dropWhile isDigit) else ([], c :: s)
  | [] => ([], [])

/-- The exponent behind a letter, if there is one. -/
def takeExponent (lower upper : Char) : CString → ℤ
  | c :: s =>
    if c = byte lower ∨ c = byte upper then
      let (minus, ds) := takeSign s
      let n : ℤ := digitsValue (ds.takeWhile isDigit)
      if minus then -n else n
    else 0
  | [] => 0

/-- The number of a decimal form. -/
def decimal (s : CString) : ℚ :=
  let whole := s.takeWhile isDigit
  let (fraction, s) := takeFraction isDigit (s.dropWhile isDigit)
  let mantissa : ℚ := digitsValue whole + digitsValue fraction / 10 ^ fraction.length
  mantissa * 10 ^ takeExponent 'e' 'E' s

/-- The number of a hexadecimal form. -/
def hexadecimal (s : CString) : ℚ :=
  let whole := s.takeWhile isHexDigit
  let (fraction, s) := takeFraction isHexDigit (s.dropWhile isHexDigit)
  let mantissa : ℚ := hexValue 0 whole + hexValue 0 fraction / 16 ^ fraction.length
  mantissa * 2 ^ takeExponent 'p' 'P' s

/-- `atof`, the nearest `double`. `inf` and `nan` are read as zero, and a number too large
for a `double` does not become infinite. -/
def atof (s : CString) : ℚ :=
  let (minus, s) := takeSign (s.dropWhile isSpace)
  let digits := dropHexPrefix s
  let value := binary64.round (if digits = s then decimal s else hexadecimal digits)
  if minus then -value else value

section Stop

variable {p : Byte → Bool} {c : Byte}

theorem takeWhile_stop (hc : p c = false) (s t : CString) :
    (s ++ c :: t).takeWhile p = s.takeWhile p := by
  induction s with
  | nil => simp [hc]
  | cons x s ih => by_cases hx : p x <;> simp [hx, ih]

theorem dropWhile_stop (hc : p c = false) (s t : CString) :
    (s ++ c :: t).dropWhile p = s.dropWhile p ++ c :: t := by
  induction s with
  | nil => simp [hc]
  | cons x s ih => by_cases hx : p x <;> simp [hx, ih]

end Stop

theorem comma_plain : isSpace (byte ',') = false ∧ isDigit (byte ',') = false ∧
    isHexDigit (byte ',') = false := by
  decide

theorem comma_ne : byte ',' ≠ byte '-' ∧ byte ',' ≠ byte '+' ∧ byte ',' ≠ byte '.' ∧
    byte ',' ≠ byte 'x' ∧ byte ',' ≠ byte 'X' ∧ byte ',' ≠ byte '0' := by
  decide

theorem takeSign_field (s t : CString) : takeSign (s ++ byte ',' :: t) =
    ((takeSign s).1, (takeSign s).2 ++ byte ',' :: t) := by
  cases s with
  | nil => simp [takeSign, comma_ne]
  | cons x s =>
    simp only [List.cons_append, takeSign]
    split
    · rfl
    · split <;> rfl

theorem dropHexPrefix_field (s t : CString) :
    dropHexPrefix (s ++ byte ',' :: t) = dropHexPrefix s ++ byte ',' :: t := by
  match s with
  | [] => cases t <;> simp [dropHexPrefix, comma_ne]
  | [a] => simp [dropHexPrefix, comma_ne]
  | a :: b :: s =>
    simp only [List.cons_append, dropHexPrefix]
    split <;> rfl

theorem takeFraction_field {p : Byte → Bool} (hp : p (byte ',') = false) (s t : CString) :
    takeFraction p (s ++ byte ',' :: t) =
      ((takeFraction p s).1, (takeFraction p s).2 ++ byte ',' :: t) := by
  cases s with
  | nil => simp [takeFraction, comma_ne]
  | cons x s =>
    simp only [List.cons_append, takeFraction]
    split
    · rw [takeWhile_stop hp, dropWhile_stop hp]
    · rfl

theorem takeExponent_field {lower upper : Char}
    (h : byte ',' ≠ byte lower ∧ byte ',' ≠ byte upper) (s t : CString) :
    takeExponent lower upper (s ++ byte ',' :: t) = takeExponent lower upper s := by
  have hdigit := comma_plain.2.1
  cases s with
  | nil => simp [takeExponent, h]
  | cons x s => simp only [List.cons_append, takeExponent, takeSign_field, takeWhile_stop hdigit]

theorem exponent_letters : (byte ',' ≠ byte 'e' ∧ byte ',' ≠ byte 'E') ∧
    byte ',' ≠ byte 'p' ∧ byte ',' ≠ byte 'P' := by
  decide

theorem decimal_field (s t : CString) : decimal (s ++ byte ',' :: t) = decimal s := by
  simp only [decimal, takeWhile_stop comma_plain.2.1, dropWhile_stop comma_plain.2.1,
    takeFraction_field comma_plain.2.1, takeExponent_field exponent_letters.1]

theorem hexadecimal_field (s t : CString) : hexadecimal (s ++ byte ',' :: t) = hexadecimal s := by
  simp only [hexadecimal, takeWhile_stop comma_plain.2.2, dropWhile_stop comma_plain.2.2,
    takeFraction_field comma_plain.2.2, takeExponent_field exponent_letters.2]

/-- `atof` and `atoi` of the C library. -/
def Conversions.clib : Conversions where
  atof := Gps.atof
  atoi := CLib.atoi
  atof_field s t _ := by
    simp only [Gps.atof, dropWhile_stop comma_plain.1, takeSign_field, dropHexPrefix_field,
      List.append_cancel_right_eq, decimal_field, hexadecimal_field]
  atoi_field s t _ := by
    simp only [CLib.atoi, dropWhile_stop comma_plain.1, takeSign_field,
      takeWhile_stop comma_plain.2.1]

/-- Digits, and a decimal point with further digits if there is one. -/
def decimalText (whole : CString) : Option CString → CString
  | none => whole
  | some fraction => whole ++ byte '.' :: fraction

/-- The number that the digits behind the point denote. -/
def fractionValue : Option CString → ℚ
  | none => 0
  | some ds => digitsValue ds / 10 ^ ds.length

theorem fractionValue_mem {fraction : Option CString}
    (hf : ∀ ds ∈ fraction, ∀ d ∈ ds, isDigit d) :
    0 ≤ fractionValue fraction ∧ fractionValue fraction < 1 := by
  cases fraction with
  | none => simp [fractionValue]
  | some ds =>
    refine ⟨by rw [fractionValue]; positivity, ?_⟩
    rw [fractionValue, div_lt_one (by positivity)]
    exact_mod_cast digitsValue_lt (hf ds rfl)

/-- A decimal field is read as the nearest number to its integer part and its fraction. -/
theorem atof_decimalText {whole : CString} {fraction : Option CString} (hne : whole ≠ [])
    (hw : ∀ d ∈ whole, isDigit d) (hf : ∀ ds ∈ fraction, ∀ d ∈ ds, isDigit d) (s : CString) :
    atof (decimalText whole fraction ++ byte ',' :: s) =
      binary64.round (digitsValue whole + fractionValue fraction) := by
  have hcomma : isDigit (byte ',') = false := by decide
  have hdot : isDigit (byte '.') = false := by decide
  have hexp : takeExponent 'e' 'E' (byte ',' :: s) = 0 := by
    simp [takeExponent, exponent_letters]
  cases fraction with
  | none =>
    obtain ⟨htake, hdrop⟩ := takeWhile_digits hw hcomma s
    have hfrac : takeFraction isDigit (byte ',' :: s) = ([], byte ',' :: s) := by
      simp [takeFraction, comma_ne]
    have hhex := dropHexPrefix_digits hne hw (c := byte ',') (by decide) s
    simp [atof, decimal, decimalText, takeSign_digits hne hw, hhex, htake, hdrop, hfrac, hexp,
      fractionValue, digitsValue]
  | some ds =>
    have hds := hf ds rfl
    obtain ⟨htake, hdrop⟩ := takeWhile_digits hw hdot (ds ++ byte ',' :: s)
    obtain ⟨htake', hdrop'⟩ := takeWhile_digits hds hcomma s
    have hfrac : takeFraction isDigit (byte '.' :: (ds ++ byte ',' :: s)) =
        (ds, byte ',' :: s) := by
      simp [takeFraction, htake', hdrop']
    have hhex := dropHexPrefix_digits hne hw (c := byte '.') (by decide) (ds ++ byte ',' :: s)
    simp [atof, decimal, decimalText, takeSign_digits hne hw, hhex, htake, hdrop, hfrac, hexp,
      fractionValue]

example : atof (text "000059.99999999999999999,") = 60 := by decide +kernel

example : atof (text " -0x1.8p1,") = -3 := by decide +kernel

end LagoEcosystem.Gps
