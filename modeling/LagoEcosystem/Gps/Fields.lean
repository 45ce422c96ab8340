import LagoEcosystem.Gps.Nmea

/-!
# The fields of an NMEA line

Each parser walks the line with one search for a comma per field, so that the members of its
result are the fields at their positions, whatever the fields hold.
-/

namespace LagoEcosystem.Gps

open CLib

/-- `gprmc_t`. -/
structure Gprmc where
  times : ℚ
  latitude : ℚ
  lat : Byte
  longitude : ℚ
  lon : Byte
  speed : ℚ
  course : ℚ
  date : ℚ

/-- `rp_NmeaParseGprmc`. -/
def Conversions.rpNmeaParseGprmc (conv : Conversions) (nmea : CString) (loc : Gprmc) : Option Gprmc := do
  let ptr ← afterComma nmea
  let times := conv.atof ptr
  let ptr ← afterComma ptr
  let ptr ← afterComma ptr
  let latitude := conv.atof ptr
  let ptr ← afterComma ptr
  let lat := hemisphere 'N' 'S' loc.lat ptr
  let ptr ← afterComma ptr
  let longitude := conv.atof ptr
  let ptr ← afterComma ptr
  let lon := hemisphere 'W' 'E' loc.lon ptr
  let ptr ← afterComma ptr
  let speed := conv.atof ptr
  let ptr ← afterComma ptr
  let course := conv.atof ptr
  let ptr ← afterComma ptr
  let date := conv.atof ptr
  return ⟨times, latitude, lat, longitude, lon, speed, course, date⟩

/-! ## Lines made of fields -/

/-- Fields, with a comma before each. -/
def commaEach (fields : List CString) : CString := fields.flatMap (byte ',' :: ·)

/-- A message identifier and the fields that the parsers consume, or more. -/
structure Sentence where
  identifier : CString
  fields : List CString
  identifier_comma : byte ',' ∉ identifier
  fields_comma : ∀ field ∈ fields, byte ',' ∉ field
  identifier_nul : 0 ∉ identifier
  fields_nul : ∀ field ∈ fields, 0 ∉ field
  enough : 9 ≤ fields.length

namespace Sentence

variable (s : Sentence)

def line : CString := s.identifier ++ commaEach s.fields

/-- The field at a position; position 0 is the identifier. -/
def field (k : ℕ) : CString := (s.identifier :: s.fields).getD k []

/-- The line from the field at a position on. -/
def ptr (k : ℕ) : CString := s.field k ++ commaEach (s.fields.drop k)

theorem ptr_zero : s.ptr 0 = s.line := rfl

theorem comma_notMem_field (k : ℕ) : byte ',' ∉ s.field k := by
  rw [field, List.getD_eq_getElem?_getD]
  cases hk : (s.identifier :: s.fields)[k]? with
  | none => simp
  | some f =>
    rcases List.mem_cons.mp (List.mem_of_getElem? hk) with rfl | hmem
    · exact s.identifier_comma
    · exact s.fields_comma f hmem

theorem drop_eq_cons {k : ℕ} (hk : k < s.fields.length) :
    s.fields.drop k = s.field (k + 1) :: s.fields.drop (k + 1) := by
  rw [List.drop_eq_getElem_cons hk]
  simp [field, hk]

/-- The walk stays aligned, whatever the fields hold. -/
theorem afterComma_ptr {k : ℕ} (hk : k < s.fields.length) :
    afterComma (s.ptr k) = some (s.ptr (k + 1)) := by
  rw [ptr, s.drop_eq_cons hk]
  exact afterComma_append (s.comma_notMem_field k) _

/-- A parser that walks on is at the next field. -/
theorem walk {α : Type} {k : ℕ} (hk : k < 9) (parse : CString → Option α) :
    (afterComma (s.ptr k) >>= parse) = parse (s.ptr (k + 1)) := by
  have henough := s.enough
  rw [s.afterComma_ptr (by omega)]
  rfl

/-- A conversion that stops at a comma sees the field only. -/
theorem convert_ptr {α : Type*} {f : CString → α}
    (hf : ∀ u t, byte ',' ∉ u → f (u ++ byte ',' :: t) = f u) (k : ℕ) :
    f (s.ptr k) = f (s.field k) := by
  by_cases hk : k < s.fields.length
  · rw [ptr, s.drop_eq_cons hk]
    exact hf _ _ (s.comma_notMem_field k)
  · rw [ptr, List.drop_of_length_le (by omega), commaEach, List.flatMap_nil, List.append_nil]

end Sentence

/-! ## Hemispheres -/

/-- The letter of a hemisphere field, NUL for an empty field. -/
structure LetterOf (pos neg : Char) (field : CString) (member : Byte) : Prop where
  letter : ∀ l ∈ [pos, neg], field.head? = some (byte l) → member = byte l
  none : field = [] → member = 0

/-- The letters that the parsers know are told apart, also from a comma. -/
def Letters (pos neg : Char) : Prop :=
  byte pos ≠ byte neg ∧ byte pos ≠ byte ',' ∧ byte neg ≠ byte ','

theorem letters_lat : Letters 'N' 'S' := by unfold Letters; decide
theorem letters_lon : Letters 'W' 'E' := by unfold Letters; decide

theorem letterOf_hemisphere {pos neg : Char} (h : Letters pos neg) (s : Sentence) {k : ℕ}
    (hk : k < s.fields.length) (old : Byte) :
    LetterOf pos neg (s.field k) (hemisphere pos neg old (s.ptr k)) := by
  obtain ⟨hne, hpos, hneg⟩ := h
  rw [Sentence.ptr, s.drop_eq_cons hk]
  cases hf : s.field k with
  | nil =>
    refine ⟨by simp, fun _ => ?_⟩
    simp [commaEach, hemisphere, Ne.symm hpos, Ne.symm hneg]
  | cons c f =>
    refine ⟨fun l hl hc => ?_, by simp⟩
    simp only [List.head?_cons, Option.some.injEq] at hc
    simp only [List.mem_cons, List.not_mem_nil, or_false] at hl
    rcases hl with rfl | rfl
    · simp [hemisphere, hc]
    · simp [hemisphere, hc, Ne.symm hne]

/-! ## The parsers -/

/-- The members of a `gpgga_t` are the fields at their positions. -/
structure Gpgga.Reads (conv : Conversions) (s : Sentence) (loc : Gpgga) : Prop where
  times : loc.times = conv.atof (s.field 1)
  latitude : loc.latitude = conv.atof (s.field 2)
  lat : LetterOf 'N' 'S' (s.field 3) loc.lat
  longitude : loc.longitude = conv.atof (s.field 4)
  lon : LetterOf 'W' 'E' (s.field 5) loc.lon
  quality : loc.quality = BitVec.ofInt 8 (conv.atoi (s.field 6))
  satellites : loc.satellites = BitVec.ofInt 8 (conv.atoi (s.field 7))
  altitude : loc.altitude = conv.atof (s.field 9)

/-- The members of a `gprmc_t` are the fields at their positions. -/
structure Gprmc.Reads (conv : Conversions) (s : Sentence) (loc : Gprmc) : Prop where
  times : loc.times = conv.atof (s.field 1)
  latitude : loc.latitude = conv.atof (s.field 3)
  lat : LetterOf 'N' 'S' (s.field 4) loc.lat
  longitude : loc.longitude = conv.atof (s.field 5)
  lon : LetterOf 'W' 'E' (s.field 6) loc.lon
  speed : loc.speed = conv.atof (s.field 7)
  course : loc.course = conv.atof (s.field 8)
  date : loc.date = conv.atof (s.field 9)

section Parsers

variable (conv : Conversions) (s : Sentence)

theorem parseGpgga_line (loc : Gpgga) : conv.rpNmeaParseGpgga s.line loc =
    some ⟨conv.atof (s.ptr 1), conv.atof (s.ptr 2), hemisphere 'N' 'S' loc.lat (s.ptr 3),
      conv.atof (s.ptr 4), hemisphere 'W' 'E' loc.lon (s.ptr 5),
      BitVec.ofInt 8 (conv.atoi (s.ptr 6)), BitVec.ofInt 8 (conv.atoi (s.ptr 7)),
      conv.atof (s.ptr 9)⟩ := by
  rw [← s.ptr_zero]
  unfold Conversions.rpNmeaParseGpgga
  rw [s.walk (by decide), s.walk (by decide), s.walk (by decide), s.walk (by decide),
    s.walk (by decide), s.walk (by decide), s.walk (by decide), s.walk (by decide),
    s.walk (by decide)]
  rfl

theorem parseGprmc_line (loc : Gprmc) : conv.rpNmeaParseGprmc s.line loc =
    some ⟨conv.atof (s.ptr 1), conv.atof (s.ptr 3), hemisphere 'N' 'S' loc.lat (s.ptr 4),
      conv.atof (s.ptr 5), hemisphere 'W' 'E' loc.lon (s.ptr 6), conv.atof (s.ptr 7),
      conv.atof (s.ptr 8), conv.atof (s.ptr 9)⟩ := by
  rw [← s.ptr_zero]
  unfold Conversions.rpNmeaParseGprmc
  rw [s.walk (by decide), s.walk (by decide), s.walk (by decide), s.walk (by decide),
    s.walk (by decide), s.walk (by decide), s.walk (by decide), s.walk (by decide),
    s.walk (by decide)]
  rfl

theorem gpgga_reads (loc : Gpgga) :
    ∃ gpgga, conv.rpNmeaParseGpgga s.line loc = some gpgga ∧ gpgga.Reads conv s := by
  have henough := s.enough
  have hatof := s.convert_ptr conv.atof_field
  have hatoi (k : ℕ) := congrArg (BitVec.ofInt 8) (s.convert_ptr conv.atoi_field k)
  exact ⟨_, parseGpgga_line conv s loc, hatof 1, hatof 2,
    letterOf_hemisphere letters_lat s (by omega) _, hatof 4,
    letterOf_hemisphere letters_lon s (by omega) _, hatoi 6, hatoi 7, hatof 9⟩

theorem gprmc_reads (loc : Gprmc) :
    ∃ gprmc, conv.rpNmeaParseGprmc s.line loc = some gprmc ∧ gprmc.Reads conv s := by
  have henough := s.enough
  have hatof := s.convert_ptr conv.atof_field
  exact ⟨_, parseGprmc_line conv s loc, hatof 1, hatof 3,
    letterOf_hemisphere letters_lat s (by omega) _, hatof 5,
    letterOf_hemisphere letters_lon s (by omega) _, hatof 7, hatof 8, hatof 9⟩

/-- Both parsers take every member from the field at its position. -/
theorem parsers_aligned (gpgga : Gpgga) (gprmc : Gprmc) :
    (∃ loc, conv.rpNmeaParseGpgga s.line gpgga = some loc ∧ loc.Reads conv s) ∧
      ∃ loc, conv.rpNmeaParseGprmc s.line gprmc = some loc ∧ loc.Reads conv s :=
  ⟨gpgga_reads conv s gpgga, gprmc_reads conv s gprmc⟩

end Parsers

end LagoEcosystem.Gps
