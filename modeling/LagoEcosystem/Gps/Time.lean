import LagoEcosystem.Gps.Location
import LagoEcosystem.Reader.Clock
import LagoEcosystem.Reader.Language
import Mathlib.Tactic.IntervalCases

/-!
# The time of a fix, end to end

The NMEA field `hhmmss` is read as a number and stays one: the register and the metadata
word hold `10000 * hh + 100 * mm + ss`, or one more where the `double` of the field is the next
integer. The reader takes three bytes out of it, as if it were
`65536 * hh + 256 * mm + ss`.
-/

namespace LagoEcosystem.Gps

open CLib CivilTime FixedPoint FloatingPoint Reader

/-- Two decimal digits. -/
def twoDigits (n : ℕ) : CString := [BitVec.ofNat 8 (48 + n / 10), BitVec.ofNat 8 (48 + n % 10)]

/-- A GGA line with a time of day, and with enough fields behind it for the parser. -/
structure GgaFix where
  header : CString
  hh : ℕ
  mm : ℕ
  ss : ℕ
  fraction : Option CString
  rest : CString
  header_comma : byte ',' ∉ header
  hh_lt : hh < 24
  mm_lt : mm < 60
  ss_lt : ss < 60
  fraction_digits : ∀ ds ∈ fraction, ∀ d ∈ ds, isDigit d
  fields : 7 ≤ rest.count (byte ',')

namespace GgaFix

variable (fix : GgaFix)

/-- `hhmmss` -/
def timeText : CString := twoDigits fix.hh ++ twoDigits fix.mm ++ twoDigits fix.ss

def line : CString :=
  fix.header ++ byte ',' :: (decimalText fix.timeText fix.fraction ++ byte ',' :: fix.rest)

/-- The number of the time field. -/
def number : ℕ := 10000 * fix.hh + 100 * fix.mm + fix.ss

/-- The field is within half a unit in the last place of the next integer. -/
def RoundsUp : Prop :=
  1 - fractionValue fix.fraction ≤ 2 ^ digits fix.number / 2 ^ (binary64.precision + 1)

instance : Decidable fix.RoundsUp := inferInstanceAs (Decidable (_ ≤ _))

/-- The integer part of the `double`. -/
def stored : ℕ := if fix.RoundsUp then fix.number + 1 else fix.number

/-- The time of day the reader prints for the second whose metadata carries the fix. The
parser runs on the line, `thread_isr` on the location, the trigger core captures the
register and the reader, which uses GPS time, decodes the word. -/
def reported {g : Trigger.Generics} (s : Trigger.St g) (i : Trigger.In) (cfg : Acqua.Cfg)
    (coord : Loc) (gpgga : Gpgga) (cal : Calendar) (clock : Clock) : Option (ℤ × ℤ × ℤ) := do
  let gpgga ← Conversions.clib.rpNmeaParseGpgga fix.line gpgga
  match decode ((captured s i cfg (coord.gga gpgga)).word 7) with
  | .time hour min sec raw =>
    let tm := (Clock.time cal { clock with falseGPS := false } hour min sec raw).1.fileDate
    return (tm.hour, tm.min, tm.sec)
  | _ => none

/-! ## The stages -/

theorem digit_eq : ∀ a < 10, isDigit (BitVec.ofNat 8 (48 + a)) ∧
    (BitVec.ofNat 8 (48 + a) - byte '0').toNat = a := by
  decide +kernel

theorem isDigit_twoDigits {n : ℕ} (hn : n < 100) : ∀ d ∈ twoDigits n, isDigit d := by
  simp only [twoDigits, List.mem_cons, List.not_mem_nil, or_false]
  rintro d (rfl | rfl)
  · exact (digit_eq (n / 10) (by omega)).1
  · exact (digit_eq (n % 10) (by omega)).1

theorem isDigit_timeText : ∀ d ∈ fix.timeText, isDigit d := by
  have := fix.hh_lt
  have := fix.mm_lt
  have := fix.ss_lt
  simp only [timeText, List.mem_append]
  rintro d ((hd | hd) | hd)
  · exact isDigit_twoDigits (by omega) d hd
  · exact isDigit_twoDigits (by omega) d hd
  · exact isDigit_twoDigits (by omega) d hd

theorem digitsValue_timeText : digitsValue fix.timeText = fix.number := by
  have := fix.hh_lt
  have := fix.mm_lt
  have := fix.ss_lt
  have hdigit (a : ℕ) (ha : a < 10) := (digit_eq a ha).2
  simp only [digitsValue, timeText, twoDigits, List.cons_append, List.nil_append,
    List.foldl_cons, List.foldl_nil, hdigit (fix.hh / 10) (by omega),
    hdigit (fix.hh % 10) (by omega), hdigit (fix.mm / 10) (by omega),
    hdigit (fix.mm % 10) (by omega), hdigit (fix.ss / 10) (by omega),
    hdigit (fix.ss % 10) (by omega), number]
  omega

theorem number_lt : fix.number < 240000 := by
  have := fix.hh_lt
  have := fix.mm_lt
  have := fix.ss_lt
  rw [number]
  omega

theorem comma_timeField : byte ',' ∉ decimalText fix.timeText fix.fraction := by
  have hdigit : ∀ ds : CString, (∀ d ∈ ds, isDigit d) → byte ',' ∉ ds := by
    intro ds hds hmem
    exact absurd (hds _ hmem) (by decide)
  have hwhole := hdigit _ fix.isDigit_timeText
  cases hf : fix.fraction with
  | none => exact hwhole
  | some ds =>
    have hds := hdigit ds (fix.fraction_digits ds hf)
    simp only [decimalText, List.mem_append, List.mem_cons, not_or]
    exact ⟨hwhole, by decide, hds⟩

theorem stored_lt : fix.stored < 240000 := by
  have := fix.hh_lt
  have := fix.mm_lt
  have := fix.ss_lt
  rw [stored, number]
  split <;> omega

theorem digits_number_lt : digits fix.number < binary64.precision := by
  have hlt := fix.number_lt
  have hle := two_pow_digits_le fix.number
  refine (Nat.pow_lt_pow_iff_right (a := 2) (by decide)).mp (hle.trans_lt ?_)
  rw [show binary64.precision = 53 from rfl]
  omega

/-- The parser finds a time, whose integer part is the number that is stored. -/
theorem parse_times (gpgga : Gpgga) :
    ∃ loc, Conversions.clib.rpNmeaParseGpgga fix.line gpgga = some loc ∧
      truncate loc.times = fix.stored := by
  have hline : afterComma fix.line = _ := afterComma_append fix.header_comma _
  obtain ⟨loc, hparse, htimes⟩ := exists_parseGpgga Conversions.clib hline
    (afterComma_append fix.comma_timeField _) fix.fields gpgga
  have hatof := atof_decimalText (s := fix.rest) (by simp [timeText, twoDigits])
    fix.isDigit_timeText fix.fraction_digits
  obtain ⟨h0, h1⟩ := fractionValue_mem fix.fraction_digits
  have hstored : (fix.stored : ℤ) =
      if fix.RoundsUp then (fix.number : ℤ) + 1 else fix.number := by
    rw [stored]
    split <;> push_cast <;> rfl
  refine ⟨loc, hparse, ?_⟩
  rw [htimes, show Conversions.clib.atof = atof from rfl, hatof, fix.digitsValue_timeText,
    truncate_round (by decide) (by decide) fix.digits_number_lt h0 h1, hstored]
  rfl

section EndToEnd

variable {g : Trigger.Generics} (s : Trigger.St g) (i : Trigger.In) (cfg : Acqua.Cfg)
  (coord : Loc) (gpgga : Gpgga) (cal : Calendar) (clock : Clock)

/-- The reader takes the three bytes of the number for hours, minutes and seconds. -/
theorem decode_time_word {gpgga : Gpgga} {n : ℕ} (hn : n < 2 ^ 24)
    (h : truncate gpgga.times = n) :
    decode ((captured s i cfg (coord.gga gpgga)).word 7) =
      .time (n / 65536) (n / 256 % 256) (n % 256) n := by
  have htime : (captured s i cfg (coord.gga gpgga)).time = BitVec.ofInt 24 n := by
    rw [← h, ← toInt32_setWidth]
    rfl
  have hnat : (captured s i cfg (coord.gga gpgga)).time.toNat = n := by
    rw [htime, BitVec.toNat_ofInt]
    omega
  rw [decode_metadata_word _ 7 _ rfl]
  simp only [Trigger.timeByte, BitVec.extractLsb'_toNat, Nat.shiftRight_eq_div_pow, hnat]
  have hour : n / 2 ^ (8 * 2) % 2 ^ 8 = n / 65536 := by omega
  have min : n / 2 ^ (8 * 1) % 2 ^ 8 = n / 256 % 256 := by omega
  have sec : n / 2 ^ (8 * 0) % 2 ^ 8 = n % 256 := by omega
  exact congr (congr (congrArg₂ Record.time hour min) sec) rfl

/-- The seconds since midnight that the reader makes of a number. -/
def readerSeconds (n : ℕ) : ℕ := n / 65536 * 3600 + n / 256 % 256 * 60 + n % 256

theorem reported_eq :
    fix.reported s i cfg coord gpgga cal clock =
      some ((readerSeconds fix.stored : ℤ) / 3600 % 24, (readerSeconds fix.stored : ℤ) / 60 % 60,
        (readerSeconds fix.stored : ℤ) % 60) := by
  obtain ⟨loc, hparse, htimes⟩ := fix.parse_times gpgga
  have hlt := fix.stored_lt
  obtain ⟨hhour, hmin, hsec⟩ := Clock.time_gps cal (c := { clock with falseGPS := false }) rfl
    (fix.stored / 65536) (fix.stored / 256 % 256) (fix.stored % 256) fix.stored
  simp only [reported, hparse, Option.bind_eq_bind, Option.bind_some,
    decode_time_word s i cfg coord (by omega) htimes, hhour, hmin, hsec, readerSeconds,
    Option.pure_def]
  push_cast
  rfl

theorem readerSeconds_lt : readerSeconds fix.stored < 86400 := by
  have hlt := fix.stored_lt
  rw [readerSeconds]
  omega

/-- Bytes and pairs of decimal digits agree on nothing above the last pair, and a number that
was rounded up is another time of day by parity. -/
theorem readerSeconds_eq_iff :
    readerSeconds fix.stored = 3600 * fix.hh + 60 * fix.mm + fix.ss ↔
      (fix.hh = 0 ∧ fix.mm = 0) ∧ ¬ fix.RoundsUp := by
  have hhh := fix.hh_lt
  have hmm := fix.mm_lt
  have hss := fix.ss_lt
  have hlt := fix.stored_lt
  have hstored : fix.stored = if fix.RoundsUp then fix.number + 1 else fix.number := rfl
  have hnumber : fix.number = 10000 * fix.hh + 100 * fix.mm + fix.ss := rfl
  rw [readerSeconds]
  generalize fix.stored = n at *
  have hbytes : n = n / 65536 * 65536 + n / 256 % 256 * 256 + n % 256 := by omega
  have hmin := Nat.mod_lt (n / 256) (by decide : 256 > 0)
  have hsec := Nat.mod_lt n (by decide : 256 > 0)
  have hhour : n / 65536 ≤ 3 := by omega
  generalize n / 65536 = hour at *
  generalize n / 256 % 256 = min at *
  generalize n % 256 = sec at *
  by_cases hup : fix.RoundsUp
  · rw [if_pos hup] at hstored
    refine iff_of_false (fun h => ?_) (fun h => h.2 hup)
    omega
  · rw [if_neg hup] at hstored
    constructor
    · intro h
      refine ⟨?_, hup⟩
      interval_cases hour <;> omega
    · rintro ⟨⟨h1, h2⟩, -⟩
      omega

/-- The reader prints the time of the fix exactly in the first minute of the day, unless the
`double` of the field is the next second. -/
theorem reported_iff :
    fix.reported s i cfg coord gpgga cal clock = some ((fix.hh : ℤ), (fix.mm : ℤ), (fix.ss : ℤ)) ↔
      (fix.hh = 0 ∧ fix.mm = 0) ∧ ¬ fix.RoundsUp := by
  have hhh := fix.hh_lt
  have hmm := fix.mm_lt
  have hss := fix.ss_lt
  have hlt := fix.readerSeconds_lt
  rw [reported_eq, ← readerSeconds_eq_iff]
  simp only [Option.some.injEq, Prod.mk.injEq]
  generalize readerSeconds fix.stored = t at *
  constructor
  · rintro ⟨h1, h2, h3⟩
    omega
  · rintro rfl
    omega

/-- `$GPGGA,123519,4807.038,N,01131.000,E,1,08,0.9,545.4,M,46.9,M,,*47` -/
def noonFix : GgaFix where
  header := [0x24, 0x47, 0x50, 0x47, 0x47, 0x41]
  hh := 12
  mm := 35
  ss := 19
  fraction := none
  rest := "4807.038,N,01131.000,E,1,08,0.9,545.4,M,46.9,M,,*47".toList.map byte
  header_comma := by decide
  hh_lt := by decide
  mm_lt := by decide
  ss_lt := by decide
  fraction_digits := by simp
  fields := by decide +kernel

end EndToEnd

/-- The reader prints 04:48:07 for 12:35:19. -/
theorem noonFix_reported :
    noonFix.reported (Trigger.St.reset .blockDesign) .quiet (fun _ => 0) ⟨0, 0, 0, 0, 0, 0, 0, 0⟩
        ⟨0, 0, 0, 0, 0, 0, 0, 0⟩ gregorian ⟨0, gregorian.gmtime 0, false, false⟩ ≠
      some ((noonFix.hh : ℤ), (noonFix.mm : ℤ), (noonFix.ss : ℤ)) := by
  have hread : noonFix.reported (Trigger.St.reset .blockDesign) .quiet (fun _ => 0)
      ⟨0, 0, 0, 0, 0, 0, 0, 0⟩ ⟨0, 0, 0, 0, 0, 0, 0, 0⟩ gregorian
      ⟨0, gregorian.gmtime 0, false, false⟩ = some (4, 48, 7) := by
    rw [reported_eq]
    decide +kernel
  rw [hread]
  decide

end GgaFix

end LagoEcosystem.Gps
