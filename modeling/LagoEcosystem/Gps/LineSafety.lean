import LagoEcosystem.Gps.Checksum
import LagoEcosystem.Gps.Fields
import LagoEcosystem.Gps.Uart
import Mathlib.Data.List.TakeWhile

/-!
# Which lines are parsed safely

Neither the checksum test nor the parsers look whether a search found anything. What they
do with a line that a serial line garbled is defined exactly if the line has its `*`, and
nine commas when a matching checksum sends it to a parser.
-/

namespace LagoEcosystem.Gps

open BitFields CLib

/-- A line as `rp_UartReadln` delivers it. The length is free here: a line of 256 bytes or more
does not fit in the buffer of `gps_location`, which is the subject of `Gps.Uart`. -/
structure Line where
  text : CString
  no_nul : 0 ∉ text
  no_newline : newline ∉ text

/-- The line in the buffer after the bytes that were received. -/
def Line.ofBytes (bytes : CString) : Line where
  text := untilNul (lineOf bytes)
  no_nul := nul_notMem_untilNul _
  no_newline h := by
    have hline := (List.takeWhile_prefix _).subset h
    exact of_decide_eq_true (List.all_eq_true.mp (List.all_takeWhile (l := bytes)) _ hline) rfl

/-- Every line is delivered for some bytes. -/
theorem Line.eq_ofBytes (line : Line) : line = .ofBytes (line.text ++ [newline]) := by
  obtain ⟨text, hnul, hline⟩ := line
  have hbefore : ∀ c ∈ text, decide (c ≠ newline) = true := by
    intro c hc
    exact decide_eq_true (ne_of_mem_of_not_mem hc hline)
  have hkeep : ∀ c ∈ text, decide (c ≠ 0) = true := by
    intro c hc
    exact decide_eq_true (ne_of_mem_of_not_mem hc hnul)
  have hstop : (text ++ [newline]).takeWhile (· ≠ newline) = text :=
    (takeWhile_stop rfl text []).trans (List.takeWhile_eq_self_iff.mpr hbefore)
  simp only [ofBytes, lineOf, untilNul, hstop, List.takeWhile_eq_self_iff.mpr hkeep]

/-- `rp_NmeaGetMessageType` and the parser it selects neither read past the terminating NUL
nor use a null pointer. The parsers start with whatever the uninitialized members hold. -/
def ParsedSafely (conv : Conversions) (line : CString) : Prop :=
  ∃ type, rpNmeaGetMessageType line = some type ∧
    (type = nmeaGpgga → ∀ loc, (conv.rpNmeaParseGpgga line loc).isSome) ∧
    (type = nmeaGprmc → ∀ loc, (conv.rpNmeaParseGprmc line loc).isSome)

/-! ## The parsers -/

/-- The pointer behind the `n`-th comma. -/
def afterCommas : ℕ → CString → Option CString
  | 0, s => some s
  | n + 1, s => (afterComma s).bind (afterCommas n)

theorem afterComma_eq_none {s : CString} (h : s.count (byte ',') = 0) : afterComma s = none := by
  induction s with
  | nil => rfl
  | cons c s ih =>
    have hc : c ≠ byte ',' := by
      rintro rfl
      simp at h
    rw [List.count_cons_of_ne hc] at h
    simp [afterComma, hc, ih h]

theorem isSome_afterCommas_iff (n : ℕ) (s : CString) :
    (afterCommas n s).isSome ↔ n ≤ s.count (byte ',') := by
  induction n generalizing s with
  | zero => simp [afterCommas]
  | succ n ih =>
    by_cases hpos : 0 < s.count (byte ',')
    · obtain ⟨t, ht, hcount⟩ := exists_afterComma hpos
      rw [afterCommas, ht, Option.bind_some, ih, hcount]
      omega
    · have hnone := afterComma_eq_none (s := s) (by omega)
      rw [afterCommas, hnone, Option.bind_none]
      simp
      omega

/-- What a parser does behind a comma needs one comma more. -/
theorem isSome_walk {α : Type} {parse : CString → Option α} {n : ℕ}
    (h : ∀ ptr, (parse ptr).isSome = (afterCommas n ptr).isSome) (s : CString) :
    (afterComma s >>= parse).isSome = (afterCommas (n + 1) s).isSome := by
  rw [afterCommas]
  cases afterComma s with
  | none => rfl
  | some ptr => exact h ptr

instance : Inhabited Gpgga := ⟨⟨0, 0, 0, 0, 0, 0, 0, 0⟩⟩
instance : Inhabited Gprmc := ⟨⟨0, 0, 0, 0, 0, 0, 0, 0⟩⟩

section Parsers

variable (conv : Conversions) (line : CString)

/-- Each parser takes nine fields. -/
theorem isSome_parseGpgga_iff (loc : Gpgga) :
    (conv.rpNmeaParseGpgga line loc).isSome ↔ 9 ≤ line.count (byte ',') := by
  have hwalk : (conv.rpNmeaParseGpgga line loc).isSome = (afterCommas 9 line).isSome := by
    unfold Conversions.rpNmeaParseGpgga
    iterate 9 refine isSome_walk (fun ptr => ?_) _
    rfl
  rw [hwalk, isSome_afterCommas_iff]

theorem isSome_parseGprmc_iff (loc : Gprmc) :
    (conv.rpNmeaParseGprmc line loc).isSome ↔ 9 ≤ line.count (byte ',') := by
  have hwalk : (conv.rpNmeaParseGprmc line loc).isSome = (afterCommas 9 line).isSome := by
    unfold Conversions.rpNmeaParseGprmc
    iterate 9 refine isSome_walk (fun ptr => ?_) _
    rfl
  rw [hwalk, isSome_afterCommas_iff]

end Parsers

/-! ## The type of a line -/

theorem rpNmeaGetMessageType_eq_none_iff (line : CString) :
    rpNmeaGetMessageType line = none ↔ byte '*' ∉ line.tail := by
  rw [← rpNmeaValidChecksum_eq_none_iff]
  cases hsum : rpNmeaValidChecksum line with
  | none => simp [rpNmeaGetMessageType, hsum]
  | some checksum =>
    simp only [rpNmeaGetMessageType, hsum, Option.bind_eq_bind, Option.bind_some]
    split_ifs <;> simp

theorem rpNmeaGetMessageType_of_ne {line : CString} (h : byte '*' ∈ line.tail)
    (hne : xorSum (covered line) ≠ encoded line) :
    rpNmeaGetMessageType line = some nmeaChecksumErr := by
  have herr : nmeaChecksumErr ≠ empty := by decide
  simp only [rpNmeaGetMessageType, rpNmeaValidChecksum_of_mem h, if_neg hne,
    Option.bind_eq_bind, Option.bind_some, if_pos herr]
  rfl

theorem rpNmeaGetMessageType_of_eq {line : CString} (h : byte '*' ∈ line.tail)
    (heq : xorSum (covered line) = encoded line) :
    rpNmeaGetMessageType line =
      some (if nmeaGpggaStr <:+: line then nmeaGpgga
        else if nmeaGprmcStr <:+: line then nmeaGprmc else nmeaUnknown) := by
  simp only [rpNmeaGetMessageType, rpNmeaValidChecksum_of_mem h, if_pos heq,
    Option.bind_eq_bind, Option.bind_some, ne_eq, not_true_eq_false, if_false]
  simp only [← ne_eq, strstr_ne_none_iff]
  split_ifs <;> rfl

/-- A line is parsed safely if and only if there is a `*` behind its first byte and, should
the checksum match and the line name a message that is parsed, it has nine commas. -/
theorem parsedSafely_iff (conv : Conversions) (line : Line) :
    ParsedSafely conv line.text ↔
      byte '*' ∈ line.text.tail ∧
        (xorSum (covered line.text) = encoded line.text →
          nmeaGpggaStr <:+: line.text ∨ nmeaGprmcStr <:+: line.text →
          9 ≤ line.text.count (byte ',')) := by
  by_cases hstar : byte '*' ∈ line.text.tail
  swap
  · have hnone := (rpNmeaGetMessageType_eq_none_iff line.text).mpr hstar
    simp [ParsedSafely, hnone, hstar]
  have hdiff : nmeaGpgga ≠ nmeaGprmc ∧ nmeaUnknown ≠ nmeaGpgga ∧ nmeaUnknown ≠ nmeaGprmc ∧
      nmeaChecksumErr ≠ nmeaGpgga ∧ nmeaChecksumErr ≠ nmeaGprmc := by decide
  obtain ⟨hboth, hunknown, hunknown', herr, herr'⟩ := hdiff
  by_cases heq : xorSum (covered line.text) = encoded line.text
  · simp only [ParsedSafely, rpNmeaGetMessageType_of_eq hstar heq, isSome_parseGpgga_iff,
      isSome_parseGprmc_iff, Option.some.injEq, exists_eq_left']
    by_cases hgga : nmeaGpggaStr <:+: line.text
    · simp [hgga, hstar, heq, hboth]
    · by_cases hrmc : nmeaGprmcStr <:+: line.text
      · simp [hgga, hrmc, hstar, heq, Ne.symm hboth]
      · simp [hgga, hrmc, hstar, heq, hunknown, hunknown']
  · simp [ParsedSafely, rpNmeaGetMessageType_of_ne hstar heq, hstar, heq, herr, herr']

/-- A line that broke off before its `*`. -/
def truncated : Line := ⟨text "$GPGGA,123519,4807", by decide, by decide⟩

/-- The null pointer for the `*` is used. -/
theorem truncated_not_parsedSafely : ¬ ParsedSafely .clib truncated.text := by
  rintro ⟨type, htype, -⟩
  have hnone : rpNmeaGetMessageType truncated.text = none :=
    (rpNmeaGetMessageType_eq_none_iff _).mpr (by decide)
  rw [hnone] at htype
  cases htype

end LagoEcosystem.Gps
