import LagoEcosystem.Gps.Nmea
import LagoEcosystem.Library.BitFields
import LagoEcosystem.Library.CSearch

/-!
# The checksum of an NMEA line

`rp_NmeaValidChecksum` and `rp_NmeaGetMessageType`. The number behind the first `*` is
compared with the exclusive or of the bytes between the first byte of the line and the
next `*`. Both searches run out of a line that has no `*` there.
-/

namespace LagoEcosystem.Gps

open BitFields CLib

def empty : BitVec 8 := 0x00
def nmeaGprmc : BitVec 8 := 0x01
def nmeaGprmcStr : CString := text "$GPRMC"
def nmeaGpgga : BitVec 8 := 0x02
def nmeaGpggaStr : CString := text "$GPGGA"
def nmeaUnknown : BitVec 8 := 0x00
def completed : BitVec 8 := 0x03
def nmeaChecksumErr : BitVec 8 := 0x80

/-- The loop of `rp_NmeaValidChecksum`. Without a `*` it runs over the terminating NUL. The
sign extension of `p` is lost in the eight bits of `sum`. -/
def sumLoop : CString → BitVec 8 → Option (BitVec 8)
  | [], _ => none
  | p :: message, sum => if p = byte '*' then some sum else sumLoop message (sum ^^^ p)

/-- `rp_NmeaValidChecksum`, undefined where `strchr` finds nothing. -/
def rpNmeaValidChecksum (message : CString) : Option (BitVec 8) := do
  let star ← strchr message (byte '*')
  let checksum := BitVec.ofInt 8 (strtol16 star.tail)
  let sum ← sumLoop message.tail 0
  if sum ≠ checksum then return nmeaChecksumErr else return empty

/-- `rp_NmeaGetMessageType`. -/
def rpNmeaGetMessageType (message : CString) : Option (BitVec 8) := do
  let checksum ← rpNmeaValidChecksum message
  if checksum ≠ empty then return checksum
  else if strstr message nmeaGpggaStr ≠ none then return nmeaGpgga
  else if strstr message nmeaGprmcStr ≠ none then return nmeaGprmc
  else return nmeaUnknown

/-! ## Any line -/

/-- The bytes that the checksum covers. -/
def covered (line : CString) : CString := line.tail.takeWhile (· ≠ byte '*')

/-- The checksum that a line claims to have. -/
def encoded (line : CString) : BitVec 8 :=
  BitVec.ofInt 8 (strtol16 (line.dropWhile (· ≠ byte '*')).tail)

theorem sumLoop_eq_none_iff (s : CString) (sum : BitVec 8) :
    sumLoop s sum = none ↔ byte '*' ∉ s := by
  induction s generalizing sum with
  | nil => simp [sumLoop]
  | cons p s ih =>
    by_cases hp : p = byte '*'
    · simp [sumLoop, hp]
    · simp [sumLoop, hp, ih, Ne.symm hp]

theorem sumLoop_of_mem {s : CString} (h : byte '*' ∈ s) (sum : BitVec 8) :
    sumLoop s sum = some (sum ^^^ xorSum (s.takeWhile (· ≠ byte '*'))) := by
  induction s generalizing sum with
  | nil => simp at h
  | cons p s ih =>
    by_cases hp : p = byte '*'
    · simp [sumLoop, hp, xorSum]
    · have hs : byte '*' ∈ s := by simpa [Ne.symm hp] using h
      simp [sumLoop, hp, ih hs, xorSum_cons, BitVec.xor_assoc]

/-- The test is defined exactly for a line with a `*` behind its first byte. -/
theorem rpNmeaValidChecksum_eq_none_iff (line : CString) :
    rpNmeaValidChecksum line = none ↔ byte '*' ∉ line.tail := by
  by_cases hstar : byte '*' ∈ line.tail
  · have hline : byte '*' ∈ line := List.mem_of_mem_tail hstar
    have hsum := sumLoop_of_mem hstar 0
    simp only [rpNmeaValidChecksum, strchr_eq_dropWhile hline, hsum, Option.bind_eq_bind,
      Option.bind_some]
    split <;> simp [hstar]
  · have hsum := (sumLoop_eq_none_iff line.tail 0).mpr hstar
    simp only [rpNmeaValidChecksum, hsum, Option.bind_eq_bind, Option.bind_none]
    simp [hstar]

theorem rpNmeaValidChecksum_of_mem {line : CString} (h : byte '*' ∈ line.tail) :
    rpNmeaValidChecksum line =
      some (if xorSum (covered line) = encoded line then empty else nmeaChecksumErr) := by
  have hline : byte '*' ∈ line := List.mem_of_mem_tail h
  have hsum : sumLoop line.tail 0 = some (xorSum (covered line)) := by
    rw [sumLoop_of_mem h]
    exact congrArg some (BitVec.zero_xor)
  have hnumber : BitVec.ofInt 8 (strtol16 (line.dropWhile (· ≠ byte '*')).tail) = encoded line :=
    rfl
  simp only [rpNmeaValidChecksum, strchr_eq_dropWhile hline, hsum, hnumber,
    Option.bind_eq_bind, Option.bind_some]
  by_cases heq : xorSum (covered line) = encoded line
  · rw [if_pos heq, if_neg (not_not.mpr heq)]
    rfl
  · rw [if_neg heq, if_pos heq]
    rfl

/-! ## Lines with a checksum -/

/-- `$`, the payload, `*`, two hexadecimal digits, and a carriage return if there is one. -/
structure Framed where
  payload : CString
  hi : Byte
  lo : Byte
  cr : Bool
  payload_star : byte '*' ∉ payload
  payload_nul : 0 ∉ payload
  hi_digit : (hexDigit hi).isSome
  lo_digit : (hexDigit lo).isSome

namespace Framed

variable (f : Framed)

def line : CString :=
  byte '$' :: (f.payload ++ byte '*' :: f.hi :: f.lo :: if f.cr then [0x0D] else [])

/-- `$GPGGA,120000*79` with a carriage return. -/
def noon : Framed where
  payload := text "GPGGA,120000"
  hi := byte '7'
  lo := byte '9'
  cr := true
  payload_star := by decide
  payload_nul := by decide
  hi_digit := by decide
  lo_digit := by decide

/-- The number that the two digits denote. -/
def number : ℕ := 16 * (hexDigit f.hi).get f.hi_digit + (hexDigit f.lo).get f.lo_digit

def Accepted : Prop := rpNmeaValidChecksum f.line = some empty
def Rejected : Prop := rpNmeaValidChecksum f.line = some nmeaChecksumErr

/-- Another byte in one place of the payload. -/
def replace (k : ℕ) (b : Byte) (hstar : b ≠ byte '*') (hnul : b ≠ 0) : Framed where
  payload := f.payload.set k b
  hi := f.hi
  lo := f.lo
  cr := f.cr
  payload_star := fun h => (List.mem_or_eq_of_mem_set h).elim f.payload_star fun h => hstar h.symm
  payload_nul := fun h => (List.mem_or_eq_of_mem_set h).elim f.payload_nul fun h => hnul h.symm
  hi_digit := f.hi_digit
  lo_digit := f.lo_digit

theorem star_mem_tail : byte '*' ∈ f.line.tail := by simp [line]

theorem covered_line : covered f.line = f.payload := by
  have hne : ∀ c ∈ f.payload, (decide (c ≠ byte '*')) = true := by
    intro c hc
    have : c ≠ byte '*' := fun heq => f.payload_star (heq ▸ hc)
    simpa using this
  rw [covered, line, List.tail_cons, List.takeWhile_append_of_pos hne]
  simp

theorem encoded_line : encoded f.line = BitVec.ofNat 8 f.number := by
  have hne : ∀ c ∈ byte '$' :: f.payload, (decide (c ≠ byte '*')) = true := by
    intro c hc
    have : c ≠ byte '*' := by
      rcases List.mem_cons.mp hc with rfl | hc
      · decide
      · exact fun heq => f.payload_star (heq ▸ hc)
    simpa using this
  have hstop : ∀ n, hexValue n (if f.cr then [0x0D] else []) = n := by
    intro n
    cases f.cr with
    | false => rfl
    | true =>
      have hcr : hexDigit 0x0D#8 = none := by decide
      simp [hexValue, hcr]
  have hvalue := strtol16_pair (Option.some_get f.hi_digit).symm (Option.some_get f.lo_digit).symm
    (hstop _)
  have hdrop : (f.line.dropWhile (· ≠ byte '*')).tail =
      f.hi :: f.lo :: if f.cr then [0x0D] else [] := by
    rw [line, ← List.cons_append, List.dropWhile_append_of_pos hne]
    simp
  rw [encoded, hdrop, hvalue, number]
  exact_mod_cast BitVec.ofInt_natCast 8 _

theorem number_lt : f.number < 2 ^ 8 := by
  have hhi := (hexDigit_plain f.hi _ (Option.get_mem f.hi_digit)).1
  have hlo := (hexDigit_plain f.lo _ (Option.get_mem f.lo_digit)).1
  rw [number]
  omega

/-- The digits decide. -/
theorem rpNmeaValidChecksum_line : rpNmeaValidChecksum f.line =
    some (if f.number = (xorSum f.payload).toNat then empty else nmeaChecksumErr) := by
  have hiff : xorSum f.payload = BitVec.ofNat 8 f.number ↔ f.number = (xorSum f.payload).toNat := by
    rw [← BitVec.toNat_inj, BitVec.toNat_ofNat, Nat.mod_eq_of_lt f.number_lt, eq_comm]
  rw [rpNmeaValidChecksum_of_mem f.star_mem_tail, covered_line, encoded_line]
  simp only [hiff]

theorem accepted_iff : f.Accepted ↔ f.number = (xorSum f.payload).toNat := by
  rw [Accepted, rpNmeaValidChecksum_line]
  split <;> simp_all [empty, nmeaChecksumErr]

theorem rejected_iff : f.Rejected ↔ f.number ≠ (xorSum f.payload).toNat := by
  rw [Rejected, rpNmeaValidChecksum_line]
  split <;> simp_all [empty, nmeaChecksumErr]

/-- A line is accepted exactly when its digits are the exclusive or of the payload, and then
no line with another byte in one place of the payload is. -/
theorem checksum_protects : (f.Accepted ↔ f.number = (xorSum f.payload).toNat) ∧
    (f.Accepted → ∀ (k : ℕ) (hk : k < f.payload.length) (b : Byte) (hstar : b ≠ byte '*')
      (hnul : b ≠ 0), b ≠ f.payload[k] → (f.replace k b hstar hnul).Rejected) := by
  refine ⟨f.accepted_iff, fun hacc k hk b hstar hnul hne => ?_⟩
  rw [accepted_iff] at hacc
  rw [rejected_iff]
  intro heq
  have hsum : xorSum (f.payload.set k b) = xorSum f.payload := by
    apply BitVec.eq_of_toNat_eq
    rw [← hacc]
    exact heq.symm
  exact xorSum_set_ne f.payload hk hne hsum

example : noon.number = 0x79 ∧ noon.Accepted ∧
    (noon.replace 6 (byte '2') (by decide) (by decide)).Rejected := by
  simp only [accepted_iff, rejected_iff]
  decide

end Framed

end LagoEcosystem.Gps
