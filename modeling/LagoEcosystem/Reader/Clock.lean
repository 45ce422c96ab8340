import LagoEcosystem.Library.Calendar
import LagoEcosystem.Reader.Decode

/-!
# The clock of the reader

What `read_buffer` (v1_5) does with a time word. The broken-down time `fileDate` is
advanced by hand when there is no GPS and overwritten by the bytes of the word when there
is one, then normalised by `timegm` and `gmtime` and printed.

The calendar is a parameter.
-/

namespace LagoEcosystem.Reader

open CivilTime

/-- What a time word produces. -/
inductive ClockEvent where
  /-- `new_file` opens the file of this hour. -/
  | newFile (tm : Tm)
  /-- `# x h`, with the seconds since the epoch and the low bits of the word. -/
  | time (tm : Tm) (fileTime : ℤ) (raw : ℕ)

/-- The clock of the reader. -/
structure Clock where
  fileTime : ℤ
  fileDate : Tm
  falseGPS : Bool
  fToStdout : Bool

section

variable (cal : Calendar)

/-- `fileTime=timegm(fileDate); fileDate=gmtime(&fileTime);` -/
def Clock.normalise (c : Clock) : Clock :=
  { c with fileTime := cal.timegm c.fileDate, fileDate := cal.gmtime (cal.timegm c.fileDate) }

/-- `new_file` for a file, the part that the clock sees. -/
def Clock.newFile (c : Clock) : Clock × List ClockEvent :=
  (c.normalise cal, [.newFile (c.normalise cal).fileDate])

/-- `if (!fToStdout) new_file();` -/
def Clock.newFileUnlessStdout (c : Clock) : Clock × List ClockEvent :=
  if c.fToStdout then (c, []) else c.newFile cal

/-- The branch without GPS, up to the common part. -/
def Clock.tickFalseGps (c : Clock) : Clock × List ClockEvent :=
  let c := { c with fileDate.sec := c.fileDate.sec + 1 }
  if c.fileDate.sec = 60 ∧ c.fileDate.min = 59 then c.newFileUnlessStdout cal
  else (c.normalise cal, [])

/-- The branch with GPS, up to the common part. The hour is compared as an unsigned
number. -/
def Clock.tickGps (c : Clock) (hour min sec : ℕ) : Clock × List ClockEvent :=
  let tmHour := (BitVec.ofInt 32 c.fileDate.hour).toNat
  let (c, events) :=
    if tmHour ≠ hour then
      let c := if tmHour > hour then { c with fileDate.mday := c.fileDate.mday + 1 } else c
      { c with fileDate.hour := hour }.newFileUnlessStdout cal
    else (c, [])
  ({ c with
      fileDate.hour := hour
      fileDate.min := min
      fileDate.sec := sec }, events)

/-- The case `0x1B` of `read_buffer`. -/
def Clock.time (c : Clock) (hour min sec raw : ℕ) : Clock × List ClockEvent :=
  let (c, events) := if c.falseGPS then c.tickFalseGps cal else c.tickGps cal hour min sec
  let c := c.normalise cal
  (c, events ++ [.time c.fileDate c.fileTime raw])

end

/-! ## The printed time of day -/

theorem Clock.tickGps_timeOfDay (cal : Calendar) (c : Clock) (hour min sec : ℕ) :
    (c.tickGps cal hour min sec).1.fileDate.hour = hour ∧
      (c.tickGps cal hour min sec).1.fileDate.min = min ∧
      (c.tickGps cal hour min sec).1.fileDate.sec = sec := ⟨rfl, rfl, rfl⟩

/-- With GPS time the bytes of the word are printed, carried over where they are out of
range. The date does not influence them, nor does a new file. -/
theorem Clock.time_gps (cal : Calendar) {c : Clock} (h : c.falseGPS = false)
    (hour min sec raw : ℕ) :
    (c.time cal hour min sec raw).1.fileDate.hour = (hour * 3600 + min * 60 + sec) / 3600 % 24 ∧
      (c.time cal hour min sec raw).1.fileDate.min = (hour * 3600 + min * 60 + sec) / 60 % 60 ∧
      (c.time cal hour min sec raw).1.fileDate.sec = (hour * 3600 + min * 60 + sec) % 60 := by
  have hdate : (c.time cal hour min sec raw).1.fileDate =
      cal.gmtime (cal.timegm (c.tickGps cal hour min sec).1.fileDate) := by
    simp only [Clock.time, h, Bool.false_eq_true, if_false, Clock.normalise]
  obtain ⟨hhour, hmin, hsec⟩ := c.tickGps_timeOfDay cal hour min sec
  have hcarry := cal.gmtime_timegm_timeOfDay (c.tickGps cal hour min sec).1.fileDate
  rw [hhour, hmin, hsec] at hcarry
  rw [hdate]
  exact hcarry

end LagoEcosystem.Reader
