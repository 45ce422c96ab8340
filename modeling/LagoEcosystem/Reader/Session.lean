import LagoEcosystem.Reader.Loop
import Mathlib.Data.List.Chain
import Mathlib.Data.List.Forall2

/-!
# The clock over a session

The clock of the reader from the first call on, for words that arrive in any calls. Without
GPS it starts at the time of the host and every time word is one second. With GPS only the
time of day is received; the date starts at a fixed one and goes on by a day whenever the
hour jumps back.
-/

namespace LagoEcosystem.Reader

open CivilTime Clocked

variable (cal : Calendar)

/-- The clock after a time was printed. -/
def Clock.showing (falseGPS fToStdout : Bool) (t : ℤ) : Clock :=
  ⟨t, cal.gmtime t, falseGPS, fToStdout⟩

/-- A file for the time `tm`, if the output goes to files and a new one is due. -/
def opened (fToStdout : Bool) (due : Prop) [Decidable due] (tm : Tm) : List ClockEvent :=
  if fToStdout = false ∧ due then [.newFile tm] else []

/-- The lines about the clock that a session writes. -/
def clockEvents (fToStdout : Bool) (bs : List Batch) : List ClockEvent :=
  (collect (readBuffer cal) (readBufferOutput cal) (Globals.start fToStdout) bs).filterMap
    Output.clock?

/-- The time words of a session. -/
def timeWords (bs : List Batch) : List TimeWord :=
  (bs.flatMap Batch.words).filterMap timeWord

variable {cal}

theorem Clock.normalise_eq {c : Clock} {t : ℤ} (h : cal.timegm c.fileDate = t) :
    c.normalise cal = Clock.showing cal c.falseGPS c.fToStdout t := by
  subst h
  rfl

theorem Clock.normalise_showing (falseGPS fToStdout : Bool) (t : ℤ) :
    (Clock.showing cal falseGPS fToStdout t).normalise cal =
      Clock.showing cal falseGPS fToStdout t := Clock.normalise_eq (cal.timegm_gmtime t)

/-- Opening a file normalises the clock, without a file it stays as it is. -/
theorem Clock.newFileUnlessStdout_eq {c : Clock} {t : ℤ} (h : cal.timegm c.fileDate = t) :
    c.newFileUnlessStdout cal =
      (if c.fToStdout then c else Clock.showing cal c.falseGPS c.fToStdout t,
        opened c.fToStdout True (cal.gmtime t)) := by
  unfold Clock.newFileUnlessStdout Clock.newFile
  rw [Clock.normalise_eq h]
  cases c.fToStdout <;> rfl

theorem Clock.newFile_showing (falseGPS fToStdout : Bool) (t : ℤ) :
    (Clock.showing cal falseGPS fToStdout t).newFileUnlessStdout cal =
      (Clock.showing cal falseGPS fToStdout t, opened fToStdout True (cal.gmtime t)) := by
  have htime : cal.timegm (Clock.showing cal falseGPS fToStdout t).fileDate = t :=
    cal.timegm_gmtime t
  rw [Clock.newFileUnlessStdout_eq htime]
  exact congrArg (·, _) (ite_self _)

/-- The common end of the case `0x1B`: the clock is normalised and printed. -/
def Clock.print (cal : Calendar) (r : Clock × List ClockEvent) (raw : ℕ) :
    Clock × List ClockEvent :=
  (r.1.normalise cal,
    r.2 ++ [.time (r.1.normalise cal).fileDate (r.1.normalise cal).fileTime raw])

theorem Clock.time_eq_print (c : Clock) (hour min sec raw : ℕ) :
    c.time cal hour min sec raw =
      Clock.print cal (if c.falseGPS then c.tickFalseGps cal else c.tickGps cal hour min sec) raw :=
  rfl

theorem Clock.print_eq {r : Clock × List ClockEvent} {falseGPS fToStdout : Bool} {t : ℤ}
    (h : r.1.normalise cal = Clock.showing cal falseGPS fToStdout t) (raw : ℕ) :
    Clock.print cal r raw =
      (Clock.showing cal falseGPS fToStdout t, r.2 ++ [.time (cal.gmtime t) t raw]) := by
  rw [Clock.print, h]
  rfl

/-- The lines about the clock come from the first file and the time words. -/
theorem clockEvents_cons {fToStdout : Bool} {b : Batch} {falseGPS : Bool} {t : ℤ}
    (h : (Globals.start fToStdout).clock.first cal b.noGps b.time =
      Clock.showing cal falseGPS fToStdout t) (bs : List Batch) :
    clockEvents cal fToStdout (b :: bs) =
      opened fToStdout True (cal.gmtime t) ++
        collect (Clock.next cal) (Clock.events cal) (Clock.showing cal falseGPS fToStdout t)
          (timeWords (b :: bs)) := by
  have hsetUp : (Globals.start fToStdout).setUp cal b =
      ({ Globals.start fToStdout with
          clock := Clock.showing cal falseGPS fToStdout t, fFirstTime := false },
        if fToStdout then [.header]
        else (opened fToStdout True (cal.gmtime t)).flatMap Output.ofClock) := by
    unfold Globals.setUp
    rw [h, Clock.newFile_showing]
    rfl
  rw [clockEvents, clock_events, hsetUp]
  congr 1
  cases fToStdout <;> rfl

/-! ## Without GPS -/

/-- What the time word of the second `t` writes without GPS. -/
def secondEvents (cal : Calendar) (fToStdout : Bool) (t : ℤ) (raw : ℕ) : List ClockEvent :=
  opened fToStdout (3600 ∣ t) (cal.gmtime t) ++ [.time (cal.gmtime t) t raw]

/-- `fileDate->tm_sec++`. -/
def Clock.secondLater (c : Clock) : Clock := { c with fileDate.sec := c.fileDate.sec + 1 }

theorem Clock.tickFalseGps_eq (c : Clock) :
    c.tickFalseGps cal =
      if c.secondLater.fileDate.sec = 60 ∧ c.secondLater.fileDate.min = 59 then
        c.secondLater.newFileUnlessStdout cal
      else (c.secondLater.normalise cal, []) := rfl

/-- One more second, carried over by `timegm`. -/
theorem timegm_secondLater (cal : Calendar) (falseGPS fToStdout : Bool) (t : ℤ) :
    cal.timegm (Clock.showing cal falseGPS fToStdout t).secondLater.fileDate = t + 1 := by
  have hday := cal.firstOf_add (t / 86400)
  simp only [Clock.secondLater, Clock.showing, Calendar.timegm, Calendar.gmtime]
  omega

/-- The test on the fields that are not yet carried over finds the full hours. -/
theorem hour_test_iff (cal : Calendar) (falseGPS fToStdout : Bool) (t : ℤ) :
    (Clock.showing cal falseGPS fToStdout t).secondLater.fileDate.sec = 60 ∧
        (Clock.showing cal falseGPS fToStdout t).secondLater.fileDate.min = 59 ↔
      3600 ∣ t + 1 := by
  simp only [Clock.secondLater, Clock.showing, Calendar.gmtime]
  omega

/-- The next second, before it is printed. -/
theorem Clock.tickFalseGps_showing (cal : Calendar) (fToStdout : Bool) (t : ℤ) :
    ((Clock.showing cal true fToStdout t).tickFalseGps cal).1.normalise cal =
        Clock.showing cal true fToStdout (t + 1) ∧
      ((Clock.showing cal true fToStdout t).tickFalseGps cal).2 =
        opened fToStdout (3600 ∣ t + 1) (cal.gmtime (t + 1)) := by
  have htime := timegm_secondLater cal true fToStdout t
  have htest := hour_test_iff cal true fToStdout t
  rw [Clock.tickFalseGps_eq]
  by_cases hdue : 3600 ∣ t + 1
  · rw [if_pos (htest.mpr hdue), Clock.newFileUnlessStdout_eq htime]
    refine ⟨?_, by simp [opened, hdue, Clock.secondLater, Clock.showing]⟩
    cases fToStdout with
    | true => exact Clock.normalise_eq htime
    | false => exact Clock.normalise_showing _ _ _
  · rw [if_neg (mt htest.mp hdue), Clock.normalise_eq htime]
    exact ⟨Clock.normalise_showing _ _ _, by simp [opened, hdue]⟩

/-- A time word without GPS. -/
theorem Clock.time_falseGps (fToStdout : Bool) (t : ℤ) (hour min sec raw : ℕ) :
    (Clock.showing cal true fToStdout t).time cal hour min sec raw =
      (Clock.showing cal true fToStdout (t + 1), secondEvents cal fToStdout (t + 1) raw) := by
  obtain ⟨hclock, hevents⟩ := Clock.tickFalseGps_showing cal fToStdout t
  rw [Clock.time_eq_print]
  exact (Clock.print_eq hclock raw).trans (congrArg (_, · ++ _) hevents)

theorem collect_falseGps (fToStdout : Bool) (t : ℤ) (n : ℕ) (ws : List TimeWord) :
    collect (Clock.next cal) (Clock.events cal) (Clock.showing cal true fToStdout (t + n)) ws =
      (ws.zipIdx (n + 1)).flatMap fun (w, k) => secondEvents cal fToStdout (t + k) w.raw := by
  induction ws generalizing n with
  | nil => rfl
  | cons w ws ih =>
    have hsucc : t + n + 1 = t + (n + 1 : ℕ) := by
      push_cast
      ring
    rw [collect_cons, Clock.next, Clock.events, Clock.time_falseGps, hsucc, ih, List.zipIdx_cons,
      List.flatMap_cons]

/-- Without GPS the time word with the number `k` shows the second `k` after the start. In
file mode a file is opened at the start and with every time word of a full hour. -/
theorem falseGps_clock (cal : Calendar) (fToStdout : Bool) (start : ℤ) (ws : List (BitVec 32))
    (bs : List Batch) :
    clockEvents cal fToStdout (⟨true, start, ws⟩ :: bs) =
      opened fToStdout True (cal.gmtime start) ++
        ((timeWords (⟨true, start, ws⟩ :: bs)).zipIdx 1).flatMap fun (w, k) =>
          secondEvents cal fToStdout (start + k) w.raw := by
  have hfirst : (Globals.start fToStdout).clock.first cal true start =
      Clock.showing cal true fToStdout start := rfl
  rw [clockEvents_cons hfirst]
  congr 1
  simpa using collect_falseGps fToStdout start 0 (timeWords (⟨true, start, ws⟩ :: bs))

/-! ## With GPS -/

/-- The bytes of a time word are the time of day of `t`. -/
def TimeWord.ReadsAs (w : TimeWord) (t : ℤ) : Prop :=
  w.hour = t / 3600 % 24 ∧ w.min = t / 60 % 60 ∧ w.sec = t % 60

/-- The date goes on by a day when the hour jumps back, else it stays. -/
def Follows (p t : ℤ) : Prop :=
  t / 86400 = p / 86400 + if t / 3600 % 24 < p / 3600 % 24 then 1 else 0

/-- What the time word of the second `t` writes with GPS, after the one of the second `p`. A
file is named when the minutes and seconds are still the old ones. -/
def gpsEvents (cal : Calendar) (fToStdout : Bool) (p t : ℤ) (raw : ℕ) : List ClockEvent :=
  opened fToStdout (p / 3600 ≠ t / 3600) (cal.gmtime (t - t % 3600 + p % 3600)) ++
    [.time (cal.gmtime t) t raw]

/-- The hour of the word, and the next day if it is an earlier one. -/
def Clock.atHour (c : Clock) (hour : ℕ) : Clock :=
  let c := if (BitVec.ofInt 32 c.fileDate.hour).toNat > hour then
    { c with fileDate.mday := c.fileDate.mday + 1 } else c
  { c with fileDate.hour := hour }

def Clock.setTime (c : Clock) (hour min sec : ℕ) : Clock :=
  { c with
    fileDate.hour := hour
    fileDate.min := min
    fileDate.sec := sec }

theorem Clock.tickGps_eq (c : Clock) (hour min sec : ℕ) :
    c.tickGps cal hour min sec =
      if (BitVec.ofInt 32 c.fileDate.hour).toNat ≠ hour then
        (((c.atHour hour).newFileUnlessStdout cal).1.setTime hour min sec,
          ((c.atHour hour).newFileUnlessStdout cal).2)
      else (c.setTime hour min sec, []) := by
  unfold Clock.tickGps
  dsimp only
  split <;> rfl

/-- The hour the clock shows, as the unsigned number it is compared as. -/
theorem toNat_hour (p : ℤ) : ((BitVec.ofInt 32 (p / 3600 % 24)).toNat : ℤ) = p / 3600 % 24 := by
  rw [BitVec.toNat_ofInt]
  omega

/-- The date after the step to the next hour. -/
theorem dayOf_atHour (cal : Calendar) {p t : ℤ} {hour : ℕ} (hhour : hour = t / 3600 % 24)
    (hf : Follows p t) (falseGPS fToStdout : Bool) :
    cal.dayOf ((Clock.showing cal falseGPS fToStdout p).atHour hour).fileDate = t / 86400 := by
  have hp := toNat_hour p
  have hday := cal.dayOf_gmtime p
  unfold Follows at hf
  by_cases hback : t / 3600 % 24 < p / 3600 % 24
  · have htest : (BitVec.ofInt 32 (p / 3600 % 24)).toNat > hour := by omega
    rw [if_pos hback] at hf
    rw [hf, ← hday]
    simp only [Clock.atHour, Clock.showing, Calendar.gmtime, htest, if_true, Calendar.dayOf]
    ring
  · have htest : ¬ (BitVec.ofInt 32 (p / 3600 % 24)).toNat > hour := by omega
    rw [if_neg hback, add_zero] at hf
    rw [hf, ← hday]
    simp only [Clock.atHour, Clock.showing, Calendar.gmtime, htest, if_false, Calendar.dayOf]

/-- The name of a new file: the hour of the word, the minutes and seconds from before. -/
theorem timegm_atHour (cal : Calendar) {p t : ℤ} {hour : ℕ} (hhour : hour = t / 3600 % 24)
    (hf : Follows p t) (falseGPS fToStdout : Bool) :
    cal.timegm ((Clock.showing cal falseGPS fToStdout p).atHour hour).fileDate =
      t - t % 3600 + p % 3600 := by
  have hrest : ((Clock.showing cal falseGPS fToStdout p).atHour hour).fileDate.hour = hour ∧
      ((Clock.showing cal falseGPS fToStdout p).atHour hour).fileDate.min = p / 60 % 60 ∧
      ((Clock.showing cal falseGPS fToStdout p).atHour hour).fileDate.sec = p % 60 := by
    unfold Clock.atHour
    split <;> exact ⟨rfl, rfl, rfl⟩
  rw [cal.timegm_eq, dayOf_atHour cal hhour hf, hrest.1, hrest.2.1, hrest.2.2, hhour]
  omega

/-- The time of day of a word behind its date. -/
theorem timegm_setTime {w : TimeWord} {t : ℤ} (hw : w.ReadsAs t) {c : Clock}
    (h : cal.dayOf c.fileDate = t / 86400) :
    cal.timegm (c.setTime w.hour w.min w.sec).fileDate = t := by
  obtain ⟨hhour, hmin, hsec⟩ := hw
  have hday : cal.dayOf (c.setTime w.hour w.min w.sec).fileDate = t / 86400 := h
  rw [cal.timegm_eq, hday]
  simp only [Clock.setTime, hhour, hmin, hsec]
  omega

/-- Within the hour only the minutes and seconds are set. -/
theorem Clock.tickGps_sameHour (cal : Calendar) {w : TimeWord} {p t : ℤ} (hw : w.ReadsAs t)
    (hf : Follows p t) (hsame : p / 3600 % 24 = t / 3600 % 24) (fToStdout : Bool) :
    ((Clock.showing cal false fToStdout p).tickGps cal w.hour w.min w.sec).1.normalise cal =
        Clock.showing cal false fToStdout t ∧
      ((Clock.showing cal false fToStdout p).tickGps cal w.hour w.min w.sec).2 = [] := by
  have hp : ((BitVec.ofInt 32 (Clock.showing cal false fToStdout p).fileDate.hour).toNat : ℤ) =
      p / 3600 % 24 := toNat_hour p
  have hhour := hw.1
  have hdate : p / 86400 = t / 86400 := by
    rw [Follows, hsame, if_neg (lt_irrefl _), add_zero] at hf
    exact hf.symm
  rw [Clock.tickGps_eq, if_neg (by omega)]
  exact ⟨Clock.normalise_eq (timegm_setTime hw ((cal.dayOf_gmtime p).trans hdate)), rfl⟩

/-- In another hour a file is opened between the steps to the hour and to the time. -/
theorem Clock.tickGps_otherHour (cal : Calendar) {w : TimeWord} {p t : ℤ} (hw : w.ReadsAs t)
    (hf : Follows p t) (hother : p / 3600 % 24 ≠ t / 3600 % 24) (fToStdout : Bool) :
    ((Clock.showing cal false fToStdout p).tickGps cal w.hour w.min w.sec).1.normalise cal =
        Clock.showing cal false fToStdout t ∧
      ((Clock.showing cal false fToStdout p).tickGps cal w.hour w.min w.sec).2 =
        opened fToStdout True (cal.gmtime (t - t % 3600 + p % 3600)) := by
  have hp : ((BitVec.ofInt 32 (Clock.showing cal false fToStdout p).fileDate.hour).toNat : ℤ) =
      p / 3600 % 24 := toNat_hour p
  have hhour := hw.1
  have hday := dayOf_atHour cal hhour hf false fToStdout
  have hname := timegm_atHour cal hhour hf false fToStdout
  have hflags : ((Clock.showing cal false fToStdout p).atHour w.hour).falseGPS = false ∧
      ((Clock.showing cal false fToStdout p).atHour w.hour).fToStdout = fToStdout := by
    unfold Clock.atHour
    split <;> exact ⟨rfl, rfl⟩
  rw [Clock.tickGps_eq, if_pos (by omega), Clock.newFileUnlessStdout_eq hname, hflags.1, hflags.2]
  refine ⟨?_, rfl⟩
  cases fToStdout with
  | true =>
    refine (Clock.normalise_eq (timegm_setTime hw hday)).trans ?_
    exact congrArg₂ (Clock.showing cal · · t) hflags.1 hflags.2
  | false =>
    -- the file was named within the hour of the word
    have hday' : cal.dayOf (cal.gmtime (t - t % 3600 + p % 3600)) = t / 86400 := by
      rw [cal.dayOf_gmtime]
      omega
    exact Clock.normalise_eq (timegm_setTime hw hday')

/-- The time of the word, before it is printed. -/
theorem Clock.tickGps_showing (cal : Calendar) {w : TimeWord} {p t : ℤ} (hw : w.ReadsAs t)
    (hf : Follows p t) (fToStdout : Bool) :
    ((Clock.showing cal false fToStdout p).tickGps cal w.hour w.min w.sec).1.normalise cal =
        Clock.showing cal false fToStdout t ∧
      ((Clock.showing cal false fToStdout p).tickGps cal w.hour w.min w.sec).2 =
        opened fToStdout (p / 3600 ≠ t / 3600) (cal.gmtime (t - t % 3600 + p % 3600)) := by
  by_cases hsame : p / 3600 % 24 = t / 3600 % 24
  · have hdue : ¬ (p / 3600 ≠ t / 3600) := by
      unfold Follows at hf
      rw [hsame, if_neg (lt_irrefl _)] at hf
      omega
    simpa [opened, hdue] using Clock.tickGps_sameHour cal hw hf hsame fToStdout
  · have hdue : p / 3600 ≠ t / 3600 := by omega
    simpa [opened, hdue] using Clock.tickGps_otherHour cal hw hf hsame fToStdout

/-- A time word with GPS. -/
theorem Clock.time_gps_showing {w : TimeWord} {p t : ℤ} (hw : w.ReadsAs t) (hf : Follows p t)
    (fToStdout : Bool) :
    (Clock.showing cal false fToStdout p).time cal w.hour w.min w.sec w.raw =
      (Clock.showing cal false fToStdout t, gpsEvents cal fToStdout p t w.raw) := by
  obtain ⟨hclock, hevents⟩ := Clock.tickGps_showing cal hw hf fToStdout
  rw [Clock.time_eq_print]
  exact (Clock.print_eq hclock w.raw).trans (congrArg (_, · ++ _) hevents)

theorem collect_gps (fToStdout : Bool) {ws : List TimeWord} {ts : List ℤ}
    (hws : List.Forall₂ TimeWord.ReadsAs ws ts) {p : ℤ} (hts : (p :: ts).IsChain Follows) :
    collect (Clock.next cal) (Clock.events cal) (Clock.showing cal false fToStdout p) ws =
      (ws.zip ((p :: ts).zip ts)).flatMap fun (w, p, t) =>
        gpsEvents cal fToStdout p t w.raw := by
  induction hws generalizing p with
  | nil => rfl
  | cons hw _ ih =>
    obtain ⟨hf, hrest⟩ := List.isChain_cons_cons.mp hts
    rw [collect_cons, Clock.next, Clock.events, Clock.time_gps_showing hw hf, ih hrest,
      List.zip_cons_cons, List.zip_cons_cons, List.flatMap_cons]

/-- Less than 23 hours on, the hour jumps back when midnight has passed and never else. -/
theorem follows_of_lt {p t : ℤ} (h : p < t ∧ t - p < 23 * 3600) : Follows p t := by
  unfold Follows
  split <;> omega

theorem follows_add {shift : ℤ} (hshift : 86400 ∣ shift) {p t : ℤ} :
    Follows (p + shift) (t + shift) ↔ Follows p t := by
  obtain ⟨days, rfl⟩ := hshift
  have hp : (p + 86400 * days) / 3600 % 24 = p / 3600 % 24 := by omega
  have ht : (t + 86400 * days) / 3600 % 24 = t / 3600 % 24 := by omega
  unfold Follows
  rw [hp, ht]
  split <;> omega

theorem readsAs_add {shift : ℤ} (hshift : 86400 ∣ shift) {w : TimeWord} {t : ℤ} :
    w.ReadsAs (t + shift) ↔ w.ReadsAs t := by
  obtain ⟨days, rfl⟩ := hshift
  have hhour : (t + 86400 * days) / 3600 % 24 = t / 3600 % 24 := by omega
  have hmin : (t + 86400 * days) / 60 % 60 = t / 60 % 60 := by omega
  have hsec : (t + 86400 * days) % 60 = t % 60 := by omega
  unfold TimeWord.ReadsAs
  rw [hhour, hmin, hsec]

/-- The first time word finds a date for its time of day. -/
theorem exists_follows (p t : ℤ) : ∃ shift, 86400 ∣ shift ∧ Follows p (t + shift) := by
  by_cases hback : t / 3600 % 24 < p / 3600 % 24
  · refine ⟨(p / 86400 + 1 - t / 86400) * 86400, Dvd.intro_left _ rfl, ?_⟩
    unfold Follows
    split <;> omega
  · refine ⟨(p / 86400 - t / 86400) * 86400, Dvd.intro_left _ rfl, ?_⟩
    unfold Follows
    split <;> omega

/-- The date that the reader starts from with GPS, which stands in for the actual one. -/
def startDate (cal : Calendar) : ℤ := cal.timegm ⟨55, 55, 10, 29, 8, 2018⟩

/-- With GPS, for time words that come at the times `ts`, less than 23 hours apart: the times
shown are these, up to the same number of days for all of them. In file mode a file is opened
at the start and with every time word whose hour is not that of the one before. -/
theorem gps_clock (cal : Calendar) (fToStdout : Bool) (time : ℤ) (ws : List (BitVec 32))
    (bs : List Batch) {ts : List ℤ}
    (hws : List.Forall₂ TimeWord.ReadsAs (timeWords (⟨false, time, ws⟩ :: bs)) ts)
    (hts : ts.IsChain fun t u => t < u ∧ u - t < 23 * 3600) :
    ∃ shift : ℤ, 86400 ∣ shift ∧
      clockEvents cal fToStdout (⟨false, time, ws⟩ :: bs) =
        opened fToStdout True (cal.gmtime (startDate cal)) ++
          ((timeWords (⟨false, time, ws⟩ :: bs)).zip
            ((startDate cal :: ts.map (· + shift)).zip (ts.map (· + shift)))).flatMap
              fun (w, p, t) => gpsEvents cal fToStdout p t w.raw := by
  obtain ⟨shift, hshift, hfirst⟩ : ∃ shift, 86400 ∣ shift ∧
      ∀ t ∈ ts.head?, Follows (startDate cal) (t + shift) := by
    cases ts with
    | nil => exact ⟨0, dvd_zero _, by simp⟩
    | cons t ts => simpa using exists_follows (startDate cal) t
  refine ⟨shift, hshift, ?_⟩
  have hchain : (startDate cal :: ts.map (· + shift)).IsChain Follows := by
    rw [List.isChain_cons]
    refine ⟨by simpa using hfirst, (List.isChain_map _).mpr ?_⟩
    exact hts.imp fun t u h => (follows_add hshift).mpr (follows_of_lt h)
  have hreads : List.Forall₂ TimeWord.ReadsAs (timeWords (⟨false, time, ws⟩ :: bs))
      (ts.map (· + shift)) :=
    List.forall₂_map_right_iff.mpr (hws.imp fun w t h => (readsAs_add hshift).mpr h)
  have hstart : (Globals.start fToStdout).clock.first cal false time =
      Clock.showing cal false fToStdout (startDate cal) := rfl
  rw [clockEvents_cons hstart]
  congr 1
  exact collect_gps fToStdout hreads hchain

/-- The last second of a day and the first of the next one, in file mode. -/
theorem gps_clock_midnight :
    List.Forall₂ TimeWord.ReadsAs (timeWords [⟨false, 0, [0xD8173B3B#32, 0xD8000000#32]⟩])
        [86399, 86400] ∧
      ∃ shift : ℤ, 86400 ∣ shift ∧
        clockEvents gregorian false [⟨false, 0, [0xD8173B3B#32, 0xD8000000#32]⟩] =
          opened false True (gregorian.gmtime (startDate gregorian)) ++
            ((timeWords [⟨false, 0, [0xD8173B3B#32, 0xD8000000#32]⟩]).zip
              ((startDate gregorian :: [86399, 86400].map (· + shift)).zip
                ([86399, 86400].map (· + shift)))).flatMap
                  fun (w, p, t) => gpsEvents gregorian false p t w.raw := by
  have hwords : timeWords [⟨false, 0, [0xD8173B3B#32, 0xD8000000#32]⟩] =
      [⟨23, 59, 59, 0x173B3B⟩, ⟨0, 0, 0, 0⟩] := by decide +kernel
  have hreads : List.Forall₂ TimeWord.ReadsAs
      (timeWords [⟨false, 0, [0xD8173B3B#32, 0xD8000000#32]⟩]) [86399, 86400] := by
    rw [hwords]
    refine .cons ⟨?_, ?_, ?_⟩ (.cons ⟨?_, ?_, ?_⟩ .nil) <;> decide
  exact ⟨hreads, gps_clock gregorian false 0 _ [] hreads (by decide)⟩

end LagoEcosystem.Reader
