import LagoEcosystem.Library.Clocked
import LagoEcosystem.Reader.Clock
import Mathlib.Data.Fin.VecNotation

/-!
# The loop of the reader

`read_buffer` (v1_5) with its global variables: what the first call sets up, what the loop
does with every word, and what it writes. Where in the buffer the words of a call are does
not matter here; a call is given by the words that its loop visits.

The limits between calls leave no trace. The clock heeds the time words only, and so do the
counts of pulses with the counter words, so each of the two runs on its own.
-/

namespace LagoEcosystem.Reader

open CivilTime Clocked

/-! ## Global variables -/

/-- The count of missing pulses: `mtd_pulse_cnt`, `mtd_pulse_pnt`, `mtd_dp` and `mtd_cdp`. -/
structure Pulses where
  mtdPulseCnt : BitVec 32
  mtdPulsePnt : BitVec 32
  mtdDp : BitVec 32
  mtdCdp : BitVec 32

/-- The variables that `read_buffer` keeps from call to call, but for its place in the
buffer. -/
structure Globals where
  fFirstTime : Bool
  clock : Clock
  pulses : Pulses
  mtdSeconds : BitVec 32
  mtdIBin : BitVec 32
  mtdBl : Fin 2 → BitVec 32
  mtdBl2 : Fin 2 → BitVec 32
  mtdCbl : BitVec 32
  r : Fin 8 → BitVec 32
  r1 : BitVec 32
  r2 : BitVec 32
  hack : BitVec 32
  gpsLat : ℚ
  gpsLon : ℚ
  gpsAlt : ℚ

/-- The initial values. `fileDate` points nowhere before the first call. -/
def Globals.start (fToStdout : Bool) : Globals where
  fFirstTime := true
  clock := ⟨0, ⟨0, 0, 0, 0, 0, 0⟩, false, fToStdout⟩
  pulses := ⟨0, 0, 0, 0⟩
  mtdSeconds := 0
  mtdIBin := 0
  mtdBl _ := 0
  mtdBl2 _ := 0
  mtdCbl := 0
  r _ := 0
  r1 := 0
  r2 := 0
  hack := 0
  gpsLat := 0
  gpsLon := 0
  gpsAlt := 0

/-- What `read_buffer` writes. -/
inductive Output where
  | clock (e : ClockEvent)
  /-- `# v` and the comments below it, which `new_file` writes at the top -/
  | header
  /-- the line of a record -/
  | line (r : Record)
  /-- `# x g`, with the position that came over the serial port -/
  | position
  /-- `# x v` and `# p`, with the number of the second, and the rates for the terminal -/
  | second (hack r1 r2 : BitVec 32)

/-- The header follows when a file is opened. -/
def Output.ofClock : ClockEvent → List Output
  | .newFile tm => [.clock (.newFile tm), .header]
  | .time tm fileTime raw => [.clock (.time tm fileTime raw)]

/-! ## Words -/

/-- The branch of the counter words. -/
def Pulses.next (p : Pulses) (cnt : ℕ) : Pulses :=
  let mtdPulsePnt := p.mtdPulseCnt
  let mtdPulseCnt := BitVec.ofNat 32 cnt
  let mtdDp := mtdPulseCnt - mtdPulsePnt - 1
  { mtdPulseCnt, mtdPulsePnt, mtdDp
    mtdCdp := if 0 < mtdDp.toInt ∧ mtdPulsePnt ≠ 0 then p.mtdCdp + mtdDp else p.mtdCdp }

/-- The branch of the samples, which takes the second one of a frame for the base line. -/
def Globals.sample (gl : Globals) (wo : BitVec 32) : Globals :=
  let ch : Fin 2 → BitVec 32 := ![(ch0 wo).signExtend 32, (ch1 wo).signExtend 32]
  let gl := { gl with mtdIBin := gl.mtdIBin + 1 }
  if gl.mtdIBin = 1 then
    { gl with
      mtdBl := fun k => gl.mtdBl k + ch k
      mtdBl2 := fun k => gl.mtdBl2 k + ch k * ch k
      mtdCbl := gl.mtdCbl + 1 }
  else gl

section

variable (cal : Calendar)

/-- The loop body, and what it writes. -/
def Globals.word (gl : Globals) (wo : BitVec 32) : Globals × List Output :=
  match decode wo with
  | .sample x y => (gl.sample wo, [.line (.sample x y)])
  | .trigger mask clk =>
    ({ gl with r := fun trig => if trig.val = mask then gl.r trig + 1 else gl.r trig, mtdIBin := 0 },
      [.line (.trigger mask clk)])
  | .counter cnt => ({ gl with pulses := gl.pulses.next cnt }, [.line (.counter cnt)])
  | .time hour min sec raw =>
    let (clock, events) := gl.clock.time cal hour min sec raw
    ({ gl with clock, mtdSeconds := gl.mtdSeconds + 1, hack := gl.hack + 1 },
      events.flatMap Output.ofClock ++ [.second gl.hack gl.r1 gl.r2])
  | .latitude deg => ({ gl with gpsLat := deg }, [])
  | .longitude deg => ({ gl with gpsLon := deg }, [])
  | .altitude metres => ({ gl with gpsAlt := metres }, [.position])
  | .otherGps => (gl, [])
  | .rate1 cnt => ({ gl with r1 := BitVec.ofNat 32 cnt }, [.line (.rate1 cnt)])
  | .rate2 cnt => ({ gl with r2 := BitVec.ofNat 32 cnt }, [.line (.rate2 cnt)])
  | .frequency clk => (gl, [.line (.frequency clk)])
  | .temperature => (gl, [.line .temperature])
  | .pressure => (gl, [.line .pressure])
  | .unknown tag => (gl, [.line (.unknown tag)])

def Globals.next (gl : Globals) (wo : BitVec 32) : Globals := (gl.word cal wo).1
def Globals.written (gl : Globals) (wo : BitVec 32) : List Output := (gl.word cal wo).2

/-! ## Calls -/

/-- What a call finds: bit 4 of `CFG_RESET_GRAL`, the time of the host, and the words that
its loop visits. -/
structure Batch where
  noGps : Bool
  time : ℤ
  words : List (BitVec 32)

/-- The clock after `if (fFirstTime)`, before `new_file`. -/
def Clock.first (c : Clock) (noGps : Bool) (time : ℤ) : Clock :=
  if noGps then { c with fileTime := time, fileDate := cal.gmtime time, falseGPS := true }
  else
    { c with
      fileTime := time
      fileDate := { cal.gmtime time with
        sec := 55
        min := 55
        hour := 10
        mday := 29
        mon := 8
        year := 2018 } }.normalise cal

/-- `if (fFirstTime) { .. }`, with its `new_file`. -/
def Globals.setUp (gl : Globals) (b : Batch) : Globals × List Output :=
  if gl.fFirstTime then
    let (clock, events) := (gl.clock.first cal b.noGps b.time).newFileUnlessStdout cal
    ({ gl with clock, fFirstTime := false },
      if gl.clock.fToStdout then [.header] else events.flatMap Output.ofClock)
  else (gl, [])

/-- `read_buffer`. -/
def readBuffer (gl : Globals) (b : Batch) : Globals :=
  run (Globals.next cal) (gl.setUp cal b).1 b.words

/-- What `read_buffer` writes. -/
def readBufferOutput (gl : Globals) (b : Batch) : List Output :=
  (gl.setUp cal b).2 ++ collect (Globals.next cal) (Globals.written cal) (gl.setUp cal b).1 b.words

end

/-! ## The limits between calls -/

section

variable {cal : Calendar}

/-- A sample only changes what belongs to the base line. -/
theorem Globals.sample_frame (gl : Globals) (wo : BitVec 32) :
    (gl.sample wo).fFirstTime = gl.fFirstTime ∧ (gl.sample wo).clock = gl.clock ∧
      (gl.sample wo).pulses = gl.pulses := by
  unfold Globals.sample
  dsimp only
  split <;> exact ⟨rfl, rfl, rfl⟩

theorem Globals.next_fFirstTime (gl : Globals) (wo : BitVec 32) :
    (gl.next cal wo).fFirstTime = gl.fFirstTime := by
  unfold Globals.next Globals.word
  cases decode wo with
  | sample => exact (gl.sample_frame wo).1
  | _ => rfl

theorem Globals.setUp_of_not_first {gl : Globals} (h : gl.fFirstTime = false) (b : Batch) :
    gl.setUp cal b = (gl, []) := by
  unfold Globals.setUp
  rw [h]
  rfl

theorem Globals.setUp_fFirstTime (cal : Calendar) (gl : Globals) (b : Batch) :
    (gl.setUp cal b).1.fFirstTime = false := by
  unfold Globals.setUp
  split
  · rfl
  · rename_i h
    exact Bool.not_eq_true _ ▸ h

theorem Globals.run_fFirstTime (cal : Calendar) {gl : Globals} (h : gl.fFirstTime = false)
    (ws : List (BitVec 32)) :
    (run (Globals.next cal) gl ws).fFirstTime = false := by
  induction ws generalizing gl with
  | nil => exact h
  | cons wo ws ih => exact ih ((gl.next_fFirstTime wo).trans h)

/-- After the first call only the words matter. -/
theorem run_readBuffer_of_not_first {gl : Globals} (h : gl.fFirstTime = false) (bs : List Batch) :
    run (readBuffer cal) gl bs = run (Globals.next cal) gl (bs.flatMap Batch.words) ∧
      collect (readBuffer cal) (readBufferOutput cal) gl bs =
        collect (Globals.next cal) (Globals.written cal) gl (bs.flatMap Batch.words) := by
  induction bs generalizing gl with
  | nil => exact ⟨rfl, rfl⟩
  | cons b bs ih =>
    have hcall : readBuffer cal gl b = run (Globals.next cal) gl b.words := by
      rw [readBuffer, Globals.setUp_of_not_first h]
    have hwrite : readBufferOutput cal gl b =
        collect (Globals.next cal) (Globals.written cal) gl b.words := by
      rw [readBufferOutput, Globals.setUp_of_not_first h, List.nil_append]
    obtain ⟨hrun, hcollect⟩ := ih (Globals.run_fFirstTime cal h b.words)
    rw [run_cons, collect_cons, hcall, hwrite, hrun, hcollect, List.flatMap_cons, run_append,
      collect_append]
    exact ⟨rfl, rfl⟩

/-- The calls of a session process the words as one list, after the setting up of the first
one. -/
theorem run_readBuffer (gl : Globals) (b : Batch) (bs : List Batch) :
    run (readBuffer cal) gl (b :: bs) =
        run (Globals.next cal) (gl.setUp cal b).1 ((b :: bs).flatMap Batch.words) ∧
      collect (readBuffer cal) (readBufferOutput cal) gl (b :: bs) =
        (gl.setUp cal b).2 ++ collect (Globals.next cal) (Globals.written cal) (gl.setUp cal b).1
          ((b :: bs).flatMap Batch.words) := by
  have hfirst := Globals.run_fFirstTime cal (Globals.setUp_fFirstTime cal gl b) b.words
  obtain ⟨hrun, hcollect⟩ := run_readBuffer_of_not_first hfirst bs
  rw [run_cons, collect_cons, List.flatMap_cons, run_append, collect_append, ← List.append_assoc]
  exact ⟨hrun, congrArg (readBufferOutput cal gl b ++ ·) hcollect⟩

/-! ## The clock -/

/-- The bytes of a time word. -/
structure TimeWord where
  hour : ℕ
  min : ℕ
  sec : ℕ
  raw : ℕ
  deriving DecidableEq

/-- The time words. -/
def timeWord (wo : BitVec 32) : Option TimeWord :=
  match decode wo with
  | .time hour min sec raw => some ⟨hour, min, sec, raw⟩
  | _ => none

def Clock.next (cal : Calendar) (c : Clock) (w : TimeWord) : Clock :=
  (c.time cal w.hour w.min w.sec w.raw).1
def Clock.events (cal : Calendar) (c : Clock) (w : TimeWord) : List ClockEvent :=
  (c.time cal w.hour w.min w.sec w.raw).2

/-- The lines about the clock and the files. -/
def Output.clock? : Output → Option ClockEvent
  | .clock e => some e
  | _ => none

theorem filterMap_ofClock (events : List ClockEvent) :
    (events.flatMap Output.ofClock).filterMap Output.clock? = events := by
  induction events with
  | nil => rfl
  | cons e events ih =>
    rw [List.flatMap_cons, List.filterMap_append, ih]
    cases e <;> rfl

theorem Globals.next_clock (gl : Globals) (wo : BitVec 32) :
    (gl.next cal wo).clock = (timeWord wo).elim gl.clock (gl.clock.next cal) := by
  unfold Globals.next Globals.word timeWord
  cases decode wo with
  | sample => exact (gl.sample_frame wo).2.1
  | _ => rfl

theorem Globals.written_clock (gl : Globals) (wo : BitVec 32) :
    (gl.written cal wo).filterMap Output.clock? =
      (timeWord wo).elim [] (gl.clock.events cal) := by
  unfold Globals.written Globals.word timeWord
  cases decode wo with
  | time hour min sec raw =>
    show ((gl.clock.time cal hour min sec raw).2.flatMap Output.ofClock ++
      [Output.second gl.hack gl.r1 gl.r2]).filterMap Output.clock? = _
    rw [List.filterMap_append, filterMap_ofClock]
    exact List.append_nil _
  | _ => rfl

/-- The lines about the clock in a session depend on the time words only. -/
theorem clock_events (gl : Globals) (b : Batch) (bs : List Batch) :
    (collect (readBuffer cal) (readBufferOutput cal) gl (b :: bs)).filterMap Output.clock? =
      (gl.setUp cal b).2.filterMap Output.clock? ++
        collect (Clock.next cal) (Clock.events cal) (gl.setUp cal b).1.clock
          (((b :: bs).flatMap Batch.words).filterMap timeWord) := by
  rw [(run_readBuffer gl b bs).2, List.filterMap_append]
  congr 1
  exact collect_filterMap Globals.clock Globals.next_clock Globals.written_clock _ _

/-! ## The counts of pulses -/

/-- The counter words. -/
def counterWord (wo : BitVec 32) : Option ℕ :=
  match decode wo with
  | .counter cnt => some cnt
  | _ => none

theorem Globals.next_pulses (gl : Globals) (wo : BitVec 32) :
    (gl.next cal wo).pulses = (counterWord wo).elim gl.pulses gl.pulses.next := by
  unfold Globals.next Globals.word counterWord
  cases decode wo with
  | sample => exact (gl.sample_frame wo).2.2
  | _ => rfl

/-- The counts of a session depend on the counter words only. -/
theorem run_pulses (fToStdout : Bool) (bs : List Batch) :
    (run (readBuffer cal) (Globals.start fToStdout) bs).pulses =
      run Pulses.next ⟨0, 0, 0, 0⟩ ((bs.flatMap Batch.words).filterMap counterWord) := by
  cases bs with
  | nil => rfl
  | cons b bs =>
    rw [(run_readBuffer _ b bs).1]
    exact run_filterMap Globals.pulses Globals.next_pulses _ _

end

end LagoEcosystem.Reader
