import LagoEcosystem.RamWriter.Memory
import LagoEcosystem.Recorder.Oscilloscope
import LagoEcosystem.Streams.WidthConverter

/-!
# The triggered recorder

`adc-recorder-trigger.c` prints the samples around a trigger. The oscilloscope passes 32-bit
samples on, two of them make a word of the RAM writer, and the program reads the ring of
`2 ^ 23` samples from the place in `sts_data` on, some samples back and rounded down to a
multiple of 64. `printout_eq` follows a recording through all of it.
-/

namespace LagoEcosystem.Recorder

open BitFields ByteMemory Clocked RingMemory

/-! ## The program -/

/-- The number of samples before the trigger and the total number of samples: multiples of 64
as in the program, and not more than the ring holds. -/
structure Numbers where
  before : ℕ
  total : ℕ
  le_before : 64 ≤ before
  lt : before < total
  le : total ≤ 8 * 1024 * 1024
  before_dvd : 64 ∣ before
  total_dvd : 64 ∣ total

def Numbers.program : Numbers :=
  ⟨1024, 1024 * 1024, by decide, by decide, by decide, by decide, by decide⟩

variable (n : Numbers)

/-- The registers at `cfg + 12` and `cfg + 16`. -/
def Numbers.preData : ℕ := n.before - 1
def Numbers.totData : ℕ := n.total - 1

/-- `start`, computed from the register at `sts + 0`. -/
def start (sts : BitVec 32) : BitVec 32 := ((sts >>> 1) - BitVec.ofNat 32 n.before) &&& 0x007FFFC0

/-- `offset` of sample `i`. -/
def sampleOffset (sts : BitVec 32) (i : ℕ) : BitVec 32 :=
  ((start n sts + BitVec.ofNat 32 i) &&& 0x007FFFFF) * 4

/-- `*(int16_t *)(ram + offset)` -/
def value (m : Memory 32) (ram : BitVec 32) (offset : BitVec 32) : ℤ :=
  (load 2 m (ram + offset)).toInt

/-- The numbers that are printed, two in a line. -/
def printout (m : Memory 32) (ram sts : BitVec 32) : List (ℤ × ℤ) :=
  (List.range n.total).map fun i =>
    (value m ram (sampleOffset n sts i), value m ram (sampleOffset n sts i + 2))

/-! ## The hardware -/

/-- The two channels of a sample, as numbers. -/
def channels (sample : BitVec 32) : ℤ × ℤ :=
  ((sample.extractLsb' 0 16).toInt, (sample.extractLsb' 16 16).toInt)

/-- The samples that the oscilloscope passes on in a run. -/
def samplesOf (is : List (Oscilloscope.In .recorder)) : List (BitVec 32) :=
  collect Oscilloscope.step Oscilloscope.forwarded (.reset .recorder) is

/-- The samples of a recording. -/
def recorded (p : Oscilloscope.Capture .recorder) : List (BitVec 32) := p.words.map Prod.fst

/-- What `sts + 0` shows: the output of the oscilloscope with zeros above it. -/
def stsRegister (s : Oscilloscope.St .recorder) (i : Oscilloscope.In .recorder) : BitVec 32 :=
  (s.out i).stsData.setWidth 32

/-! ## Where the samples are -/

variable {n}

/-- The mask of `start` rounds down to 64 samples in the ring. -/
theorem toNat_and_startMask (x : BitVec 32) :
    (x &&& 0x007FFFC0).toNat = x.toNat % 2 ^ 23 / 64 * 64 := by
  have hmask : (0x007FFFC0 : BitVec 32).toNat = (2 ^ 17 - 1) <<< 6 := by decide
  have hround : x.toNat % 2 ^ 23 / 64 * 64 = (x.toNat % 2 ^ 23) >>> 6 <<< 6 := by
    rw [Nat.shiftLeft_eq, Nat.shiftRight_eq_div_pow]
  rw [BitVec.toNat_and, hmask, hround]
  apply Nat.eq_of_testBit_eq
  intro k
  rw [Nat.testBit_and, Nat.testBit_shiftLeft, Nat.testBit_shiftLeft, Nat.testBit_two_pow_sub_one,
    Nat.testBit_shiftRight, Nat.testBit_mod_two_pow]
  by_cases hk : 6 ≤ k
  · rw [Nat.add_sub_cancel' hk]
    by_cases hlt : k < 23
    · simp [hk, hlt, (by omega : k - 6 < 17)]
    · have hhigh : ¬ k - 6 < 17 := by omega
      simp only [hlt, hhigh, decide_false, Bool.false_and, Bool.and_false]
  · simp [hk]

/-- The first sample that is printed, when sample `t` was the trigger. -/
def firstSample (n : Numbers) (t : ℕ) : ℕ := t / 64 * 64 - n.before

theorem startArith {t : ℕ} (ht : n.before ≤ t) :
    (2 ^ 32 - n.before + t % 2 ^ 23) % 2 ^ 32 % 2 ^ 23 / 64 * 64 = firstSample n t % 2 ^ 23 := by
  obtain ⟨b, hb⟩ := n.before_dvd
  have hle := n.le
  have hlt := n.lt
  unfold firstSample
  omega

/-- `start` is the first sample, in the ring. -/
theorem toNat_sampleOffset {sts : BitVec 32} {t i : ℕ} (hsts : sts.toNat / 2 = t % 2 ^ 23)
    (ht : n.before ≤ t) (hi : i < n.total) :
    (sampleOffset n sts i).toNat = 4 * ((firstSample n t + i) % 2 ^ 23) := by
  have hle := n.le
  have hlt := n.lt
  have hshift : (sts >>> 1).toNat = t % 2 ^ 23 := by
    rw [toNat_ushiftRight, Nat.pow_one]
    exact hsts
  have hback : (BitVec.ofNat 32 n.before).toNat = n.before := by
    rw [BitVec.toNat_ofNat]
    omega
  have hfour : (4 : BitVec 32).toNat = 4 := by decide
  have hstart : (start n sts).toNat = firstSample n t % 2 ^ 23 := by
    rw [start, toNat_and_startMask, BitVec.toNat_sub, hshift, hback]
    exact startArith ht
  have hsum : (start n sts + BitVec.ofNat 32 i).toNat = firstSample n t % 2 ^ 23 + i := by
    rw [BitVec.toNat_add, hstart, BitVec.toNat_ofNat]
    omega
  rw [sampleOffset, BitVec.toNat_mul, toNat_and_mask (k := 23) _ (by decide), hsum,
    Nat.mod_add_mod, hfour]
  omega

theorem value_offset (m : Memory 32) (ram : BitVec 32) {ofs : BitVec 32} {n : ℕ}
    (h : ofs.toNat = n) : value m ram ofs = (load 2 m (offset ram n)).toInt := by
  rw [value, ← h, offset, BitVec.ofNat_toNat, BitVec.setWidth_eq]

section Ring

variable {cfg : BitVec 32} {ws : List (RamWriter.In .blockDesign)} {samples : List (BitVec 32)}

/-- A sample in the ring, as the program reads it. -/
theorem value_eq (mem : Memory 32)
    (h : Along RamWriter.step (RamWriter.Orderly cfg) (.reset .blockDesign) ws)
    (hws : RamWriter.accepted ws = packWords samples) {j c : ℕ} (hc : c < 2)
    (hj : j / 2 < (RamWriter.beats ws).length) (hring : (RamWriter.beats ws).length ≤ j / 2 + 2 ^ 22)
    {ofs : BitVec 32} (hofs : ofs.toNat = 4 * (j % 2 ^ 23) + 2 * c) :
    value (RamWriter.memory mem ws) cfg ofs = ((samples.getD j 0).extractLsb' (16 * c) 16).toInt := by
  have hwidth : RamWriter.Generics.blockDesign.addrWidth = 22 := rfl
  have hstored := RamWriter.length_beats_le_accepted h
  rw [hws, length_packWords] at hstored
  have hload := RamWriter.load_acceptedWord h mem (b := 4 * (j % 2) + 2 * c) 2 hj
    (by rw [hwidth]; exact hring) (by omega)
  have hbits : 8 * (4 * (j % 2) + 2 * c) = 32 * (j % 2) + 16 * c := by omega
  rw [hwidth, RamWriter.acceptedWord, hws, hbits, packWords_part (by omega) (by omega)] at hload
  have hplace : ofs.toNat = 8 * (j / 2 % 2 ^ 22) + (4 * (j % 2) + 2 * c) := by omega
  exact (value_offset _ cfg hplace).trans (congrArg BitVec.toInt hload)

/-- The samples that are printed, when they are in the ring. -/
theorem printout_ring (mem : Memory 32)
    (h : Along RamWriter.step (RamWriter.Orderly cfg) (.reset .blockDesign) ws)
    (hws : RamWriter.accepted ws = packWords samples) {sts : BitVec 32} {t : ℕ}
    (hsts : sts.toNat / 2 = t % 2 ^ 23) (ht : n.before ≤ t)
    (hstored : (firstSample n t + n.total) / 2 ≤ (RamWriter.beats ws).length)
    (hring : (RamWriter.beats ws).length ≤ firstSample n t / 2 + 2 ^ 22) :
    printout n (RamWriter.memory mem ws) cfg sts =
      (List.range n.total).map fun i => channels (samples.getD (firstSample n t + i) 0) := by
  refine List.map_congr_left fun i hi => ?_
  have hlt : i < n.total := List.mem_range.mp hi
  have heven : (firstSample n t + n.total) % 2 = 0 ∧ firstSample n t % 2 = 0 := by
    obtain ⟨b, hb⟩ := n.before_dvd
    obtain ⟨m, hm⟩ := n.total_dvd
    unfold firstSample
    omega
  have hofs := toNat_sampleOffset hsts ht hlt
  have hhigh : (sampleOffset n sts i + 2).toNat =
      4 * ((firstSample n t + i) % 2 ^ 23) + 2 * 1 := by
    have htwo : (2 : BitVec 32).toNat = 2 := by decide
    rw [BitVec.toNat_add, hofs, htwo]
    omega
  rw [value_eq mem h hws (by decide : 0 < 2) (by omega) (by omega) hofs,
    value_eq mem h hws (by decide : 1 < 2) (by omega) (by omega) hhigh]
  rfl

/-- A writer at rest has stored all but the last words. -/
theorem length_beats_of_rest
    (h : Along RamWriter.step (RamWriter.Orderly cfg) (.reset .blockDesign) ws)
    (hrest : (RamWriter.after ws).intWvalidReg = false)
    (hfifo : (RamWriter.after ws).fifo.length ≤ 16) :
    (RamWriter.beats ws).length % 16 = 0 ∧
      (RamWriter.accepted ws).length ≤ (RamWriter.beats ws).length + 16 := by
  have hflow := congrArg List.length (RamWriter.stocked_after (RamWriter.Orderly.honest h)).flow
  simp only [List.length_map, List.length_append] at hflow
  exact ⟨(RamWriter.counted_after (RamWriter.InOrder.aresetn (RamWriter.Orderly.inOrder h))).idle
    hrest, by omega⟩

end Ring

/-! ## The recording -/

section Recording

open Oscilloscope (captures afterReset Steady CaptureLaw TriggerAt)

variable {is : List (Oscilloscope.In .recorder)} {p : Oscilloscope.Capture .recorder} {t : ℕ}

/-- The settings of the program. -/
def Configured (n : Numbers) (c : Oscilloscope.Settings .recorder) : Prop :=
  c.preData.toNat = n.preData ∧ c.totData.toNat = n.totData

instance (n : Numbers) (c : Oscilloscope.Settings .recorder) : Decidable (Configured n c) :=
  inferInstanceAs (Decidable (_ ∧ _))

theorem le_trigger (hp : Configured n p.settings) (h : CaptureLaw p t) : n.before ≤ t := by
  have hlate := h.trigger.late
  rw [hp.1, Numbers.preData] at hlate
  omega

/-- The recording goes on for two samples after the last one that is printed. -/
theorem length_recorded (hp : Configured n p.settings) (h : CaptureLaw p t) :
    (recorded p).length = firstSample n t + n.total + 2 := by
  have ht := le_trigger hp h
  have hpos := n.le_before
  have hlt := n.lt
  have hle := n.le
  obtain ⟨b, hb⟩ := n.before_dvd
  obtain ⟨m, hm⟩ := n.total_dvd
  have hrestart : p.settings.restart t = n.before - 1 + t % 64 := by
    rw [Oscilloscope.Settings.restart, hp.1, Numbers.preData]
    exact Nat.mod_eq_of_lt (by show n.before - 1 + t % 64 < 2 ^ 23; omega)
  have hlen : (recorded p).length = p.words.length := List.length_map _
  rw [hlen, h.length, hrestart, hp.2, Numbers.totData, firstSample]
  omega

/-- The samples of a run with one recording. -/
theorem samplesOf_eq
    (hsteady : Along (Oscilloscope.machine .recorder).track Steady (afterReset .recorder) is)
    (hone : captures is = [p])
    (hidle : (run Oscilloscope.step (.reset .recorder) is).intCaseReg = .idle) :
    samplesOf is = recorded p := by
  have hend : (run (Oscilloscope.machine .recorder).track (afterReset .recorder) is).st.intCaseReg =
      .idle := by
    rw [Oscilloscope.st_run]
    exact hidle
  have hall := Oscilloscope.forwarded_run hsteady
  rw [hone, Oscilloscope.underWay, if_pos hend, List.append_nil, List.flatMap_singleton] at hall
  exact hall

/-- The place of the trigger, as the program reads it. -/
theorem stsRegister_eq {s : Oscilloscope.St .recorder} (i : Oscilloscope.In .recorder)
    (h : s.intAddrReg.toNat = t % 2 ^ 23) : (stsRegister s i).toNat / 2 = t % 2 ^ 23 := by
  have hval : (stsRegister s i).toNat =
      (s.intAddrReg.toNat * 2 ^ 1 + (BitVec.ofBool s.intEnblReg).toNat) % 2 ^ 32 :=
    (BitVec.toNat_setWidth _ _).trans (congrArg (· % 2 ^ 32) (BitFields.toNat_append _ _))
  have hlow := (BitVec.ofBool s.intEnblReg).isLt
  rw [hval, h]
  omega

/-- One recording with the settings of the program, and a RAM writer that has come to rest
after it: the program prints consecutive samples of the recording, and the sample with the
trigger is in line `before + t % 64`. -/
theorem printout_eq (n : Numbers) {cfg : BitVec 32} {ws : List (RamWriter.In .blockDesign)}
    (mem : Memory 32)
    (hsteady : Along (Oscilloscope.machine .recorder).track Steady (afterReset .recorder) is)
    (hsettings : ∀ i ∈ is, Configured n i.settings) (hone : captures is = [p])
    (hidle : (run Oscilloscope.step (.reset .recorder) is).intCaseReg = .idle)
    (hwriter : Along RamWriter.step (RamWriter.Orderly cfg) (.reset .blockDesign) ws)
    (hwords : RamWriter.accepted ws = packWords (samplesOf is))
    (hrest : (RamWriter.after ws).intWvalidReg = false)
    (hfifo : (RamWriter.after ws).fifo.length ≤ 16) (i : Oscilloscope.In .recorder) :
    ∃ t, TriggerAt p.settings p.words t ∧ t = firstSample n t + (n.before + t % 64) ∧
      firstSample n t + n.total ≤ (recorded p).length ∧
      printout n (RamWriter.memory mem ws) cfg
          (stsRegister (run Oscilloscope.step (.reset .recorder) is) i) =
        (((recorded p).drop (firstSample n t)).take n.total).map channels := by
  have hp : Configured n p.settings :=
    Oscilloscope.settings_of_mem (K := Configured n) hsettings (by rw [hone]; simp)
  have hinv := Oscilloscope.inv_run hsteady
  rw [hone] at hinv
  obtain ⟨t, hlaw⟩ := hinv.captured p (by simp)
  have ht := le_trigger hp hlaw
  have hlen := length_recorded hp hlaw
  have hsamples := samplesOf_eq hsteady hone hidle
  have haddr : (run Oscilloscope.step (.reset .recorder) is).intAddrReg.toNat = t % 2 ^ 23 := by
    have hkept := hinv.kept (by rw [Oscilloscope.st_run]; exact hidle) p (by simp)
    rw [Oscilloscope.st_run] at hkept
    rw [hkept]
    exact hlaw.addr
  rw [hsamples] at hwords
  obtain ⟨hbursts, hlast⟩ := length_beats_of_rest hwriter hrest hfifo
  have hstored := RamWriter.length_beats_le_accepted hwriter
  rw [hwords, length_packWords, hlen] at hlast hstored
  obtain ⟨b, hb⟩ := n.before_dvd
  obtain ⟨m, hm⟩ := n.total_dvd
  have hle := n.le
  have hfirst : firstSample n t = t / 64 * 64 - n.before := rfl
  refine ⟨t, hlaw.trigger, by omega, by omega, ?_⟩
  rw [printout_ring mem hwriter hwords (stsRegister_eq i haddr) ht (by omega) (by omega)]
  apply List.ext_getElem
  · rw [List.length_map, List.length_map, List.length_range, List.length_take, List.length_drop]
    omega
  · intro k hk _
    rw [List.length_map, List.length_range] at hk
    rw [List.getElem_map, List.getElem_map, List.getElem_range, List.getElem_take,
      List.getElem_drop, List.getD_eq_getElem?_getD, List.getElem?_eq_getElem (by omega),
      Option.getD_some]

/-- A recording of 128 samples, half of them before the trigger. -/
def Numbers.small : Numbers := ⟨64, 128, by decide, by decide, by decide, by decide, by decide⟩

/-- Sample `k` is valid, and the trigger flag is high from sample 64 on. -/
def smallScope : List (Oscilloscope.In .recorder) :=
  (List.range 132).map fun k => ⟨true, k == 0, decide (65 ≤ k), 63, 127, BitVec.ofNat 32 k, true⟩

/-- A cycle of a slave that is always ready. -/
def smallCycle (w : Option (BitVec 64)) (e : Bool) : RamWriter.In .blockDesign where
  aresetn := true
  cfgData := 0x1E000000
  fifoFull := false
  fifoAlmostempty := e
  mAxiAwready := true
  mAxiWready := true
  sAxisTdata := w.getD 0
  sAxisTvalid := w.isSome

/-- The words of the recording, and then four bursts. -/
def smallWriter : List (RamWriter.In .blockDesign) :=
  (packWords (samplesOf smallScope)).map (fun w => smallCycle (some w) true) ++
    (List.range 49).map (fun _ => smallCycle none false) ++
      (List.range 16).map fun _ => smallCycle none true

theorem orderly_small :
    Along RamWriter.step (RamWriter.Orderly 0x1E000000) (.reset .blockDesign) smallWriter := by
  decide +kernel

theorem printout_eq_small : ∃ p : Oscilloscope.Capture .recorder, ∃ t,
    TriggerAt p.settings p.words t ∧ t = firstSample .small t + (64 + t % 64) ∧
      firstSample .small t + 128 ≤ (recorded p).length ∧
      printout .small (RamWriter.memory (fun _ => 0) smallWriter) 0x1E000000
          (stsRegister (run Oscilloscope.step (.reset .recorder) smallScope)
            ⟨true, false, false, 63, 127, 0, false⟩) =
        (((recorded p).drop (firstSample .small t)).take 128).map channels := by
  obtain ⟨p, hp⟩ := List.length_eq_one_iff.mp
    (by decide +kernel : (captures smallScope).length = 1)
  exact ⟨p, printout_eq .small (fun _ => 0) (by decide +kernel) (by decide +kernel) hp
    (by decide +kernel) orderly_small (by decide +kernel) (by decide +kernel) (by decide +kernel)
    _⟩

end Recording

end LagoEcosystem.Recorder
