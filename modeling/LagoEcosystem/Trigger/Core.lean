import LagoEcosystem.Library.BitFields
import LagoEcosystem.Library.Clocked

/-!
# The trigger core

`axis_lago_trigger` (v1_3), register by register. The widths `AXIS_TDATA_WIDTH = 32`,
`ADC_DATA_WIDTH = 14`, `METADATA_ARRAY_LENGTH = 12` and `SUBTRIG_ARRAY_LENGTH = 3` are
the defaults: no block design overrides them, and the literal bit counts of the source
fit no others. `DATA_ARRAY_LENGTH` is set by the block design and stays a parameter.

Every process of the source is clocked by `aclk`. A signal `x_next` of the source is a
function of the registers and the inputs here, and `St.next` is the clock edge with
`aresetn` high. The two channels run the same equations, so each of these is one
function of the channel's delay line and level.
-/

namespace LagoEcosystem.Trigger

open BitFields

/-- The generics of the core. The trigger decision reads position 10 of the delay
lines, and `wr_count_reg`, compared with `DATA_ARRAY_LENGTH - 1`, has eight bits. -/
structure Generics where
  dataArrayLength : ℕ
  reaches : 11 ≤ dataArrayLength
  counts : dataArrayLength ≤ 256

/-- Positions 0 to 10 of a delay line exist whatever its length. -/
def Generics.bin (g : Generics) (k : Fin 11) : Fin g.dataArrayLength := k.castLE g.reaches

/-- The instance of the block design. -/
def Generics.blockDesign : Generics := ⟨32, by decide, by decide⟩

def metadataArrayLength : ℕ := 12
def subtrigArrayLength : ℕ := 3

/-- The input ports, with the reset. -/
structure In where
  aresetn : Bool
  trigLvlAI : BitVec 16
  trigLvlBI : BitVec 16
  subtrigLvlAI : BitVec 16
  subtrigLvlBI : BitVec 16
  ppsI : Bool
  clkCntPpsI : BitVec 27
  tempI : BitVec 24
  pressureI : BitVec 24
  timeI : BitVec 24
  dateI : BitVec 24
  latitudeI : BitVec 24
  longitudeI : BitVec 24
  altitudeI : BitVec 24
  satellitesI : BitVec 24
  scalerAI : BitVec 32
  scalerBI : BitVec 32
  sAxisTdata : BitVec 32
  sAxisTvalid : Bool
  mAxisTready : Bool

/-- A cycle in which nothing arrives and the next stage is ready. With the scalers at one,
no counted trigger is waiting either. -/
def In.quiet : In where
  aresetn := true
  trigLvlAI := 0
  trigLvlBI := 0
  subtrigLvlAI := 0
  subtrigLvlBI := 0
  ppsI := false
  clkCntPpsI := 0
  tempI := 0
  pressureI := 0
  timeI := 0
  dateI := 0
  latitudeI := 0
  longitudeI := 0
  altitudeI := 0
  satellitesI := 0
  scalerAI := 1
  scalerBI := 1
  sAxisTdata := 0
  sAxisTvalid := false
  mAxisTready := true

inductive StateT where
  | stIdle | stAttTr | stSendTrStatus | stSendCntStatus | stAttSubtr | stAttPps
  deriving DecidableEq, Repr

/-- The registers of the controlling state machine. -/
structure Fsm where
  stateReg : StateT
  wrCountReg : BitVec 8
  dataToFifoReg : BitVec 32
  axisTvalidReg : Bool
  axisTreadyReg : Bool

/-- The registers of the core. -/
structure St (g : Generics) where
  adcRegA : BitVec 16
  adcRegB : BitVec 16
  arrayPpsReg : Fin 12 → BitVec 32
  adcDatAReg : Fin g.dataArrayLength → BitVec 16
  adcDatBReg : Fin g.dataArrayLength → BitVec 16
  rateACntReg : BitVec 24
  rateBCntReg : BitVec 24
  scalerACntReg : BitVec 32
  scalerBCntReg : BitVec 32
  tr11SDlyReg : Bool
  tr21SDlyReg : Bool
  trStatusReg : BitVec 32
  cntStatusReg : BitVec 32
  trigCntReg : BitVec 30
  charge1Reg : BitVec 14
  charge2Reg : BitVec 14
  arrayScalersReg : Fin 3 → BitVec 32
  fsm : Fsm

def Fsm.reset : Fsm where
  stateReg := .stIdle
  wrCountReg := 0
  dataToFifoReg := 0
  axisTvalidReg := false
  axisTreadyReg := false

/-- The registers after a clock edge with `aresetn` low. -/
def St.reset (g : Generics) : St g where
  adcRegA := 0
  adcRegB := 0
  arrayPpsReg _ := 0
  adcDatAReg _ := 0
  adcDatBReg _ := 0
  rateACntReg := 0
  rateBCntReg := 0
  scalerACntReg := 0
  scalerBCntReg := 0
  tr11SDlyReg := false
  tr21SDlyReg := false
  trStatusReg := 0
  cntStatusReg := 0
  trigCntReg := 0
  charge1Reg := 0
  charge2Reg := 0
  arrayScalersReg _ := 0
  fsm := .reset

/-! ## Levels, samples and delay lines -/

/-- Sign extension of the low fourteen bits, for the levels and the samples. -/
def extend (x : BitVec 14) : BitVec 16 := (x.extractLsb' 13 1).replicate 2 ++ x

/-- The levels use the low fourteen bits of their ports. -/
def level (port : BitVec 16) : BitVec 16 := extend (port.extractLsb' 0 14)

/-- `adc_next_a`: the low half of the input word, when the handshake takes it. -/
def adcNextA {g : Generics} (s : St g) (i : In) : BitVec 16 :=
  if s.fsm.axisTreadyReg && i.sAxisTvalid then extend (i.sAxisTdata.extractLsb' 0 14)
  else s.adcRegA

/-- `adc_next_b`: the high half of the input word, when the handshake takes it. -/
def adcNextB {g : Generics} (s : St g) (i : In) : BitVec 16 :=
  if s.fsm.axisTreadyReg && i.sAxisTvalid then extend (i.sAxisTdata.extractLsb' 16 14)
  else s.adcRegB

/-- `adc_dat_a_next`, `adc_dat_b_next`: shift one position down in every cycle. -/
def adcDatNext {n : ℕ} (adcDat : BitVec 16) (reg : Fin n → BitVec 16) (i : Fin n) : BitVec 16 :=
  if h : i.val + 1 < n then reg ⟨i.val + 1, h⟩ else adcDat

/-! ## Triggers and their scalers -/

/-- The fifteen bits below the sign bit, which the source compares as signed numbers. -/
def magnitude (x : BitVec 16) : BitVec 15 := x.extractLsb' 0 15

/-- The trigger condition of a channel, `tr1_s` and `tr2_s`. -/
def fires {g : Generics} (dat : Fin g.dataArrayLength → BitVec 16) (lvl : BitVec 16) : Bool :=
  ((dat (g.bin 10)).msb == lvl.msb) &&
  (magnitude lvl).sle (magnitude (dat (g.bin 10))) &&
  [9, 8, 7, 6, 5, 4, 3, 2, 1].all fun k => (magnitude (dat (g.bin k))).slt (magnitude lvl)

/-- `scaler_a_max_tick`, `scaler_b_max_tick`. -/
def scalerMaxTick (cnt scaler : BitVec 32) : Bool := cnt == scaler

/-- `scaler_a_cnt_next`, `scaler_b_cnt_next`. -/
def scalerCntNext (tr : Bool) (cnt scaler : BitVec 32) : BitVec 32 :=
  if tr then cnt + 1 else if cnt == scaler then 0 else cnt

/-- `rate_a_cnt_next`, `rate_b_cnt_next`. -/
def rateCntNext (maxTick pps : Bool) (cnt : BitVec 24) : BitVec 24 :=
  if maxTick then cnt + 1 else if pps then 0 else cnt

def St.tr1S {g : Generics} (s : St g) (i : In) : Bool := fires s.adcDatAReg (level i.trigLvlAI)
def St.tr2S {g : Generics} (s : St g) (i : In) : Bool := fires s.adcDatBReg (level i.trigLvlBI)

/-- `tr_s`. -/
def St.trS {g : Generics} (s : St g) (i : In) : Bool :=
  scalerMaxTick s.scalerACntReg i.scalerAI || scalerMaxTick s.scalerBCntReg i.scalerBI

/-- `"010" & tr21_s_dly_reg & tr11_s_dly_reg & clk_cnt_pps_i`. -/
def trStatusWord (tr2 tr1 : Bool) (clkCntPps : BitVec 27) : BitVec 32 :=
  0b010#3 ++ BitVec.ofBool tr2 ++ BitVec.ofBool tr1 ++ clkCntPps

/-- `"10" & trig_cnt_reg`. -/
def cntStatusWord (trigCnt : BitVec 30) : BitVec 32 := 0b10#2 ++ trigCnt

theorem toNat_trStatusWord (tr2 tr1 : Bool) (clkCntPps : BitVec 27) :
    (trStatusWord tr2 tr1 clkCntPps).toNat =
      2 ^ 30 + tr2.toNat * 2 ^ 28 + tr1.toNat * 2 ^ 27 + clkCntPps.toNat := by
  unfold trStatusWord
  rw [toNat_append]
  simp only [toNat_append, BitVec.toNat_ofBool, BitVec.toNat_ofNat]
  omega

theorem toNat_cntStatusWord (trigCnt : BitVec 30) :
    (cntStatusWord trigCnt).toNat = 2 ^ 31 + trigCnt.toNat := by
  unfold cntStatusWord
  rw [toNat_append]
  rfl

/-- The third bit of the mask is zero. -/
theorem trStatusWord_lt (tr2 tr1 : Bool) (clkCntPps : BitVec 27) :
    (trStatusWord tr2 tr1 clkCntPps).toNat < 3 * 2 ^ 29 := by
  have := clkCntPps.isLt
  rw [toNat_trStatusWord]
  cases tr2 <;> cases tr1 <;> simp only [Bool.toNat_true, Bool.toNat_false] <;> omega

/-- The two top bits of a counter status are `10`. -/
theorem cntStatusWord_bounds (trigCnt : BitVec 30) :
    2 ^ 31 ≤ (cntStatusWord trigCnt).toNat ∧ (cntStatusWord trigCnt).toNat < 3 * 2 ^ 30 := by
  have := trigCnt.isLt
  rw [toNat_cntStatusWord]
  omega

/-! ## Sub-triggers -/

/-- The sub-trigger condition of a channel, `subtr1_s` and `subtr2_s`. -/
def peaks {g : Generics} (dat : Fin g.dataArrayLength → BitVec 16) (subLvl lvl : BitVec 16) :
    Bool :=
  let bin k := magnitude (dat (g.bin k))
  ((dat (g.bin 2)).msb == subLvl.msb) &&
  (magnitude subLvl).sle (bin 2) &&
  (bin 1).slt (bin 2) &&
  ((bin 3).slt (bin 2) || ((bin 3 == bin 2) && (bin 4).slt (bin 2))) &&
  ((dat (g.bin 2)).msb == lvl.msb) &&
  (bin 2).slt (magnitude lvl) && (bin 3).slt (magnitude lvl) && (bin 4).slt (magnitude lvl)

def St.subtr1S {g : Generics} (s : St g) (i : In) : Bool :=
  peaks s.adcDatAReg (level i.subtrigLvlAI) (level i.trigLvlAI)

def St.subtr2S {g : Generics} (s : St g) (i : In) : Bool :=
  peaks s.adcDatBReg (level i.subtrigLvlBI) (level i.trigLvlBI)

/-- `subtr_s`. -/
def St.subtrS {g : Generics} (s : St g) (i : In) : Bool := s.subtr1S i || s.subtr2S i

/-- `charge1_next`, `charge2_next`: the source adds the bounds of the array's index
range, `adc_dat_a_reg'left` and `adc_dat_a_reg'right`, not samples. -/
def chargeNext (g : Generics) (charge : BitVec 14) : BitVec 14 :=
  charge + BitVec.ofNat 14 (g.dataArrayLength - 1) - BitVec.ofNat 14 0

/-- The values of a sub-trigger record. -/
structure Subtrig where
  subtr2 : Bool
  subtr1 : Bool
  clkCntPps : BitVec 27
  charge1 : BitVec 14
  charge2 : BitVec 14
  peakA : BitVec 14
  peakB : BitVec 14

/-- The right-hand sides of `array_scalers_next`. -/
def Subtrig.word (r : Subtrig) : Fin 3 → BitVec 32
  | 2 => 0b010#3 ++ BitVec.ofBool r.subtr2 ++ BitVec.ofBool r.subtr1 ++ r.clkCntPps
  | 1 => 0b0000#4 ++ r.charge1 ++ r.charge2
  | 0 => 0b0000#4 ++ r.peakA ++ r.peakB

theorem Subtrig.word_lt (r : Subtrig) (k : Fin 3) : (r.word k).toNat < 3 * 2 ^ 29 := by
  have hfields (x y : BitVec 14) : (BitVec.toNat (0b0000#4 ++ x ++ y : BitVec 32)) < 3 * 2 ^ 29 := by
    rw [toNat_append, toNat_append, BitVec.toNat_ofNat]
    have := x.isLt
    have := y.isLt
    omega
  match k with
  | 2 =>
    exact trStatusWord_lt r.subtr2 r.subtr1 r.clkCntPps
  | 1 => exact hfields _ _
  | 0 => exact hfields _ _

/-- What a sub-trigger puts into its record. -/
def St.subtrig {g : Generics} (s : St g) (i : In) : Subtrig where
  subtr2 := s.subtr2S i
  subtr1 := s.subtr1S i
  clkCntPps := i.clkCntPpsI
  charge1 := s.charge1Reg
  charge2 := s.charge2Reg
  peakA := (s.adcDatAReg (g.bin 2)).extractLsb' 0 14
  peakB := (s.adcDatBReg (g.bin 2)).extractLsb' 0 14

/-! ## The metadata of a second -/

/-- The values of a metadata block. -/
structure Metadata where
  clkCntPps : BitVec 27
  temp : BitVec 24
  pressure : BitVec 24
  time : BitVec 24
  latitude : BitVec 24
  longitude : BitVec 24
  altitude : BitVec 24
  date : BitVec 24
  satellites : BitVec 24
  rateA : BitVec 24
  rateB : BitVec 24

/-- The right-hand sides of `array_pps_next`. -/
def Metadata.word (m : Metadata) : Fin 12 → BitVec 32
  | 11 => 0xFFFFFFFF#32
  | 10 => 1#1 ++ 0b1000#4 ++ m.clkCntPps
  | 9 => 1#1 ++ 0b1001#4 ++ 0b000#3 ++ m.temp
  | 8 => 1#1 ++ 0b1010#4 ++ 0b000#3 ++ m.pressure
  | 7 => 1#1 ++ 0b1011#4 ++ 0b000#3 ++ m.time
  | 6 => 1#1 ++ 0b1100#4 ++ 0b000#3 ++ m.latitude
  | 5 => 1#1 ++ 0b1100#4 ++ 0b001#3 ++ m.longitude
  | 4 => 1#1 ++ 0b1100#4 ++ 0b010#3 ++ m.altitude
  | 3 => 1#1 ++ 0b1100#4 ++ 0b011#3 ++ m.date
  | 2 => 1#1 ++ 0b1100#4 ++ 0b100#3 ++ m.satellites
  | 1 => 1#1 ++ 0b1101#4 ++ 0b000#3 ++ m.rateA
  | 0 => 1#1 ++ 0b1110#4 ++ 0b000#3 ++ m.rateB

/-- A tag of five bits, of which the first is set, a sub-tag of three and a value. -/
theorem toNat_tagged (tag : BitVec 4) (sub : BitVec 3) (value : BitVec 24) :
    (BitVec.toNat (1#1 ++ tag ++ sub ++ value : BitVec 32)) =
      2 ^ 31 + tag.toNat * 2 ^ 27 + sub.toNat * 2 ^ 24 + value.toNat := by
  rw [toNat_append]
  simp only [toNat_append, BitVec.toNat_ofNat]
  omega

theorem Metadata.toNat_word_clkCntPps (m : Metadata) :
    (m.word 10).toNat = 2 ^ 31 + 8 * 2 ^ 27 + m.clkCntPps.toNat := by
  unfold Metadata.word
  rw [toNat_append]
  rfl

/-- Every metadata word begins with two ones. -/
theorem Metadata.le_word (m : Metadata) (k : Fin 12) : 3 * 2 ^ 30 ≤ (m.word k).toNat := by
  match k with
  | 11 => simp [Metadata.word]
  | 10 => rw [m.toNat_word_clkCntPps]; omega
  | 9 | 8 | 7 | 6 | 5 | 4 | 3 | 2 | 1 | 0 =>
    refine le_of_le_of_eq ?_ (toNat_tagged _ _ _).symm
    simp only [BitVec.toNat_ofNat]
    omega

/-- What a PPS pulse puts into the metadata array. -/
def St.metadata {g : Generics} (s : St g) (i : In) : Metadata where
  clkCntPps := i.clkCntPpsI
  temp := i.tempI
  pressure := i.pressureI
  time := i.timeI
  latitude := i.latitudeI
  longitude := i.longitudeI
  altitude := i.altitudeI
  date := i.dateI
  satellites := i.satellitesI
  rateA := s.rateACntReg
  rateB := s.rateBCntReg

/-! ## The state machine -/

/-- The sample word of `ST_ATT_TR`, from the oldest samples of both channels. -/
def sampleWord (b a : BitVec 14) : BitVec 32 :=
  0b00#2 ++ b.extractLsb' 13 1 ++ b.extractLsb' 0 13 ++
    (0b00#2 ++ a.extractLsb' 13 1 ++ a.extractLsb' 0 13)

theorem toNat_sampleWord (b a : BitVec 14) :
    (sampleWord b a).toNat = b.toNat * 2 ^ 16 + a.toNat := by
  unfold sampleWord
  rw [toNat_append]
  simp only [toNat_append, BitVec.extractLsb'_toNat, BitVec.toNat_ofNat, Nat.shiftRight_eq_div_pow]
  omega

theorem sampleWord_lt (b a : BitVec 14) : (sampleWord b a).toNat < 2 ^ 30 := by
  have := b.isLt
  have := a.isLt
  rw [toNat_sampleWord]
  omega

/-- The samples leaving the delay lines. -/
def St.sampleA {g : Generics} (s : St g) : BitVec 14 := (s.adcDatAReg (g.bin 0)).extractLsb' 0 14
def St.sampleB {g : Generics} (s : St g) : BitVec 14 := (s.adcDatBReg (g.bin 0)).extractLsb' 0 14

/-- An element of one of the two record arrays. `wr_count_reg` never leaves the index
range in a run (`Fsm.InRange`), so the value outside it does not matter. -/
def element {n : ℕ} (array : Fin n → BitVec 32) (count : BitVec 8) : BitVec 32 :=
  if h : count.toNat < n then array ⟨count.toNat, h⟩ else 0

/-- The choice `ST_IDLE` makes from `status = tr_s & subtr_s & pps_i`. -/
def idleNext (tr subtr pps : Bool) : StateT :=
  match tr, subtr, pps with
  | _, _, true => .stAttPps -- priority is for PPS data every second
  | true, _, false => .stAttTr
  | false, true, false => .stAttSubtr
  | false, false, false => .stIdle

/-- Next-state logic and data path. `process(state_reg, status, wr_count_reg)` is
combinational: its sensitivity list leaves out signals that its body reads, which
synthesis does not heed. -/
def St.fsmNext {g : Generics} (s : St g) (i : In) : Fsm :=
  let f := s.fsm
  match f.stateReg with
  | .stIdle =>
    { stateReg := if i.mAxisTready then idleNext (s.trS i) (s.subtrS i) i.ppsI else .stIdle
      wrCountReg := 0
      dataToFifoReg := f.dataToFifoReg
      axisTvalidReg := false
      axisTreadyReg := true }
  | .stAttTr =>
    if i.mAxisTready then
      { stateReg := if f.wrCountReg.toNat = g.dataArrayLength - 1 then .stSendTrStatus else .stAttTr
        wrCountReg := f.wrCountReg + 1
        dataToFifoReg := sampleWord s.sampleB s.sampleA
        axisTvalidReg := true
        axisTreadyReg := false }
    else { f with wrCountReg := 0, axisTvalidReg := true, axisTreadyReg := false }
  | .stSendTrStatus =>
    if i.mAxisTready then
      { stateReg := .stSendCntStatus
        wrCountReg := 0
        dataToFifoReg := s.trStatusReg
        axisTvalidReg := true
        axisTreadyReg := false }
    else { f with wrCountReg := 0, axisTvalidReg := true, axisTreadyReg := false }
  | .stSendCntStatus =>
    if i.mAxisTready then
      { stateReg := .stIdle
        wrCountReg := 0
        dataToFifoReg := s.cntStatusReg
        axisTvalidReg := true
        axisTreadyReg := false }
    else { f with wrCountReg := 0, axisTvalidReg := true, axisTreadyReg := false }
  | .stAttSubtr =>
    if i.mAxisTready then
      { stateReg := if f.wrCountReg.toNat = subtrigArrayLength - 1 then .stIdle else .stAttSubtr
        wrCountReg := f.wrCountReg + 1
        dataToFifoReg := element s.arrayScalersReg f.wrCountReg
        axisTvalidReg := true
        axisTreadyReg := false }
    else { f with wrCountReg := 0, axisTvalidReg := true, axisTreadyReg := false }
  | .stAttPps =>
    if i.mAxisTready then
      { stateReg := if f.wrCountReg.toNat = metadataArrayLength - 1 then .stIdle else .stAttPps
        wrCountReg := f.wrCountReg + 1
        dataToFifoReg := element s.arrayPpsReg f.wrCountReg
        axisTvalidReg := true
        axisTreadyReg := false }
    else { f with wrCountReg := 0, axisTvalidReg := true, axisTreadyReg := false }

/-- The state that follows a block, or a part of a frame, once it is sent. -/
def StateT.after : StateT → StateT
  | .stAttTr => .stSendTrStatus
  | .stSendTrStatus => .stSendCntStatus
  | .stIdle | .stSendCntStatus | .stAttSubtr | .stAttPps => .stIdle

section FsmNext

variable {g : Generics} {s : St g} {i : In}

theorem St.fsmNext_stateReg_of_idle (hst : s.fsm.stateReg = .stIdle) :
    (s.fsmNext i).stateReg =
      if i.mAxisTready then idleNext (s.trS i) (s.subtrS i) i.ppsI else .stIdle := by
  simp [St.fsmNext, hst]

/-- Outside `ST_IDLE` the state stays or is followed by one other. -/
theorem St.fsmNext_stateReg_of_busy (hst : s.fsm.stateReg ≠ .stIdle) :
    (s.fsmNext i).stateReg = s.fsm.stateReg ∨
      (s.fsmNext i).stateReg = s.fsm.stateReg.after := by
  cases hs : s.fsm.stateReg with
  | stIdle => exact absurd hs hst
  | stSendTrStatus | stSendCntStatus =>
    cases hr : i.mAxisTready <;> simp [St.fsmNext, hs, hr, StateT.after]
  | stAttTr | stAttSubtr | stAttPps =>
    cases hr : i.mAxisTready
    · simp [St.fsmNext, hs, hr]
    · simp only [St.fsmNext, hs, hr, if_true, StateT.after]
      split <;> simp

/-- Outside `ST_IDLE` every edge makes the output register valid. -/
theorem St.fsmNext_axisTvalidReg_of_busy (hst : s.fsm.stateReg ≠ .stIdle) :
    (s.fsmNext i).axisTvalidReg = true := by
  cases hs : s.fsm.stateReg with
  | stIdle => exact absurd hs hst
  | stAttTr | stSendTrStatus | stSendCntStatus | stAttSubtr | stAttPps =>
    cases hr : i.mAxisTready <;> simp [St.fsmNext, hs, hr]

end FsmNext

/-- The clock edge with `aresetn` high. -/
def St.next {g : Generics} (s : St g) (i : In) : St g where
  adcRegA := adcNextA s i
  adcRegB := adcNextB s i
  arrayPpsReg k := if i.ppsI then (s.metadata i).word k else s.arrayPpsReg k
  adcDatAReg := adcDatNext s.adcRegA s.adcDatAReg
  adcDatBReg := adcDatNext s.adcRegB s.adcDatBReg
  rateACntReg := rateCntNext (scalerMaxTick s.scalerACntReg i.scalerAI) i.ppsI s.rateACntReg
  rateBCntReg := rateCntNext (scalerMaxTick s.scalerBCntReg i.scalerBI) i.ppsI s.rateBCntReg
  scalerACntReg := scalerCntNext (s.tr1S i) s.scalerACntReg i.scalerAI
  scalerBCntReg := scalerCntNext (s.tr2S i) s.scalerBCntReg i.scalerBI
  tr11SDlyReg := s.tr1S i
  tr21SDlyReg := s.tr2S i
  trStatusReg :=
    if s.trS i then trStatusWord s.tr21SDlyReg s.tr11SDlyReg i.clkCntPpsI else s.trStatusReg
  cntStatusReg := if s.trS i then cntStatusWord s.trigCntReg else s.cntStatusReg
  trigCntReg := if s.trS i then s.trigCntReg + 1 else s.trigCntReg
  charge1Reg := chargeNext g s.charge1Reg
  charge2Reg := chargeNext g s.charge2Reg
  arrayScalersReg k := if s.subtrS i then (s.subtrig i).word k else s.arrayScalersReg k
  fsm := s.fsmNext i

/-- The clock edge. -/
def step {g : Generics} (s : St g) (i : In) : St g := if i.aresetn then s.next i else .reset g

/-- The word transferred on the master side in this cycle, if any. -/
def transfer {g : Generics} (s : St g) (i : In) : List (BitVec 32) :=
  if s.fsm.axisTvalidReg && i.mAxisTready then [s.fsm.dataToFifoReg] else []

/-- The words transferred in a run that starts in `s`. -/
def transferred {g : Generics} (s : St g) (is : List In) : List (BitVec 32) :=
  Clocked.collect step transfer s is

end LagoEcosystem.Trigger
