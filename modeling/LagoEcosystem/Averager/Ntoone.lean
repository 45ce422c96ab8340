import LagoEcosystem.Averager.Sweeps

/-!
# The sums of the triggers

`avg_ntoone` of `axis_avgr16bits`, which adds up everything that follows a trigger and
stores one result for each trigger. The lanes are added separately while the words arrive,
and to each other in the state that writes the result. `I_DWIDTH` is 128 and `ADC_DWIDTH`
and `O_DWIDTH` are 16, their defaults; `A` is `MEM_AWIDTH`. The reader is an instance of its
own, of which the state machine sees `restart_s`.
-/

namespace LagoEcosystem.Ntoone

open Averager Acquisition

variable {A : ℕ}

inductive StateT where
  | stIdle | stWaitTrig | stAvgN1 | stWriteAvg | stFinish
  deriving DecidableEq, Repr

/-- The registers. `ram` belongs to `tdp_ram_pip` and `edgeReg` is the register of
`edge_det`. -/
structure St (A : ℕ) where
  stateReg : StateT
  tdpAddraReg : BitVec A
  dataReg : Word
  samplesReg : BitVec 16
  avgReg : BitVec 16
  ram : BitVec A → BitVec 16
  edgeReg : EdgeT

/-- The registers after a clock edge with `aresetn` low. -/
def St.reset (ram : BitVec A → BitVec 16) : St A := ⟨.stIdle, 0, 0, 0, 0, ram, .zero⟩

def St.restartOs (s : St A) : Bool := s.edgeReg == .edge

/-- The signals the state machine drives. -/
structure Ctl (A : ℕ) where
  stateNext : StateT
  tdpWea : Bool
  tdpAddraNext : BitVec A
  dataNext : Word
  samplesNext : BitVec 16
  tdpDia : BitVec 16
  treadyS : Bool
  avgNext : BitVec 16
  doneS : Bool

/-- The values assigned before the case statement. -/
def St.hold (s : St A) : Ctl A where
  stateNext := s.stateReg
  tdpWea := false
  tdpAddraNext := s.tdpAddraReg
  dataNext := s.dataReg
  samplesNext := s.samplesReg
  tdpDia := 0
  treadyS := false
  avgNext := s.avgReg
  doneS := false

/-- The loop `ASSIGN_N`. -/
def assignN (data : Word) (x : Word) : Word := ofLanes fun I => lane I data + sampleOf I x

/-- The loop `ASSIGN_AVG1`. -/
def assignAvg (data : Word) : BitVec 16 :=
  (List.finRange 8).foldl (fun dinbv K => dinbv + lane K data) 0

/-- The word is the last one of a trigger. -/
def St.atLast (s : St A) (i : In) : Bool := s.samplesReg == i.nsamplesI / 8#16 - 1

def St.ctl (s : St A) (i : In) : Ctl A :=
  match s.stateReg with
  | .stIdle =>
    { s.hold with
      samplesNext := 0, tdpAddraNext := 0, avgNext := 0, dataNext := 0,
      stateNext := if i.enI && i.startI then .stWaitTrig else .stIdle }
  | .stWaitTrig => { s.hold with stateNext := if i.trigI then .stAvgN1 else .stWaitTrig }
  | .stAvgN1 =>
    if i.sAxisTvalid then
      { s.hold with
        treadyS := true, dataNext := assignN s.dataReg i.sAxisTdata,
        samplesNext := if s.atLast i then 0 else s.samplesReg + 1,
        stateNext := if s.atLast i then .stWriteAvg else .stAvgN1 }
    else s.hold
  | .stWriteAvg =>
    { s.hold with
      tdpDia := assignAvg s.dataReg, tdpWea := true, dataNext := 0,
      tdpAddraNext := s.tdpAddraReg + 1, avgNext := s.avgReg + 1,
      stateNext := if s.avgReg == i.naveragesI - 1 then .stFinish else .stWaitTrig }
  | .stFinish =>
    { s.hold with doneS := true, stateNext := if s.restartOs then .stIdle else .stFinish }

def St.ramNext (s : St A) (i : In) : BitVec A → BitVec 16 :=
  if (s.ctl i).tdpWea then Function.update s.ram s.tdpAddraReg (s.ctl i).tdpDia else s.ram

def St.next (s : St A) (i : In) : St A where
  stateReg := (s.ctl i).stateNext
  tdpAddraReg := (s.ctl i).tdpAddraNext
  dataReg := (s.ctl i).dataNext
  samplesReg := (s.ctl i).samplesNext
  avgReg := (s.ctl i).avgNext
  ram := s.ramNext i
  edgeReg := s.edgeReg.next i.restartS

/-- The clock edge. The memory has no reset. -/
def step (s : St A) (i : In) : St A := if i.aresetn then s.next i else .reset (s.ramNext i)

theorem step_of_aresetn {s : St A} {i : In} (h : i.aresetn = true) : step s i = s.next i :=
  if_pos h

/-! ## One edge, state by state -/

section Edges

variable {s : St A} {i : In}

/-- What an edge does in every state. -/
def St.tick (s : St A) (i : In) : St A := { s with edgeReg := s.edgeReg.next i.restartS }

theorem next_stIdle (hst : s.stateReg = .stIdle) : s.next i =
    { s.tick i with
      stateReg := if i.enI && i.startI then .stWaitTrig else .stIdle
      tdpAddraReg := 0, dataReg := 0, samplesReg := 0, avgReg := 0 } := by
  simp [St.next, St.ramNext, St.ctl, hst, St.hold, St.tick]

theorem next_stWaitTrig (hst : s.stateReg = .stWaitTrig) : s.next i =
    { s.tick i with stateReg := if i.trigI then .stAvgN1 else .stWaitTrig } := by
  simp [St.next, St.ramNext, St.ctl, hst, St.hold, St.tick]

/-- A gap in the stream holds everything. -/
theorem next_of_gap (hst : s.stateReg = .stAvgN1) (hv : i.sAxisTvalid = false) :
    s.next i = s.tick i := by
  simp [St.next, St.ramNext, St.ctl, hst, St.hold, hv, St.tick]

theorem next_stAvgN1 (hst : s.stateReg = .stAvgN1) (hv : i.sAxisTvalid = true) : s.next i =
    { s.tick i with
      stateReg := if s.atLast i then .stWriteAvg else .stAvgN1
      dataReg := assignN s.dataReg i.sAxisTdata
      samplesReg := if s.atLast i then 0 else s.samplesReg + 1 } := by
  simp [St.next, St.ramNext, St.ctl, hst, St.hold, hv, St.tick]

theorem next_stWriteAvg (hst : s.stateReg = .stWriteAvg) : s.next i =
    { s.tick i with
      stateReg := if s.avgReg == i.naveragesI - 1 then .stFinish else .stWaitTrig
      tdpAddraReg := s.tdpAddraReg + 1, dataReg := 0, avgReg := s.avgReg + 1
      ram := Function.update s.ram s.tdpAddraReg (assignAvg s.dataReg) } := by
  simp [St.next, St.ramNext, St.ctl, hst, St.hold, St.tick]

theorem next_stFinish (hst : s.stateReg = .stFinish) : s.next i =
    { s.tick i with stateReg := if s.restartOs then .stIdle else .stFinish } := by
  simp [St.next, St.ramNext, St.ctl, hst, St.hold, St.tick]

end Edges

/-! ## The record of an acquisition -/

/-- Whole words, at least one; at least one trigger and no more than there are cells. -/
structure Valid (A : ℕ) (c : Settings) : Prop where
  whole : ratio ∣ c.nsamples.toNat
  pos : ratio ≤ c.nsamples.toNat
  average : 1 ≤ c.sweeps
  fits : c.sweeps ≤ 2 ^ A

instance (c : Settings) : Decidable (Valid A c) :=
  decidable_of_iff (ratio ∣ c.nsamples.toNat ∧ ratio ≤ c.nsamples.toNat ∧
      1 ≤ c.sweeps ∧ c.sweeps ≤ 2 ^ A)
    ⟨fun ⟨h1, h2, h3, h4⟩ => ⟨h1, h2, h3, h4⟩, fun ⟨h1, h2, h3, h4⟩ => ⟨h1, h2, h3, h4⟩⟩

/-- The words after each trigger. -/
def St.record (s : St A) (i : In) (sweeps : List (List Word)) : List (List Word) :=
  Averager.record (s.stateReg == .stIdle) (s.stateReg == .stWaitTrig && i.trigI)
    ((s.ctl i).treadyS && i.sAxisTvalid) i.sAxisTdata sweeps

/-- The core as a machine that works through acquisitions. -/
def machine (A : ℕ) : Machine (St A) In Settings (List (List Word)) where
  step := step
  idle s := s.stateReg == .stIdle
  settings := In.settings
  record := St.record

/-- The core after a reset. The memory may hold anything. -/
def afterReset (ram : BitVec A → BitVec 16) : Tracked (St A) Settings (List (List Word)) :=
  ⟨.reset ram, none, []⟩

/-- A cycle out of reset; during an acquisition the settings are valid and stay. -/
def Steady (t : Tracked (St A) Settings (List (List Word))) (i : In) : Prop :=
  i.aresetn = true ∧ (machine A).Steady (Valid A) t i

instance (t : Tracked (St A) Settings (List (List Word))) (i : In) : Decidable (Steady t i) :=
  inferInstanceAs (Decidable (_ ∧ _))

/-! ## The law -/

/-- The sum of all samples of the words, modulo `2 ^ 16`. -/
def result (words : List Word) : BitVec 16 :=
  (words.map fun x => ((List.finRange 8).map fun I => sampleOf I x).sum).sum

/-- In `ST_FINISH` there is a result for each trigger, which is the sum of its own words. -/
def ResultLaw (t : Tracked (St A) Settings (List (List Word))) : Prop :=
  t.st.stateReg = .stFinish → ∃ c ∈ t.settings,
    t.record.length = c.naverages.toNat ∧
    (∀ sweep ∈ t.record, sweep.length = c.nsamples.toNat / 8) ∧
    ∀ (k : ℕ) (hk : k < t.record.length), t.st.ram (BitVec.ofNat A k) = result t.record[k]

end LagoEcosystem.Ntoone
