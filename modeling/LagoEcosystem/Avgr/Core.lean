import LagoEcosystem.Averager.Core
import LagoEcosystem.Library.Pulses

/-!
# The averager of `axis_avgr`

`averager` with the port of `tdp_bram` at which the sums are read and the one at which they
are written. `IN_DATA_WIDTH` is 128 and `ADC_DATA_WIDTH` is 16, their defaults; the depth
stays a parameter. The write address is the read address one cycle later. `asym_ram_tdp`,
from which the results are read out, takes its writes from the same registers and is left
out.
-/

namespace LagoEcosystem.Avgr

open Averager Cores

/-- The depth of the memory in samples. -/
structure Generics where
  memDepth : ℕ

/-- The width of a word address. -/
def Generics.awidth (g : Generics) : ℕ := log2c (g.memDepth / ratio)

/-- The input ports. -/
structure In where
  aresetn : Bool
  start : Bool
  restart : Bool
  mode : Bool
  trigI : Bool
  nsamples : BitVec 32
  naverages : BitVec 32
  sAxisTvalid : Bool
  sAxisTdata : Word

inductive StateT where
  | stIdle | stWriteZeros | stWaitTrig | stAvgScope | stAvgN1 | stWriteAvg | stFinish
  deriving DecidableEq, Repr

/-- The registers. `ram` and `doutB` belong to `tdp_bram`. -/
structure St (g : Generics) where
  stateReg : StateT
  addrReg : BitVec g.awidth
  addrDlyReg : BitVec g.awidth
  dataReg : Word
  averagesReg : BitVec 32
  dinbReg : BitVec 16
  treadyReg : Bool
  doneReg : Bool
  wrenReg : Bool
  wrenbReg : Bool
  ram : BitVec g.awidth → Word
  doutB : Word

variable {g : Generics}

/-- The loops over the lanes: the samples are added to the lanes of `x`. -/
def assign (x tdata : Word) : Word := ofLanes fun I => lane I x + lane I tdata

/-- The loop `ASSIGN_AVG`. -/
def assignAvg (data : Word) : BitVec 16 :=
  (List.finRange 8).foldl (fun dinbv K => dinbv + lane K data) 0

/-- The comparison that ends the phases. -/
def St.atEnd (s : St g) (i : In) : Bool := s.addrReg.toNat == i.nsamples.toNat / ratio

/-- The comparison with the last trigger. -/
def St.atLastTrig (s : St g) (i : In) : Bool := s.averagesReg == i.naverages - 1

/-- The memory after the edge. -/
def St.written (s : St g) : BitVec g.awidth → Word :=
  if s.wrenReg then Function.update s.ram s.addrDlyReg s.dataReg else s.ram

/-- What an edge does in every state. The read port shows what the memory held before. -/
def St.tick (s : St g) : St g :=
  { s with addrDlyReg := s.addrReg, ram := s.written, doutB := s.ram s.addrReg }

def St.next (s : St g) (i : In) : St g :=
  match s.stateReg with
  | .stIdle =>
    { s.tick with
      addrReg := 0, dataReg := 0, averagesReg := 0, wrenReg := false, wrenbReg := false,
      treadyReg := false, doneReg := false, dinbReg := 0,
      stateReg := if i.start then .stWriteZeros else .stIdle }
  | .stWriteZeros =>
    if s.atEnd i then
      { s.tick with
        wrenReg := false, wrenbReg := false, addrReg := 0, stateReg := .stWaitTrig }
    else { s.tick with wrenReg := true, wrenbReg := true, addrReg := s.addrReg + 1 }
  | .stWaitTrig =>
    if i.trigI && i.sAxisTvalid then
      { s.tick with treadyReg := true, stateReg := if i.mode then .stAvgN1 else .stAvgScope }
    else s.tick
  | .stAvgScope =>
    if s.atEnd i then
      { s.tick with
        dataReg := assign s.doutB i.sAxisTdata, averagesReg := s.averagesReg + 1, addrReg := 0,
        treadyReg := false, wrenReg := false,
        stateReg := if s.atLastTrig i then .stFinish else .stWaitTrig }
    else
      { s.tick with
        dataReg := assign s.doutB i.sAxisTdata, wrenReg := true, addrReg := s.addrReg + 1 }
  | .stAvgN1 =>
    if s.atEnd i then
      { s.tick with
        dataReg := assign s.dataReg i.sAxisTdata, averagesReg := s.averagesReg + 1, addrReg := 0,
        treadyReg := false, wrenReg := false, dinbReg := assignAvg s.dataReg, wrenbReg := true,
        stateReg := if s.atLastTrig i then .stFinish else .stWriteAvg }
    else
      { s.tick with
        dataReg := assign s.dataReg i.sAxisTdata, wrenReg := true, addrReg := s.addrReg + 1 }
  | .stWriteAvg => { s.tick with wrenbReg := false, dataReg := 0, stateReg := .stWaitTrig }
  | .stFinish =>
    { s.tick with
      wrenbReg := false, doneReg := true, stateReg := if i.restart then .stIdle else .stFinish }

/-- The registers after a clock edge with `aresetn` low. -/
def St.reset (ram : BitVec g.awidth → Word) (doutB : Word) : St g :=
  ⟨.stIdle, 0, 0, 0, 0, 0, false, false, false, false, ram, doutB⟩

/-- The clock edge. The memory has no reset. -/
def step (s : St g) (i : In) : St g :=
  if i.aresetn then s.next i else .reset s.tick.ram s.tick.doutB

theorem step_of_aresetn {s : St g} {i : In} (h : i.aresetn = true) : step s i = s.next i :=
  if_pos h

/-! ## One edge, state by state -/

section Edges

variable {s : St g} {i : In}

theorem next_stIdle (hst : s.stateReg = .stIdle) : s.next i =
    { s.tick with
      addrReg := 0, dataReg := 0, averagesReg := 0, wrenReg := false, wrenbReg := false
      treadyReg := false, doneReg := false, dinbReg := 0
      stateReg := if i.start then .stWriteZeros else .stIdle } := by
  simp [St.next, hst]

theorem next_stWriteZeros (hst : s.stateReg = .stWriteZeros) (h : s.atEnd i = false) :
    s.next i =
      { s.tick with
        stateReg := .stWriteZeros, wrenReg := true, wrenbReg := true
        addrReg := s.addrReg + 1 } := by
  simp [St.next, hst, h, St.tick]

theorem next_stWriteZeros_end (hst : s.stateReg = .stWriteZeros) (h : s.atEnd i = true) :
    s.next i =
      { s.tick with
        wrenReg := false, wrenbReg := false, addrReg := 0, stateReg := .stWaitTrig } := by
  simp [St.next, hst, h]

theorem next_stWaitTrig (hst : s.stateReg = .stWaitTrig) (h : (i.trigI && i.sAxisTvalid) = true) :
    s.next i =
      { s.tick with treadyReg := true, stateReg := if i.mode then .stAvgN1 else .stAvgScope } := by
  simp only [St.next, hst, h, if_true]

theorem next_stWaitTrig_wait (hst : s.stateReg = .stWaitTrig)
    (h : (i.trigI && i.sAxisTvalid) = false) :
    s.next i = { s.tick with stateReg := .stWaitTrig } := by
  simp only [St.next, hst, h, St.tick]
  rfl

theorem next_stAvgScope (hst : s.stateReg = .stAvgScope) (h : s.atEnd i = false) :
    s.next i =
      { s.tick with
        stateReg := .stAvgScope, dataReg := assign s.doutB i.sAxisTdata, wrenReg := true
        addrReg := s.addrReg + 1 } := by
  simp [St.next, hst, h, St.tick]

theorem next_stAvgScope_end (hst : s.stateReg = .stAvgScope) (h : s.atEnd i = true) :
    s.next i =
      { s.tick with
        dataReg := assign s.doutB i.sAxisTdata, averagesReg := s.averagesReg + 1, addrReg := 0
        treadyReg := false, wrenReg := false
        stateReg := if s.atLastTrig i then .stFinish else .stWaitTrig } := by
  simp [St.next, hst, h]

theorem next_stFinish (hst : s.stateReg = .stFinish) : s.next i =
    { s.tick with
      wrenbReg := false, doneReg := true
      stateReg := if i.restart then .stIdle else .stFinish } := by
  simp [St.next, hst]

end Edges

end LagoEcosystem.Avgr
