import LagoEcosystem.Library.Clocked
import LagoEcosystem.Library.Saturating
import Mathlib.Logic.Function.Basic

/-!
# The histogram core

`axis_histogram` (v1_1), register by register, with the memory at its port. The memory is
port A of a `blk_mem_gen` with its default output register: an address presented at an
edge is answered two edges later. What the first of these registers takes in a write cycle
depends on the operating mode of the memory, which no block design sets; here it is an
input.
-/

namespace LagoEcosystem.Histogram

open Clocked

/-- The generics of the core. The source takes its address from the low bits of a sample. -/
structure Generics where
  axisTdataWidth : ℕ
  bramDataWidth : ℕ
  bramAddrWidth : ℕ
  cntrWidth : ℕ
  fits : bramAddrWidth ≤ axisTdataWidth

/-- The instance of the block design. -/
def Generics.blockDesign : Generics := ⟨16, 32, 14, 32, by decide⟩

variable {g : Generics}

abbrev Bin (g : Generics) := BitVec g.bramAddrWidth
abbrev Count (g : Generics) := BitVec g.bramDataWidth

/-- The input ports, and what the memory latches in a write cycle. -/
structure In (g : Generics) where
  aresetn : Bool
  cfgData : BitVec g.cntrWidth
  sAxisTvalid : Bool
  sAxisTdata : BitVec g.axisTdataWidth
  latchOnWrite : Count g

/-- A cycle with a sample of bin 5, and one without a sample. -/
def In.sample : In .blockDesign := ⟨true, 1000, true, 5, 0⟩
def In.gap : In .blockDesign := ⟨true, 1000, false, 0, 0⟩

inductive StateT where
  | stIdle | stWriteZeros | stReadAddr | stDelay1 | stIncData | stDelay2
  deriving DecidableEq, Repr

/-- The memory with the two registers of its port. -/
structure Bram (g : Generics) where
  mem : Bin g → Count g
  latch : Count g
  rddata : Count g

structure St (g : Generics) where
  stateReg : StateT
  cntrReg : BitVec g.cntrWidth
  compReg : Bool
  addrReg : Bin g
  dataReg : Count g
  treadyReg : Bool
  wrenReg : Bool
  bram : Bram g

/-- The registers after a clock edge with `aresetn` low. The memory keeps its words. -/
def St.reset (bram : Bram g) : St g where
  stateReg := .stIdle
  cntrReg := 0
  compReg := false
  addrReg := 0
  dataReg := 0
  treadyReg := false
  wrenReg := false
  bram := bram

/-- The low bits of the sample at the input. -/
def In.bin (i : In g) : Bin g := i.sAxisTdata.setWidth g.bramAddrWidth

/-! ## The port of the memory -/

def St.bramPortaAddr (s : St g) (i : In g) : Bin g := if s.wrenReg then s.addrReg else i.bin

def St.bramNext (s : St g) (i : In g) : Bram g where
  mem := if s.wrenReg then Function.update s.bram.mem (s.bramPortaAddr i) s.dataReg else s.bram.mem
  latch := if s.wrenReg then i.latchOnWrite else s.bram.mem (s.bramPortaAddr i)
  rddata := s.bram.latch

/-! ## Next values -/

def St.compNext (s : St g) (i : In g) : Bool := s.cntrReg != i.cfgData - 1

/-- The counter runs with `tready`; the source does not ask for `s_axis_tvalid`. -/
def St.cntrNext (s : St g) : BitVec g.cntrWidth :=
  if s.compReg && s.treadyReg then s.cntrReg + 1 else s.cntrReg

/-- The word read is at its greatest value. -/
def St.wrenS (s : St g) : Bool := s.bram.rddata == BitVec.allOnes g.bramDataWidth

/-- A sample is taken into the histogram. -/
def St.takes (s : St g) (i : In g) : Bool := i.sAxisTvalid && s.compReg

def St.stateNext (s : St g) (i : In g) : StateT :=
  match s.stateReg with
  | .stIdle => .stWriteZeros
  | .stWriteZeros => if s.addrReg == BitVec.allOnes _ then .stReadAddr else .stWriteZeros
  | .stReadAddr => if s.takes i then .stDelay1 else .stReadAddr
  | .stDelay1 => .stIncData
  | .stIncData => .stDelay2
  | .stDelay2 => .stReadAddr

def St.addrNext (s : St g) (i : In g) : Bin g :=
  match s.stateReg with
  | .stIdle => 0
  | .stWriteZeros => s.addrReg + 1
  | .stReadAddr => if s.takes i then i.bin else s.addrReg
  | _ => s.addrReg

def St.dataNext (s : St g) : Count g :=
  match s.stateReg with
  | .stIdle => 0
  | .stIncData => s.bram.rddata + 1
  | _ => s.dataReg

def St.treadyNext (s : St g) (i : In g) : Bool :=
  match s.stateReg with
  | .stWriteZeros => if s.addrReg == BitVec.allOnes _ then true else s.treadyReg
  | .stReadAddr => if s.takes i then false else s.treadyReg
  | .stDelay2 => true
  | _ => s.treadyReg

def St.wrenNext (s : St g) : Bool :=
  match s.stateReg with
  | .stIdle => true
  | .stWriteZeros => if s.addrReg == BitVec.allOnes _ then false else s.wrenReg
  | .stIncData => !s.wrenS
  | .stDelay2 => false
  | _ => s.wrenReg

def St.next (s : St g) (i : In g) : St g where
  stateReg := s.stateNext i
  cntrReg := s.cntrNext
  compReg := s.compNext i
  addrReg := s.addrNext i
  dataReg := s.dataNext
  treadyReg := s.treadyNext i
  wrenReg := s.wrenNext
  bram := s.bramNext i

def step (s : St g) (i : In g) : St g := if i.aresetn then s.next i else .reset (s.bramNext i)

theorem step_of_aresetn {s : St g} {i : In g} (h : i.aresetn = true) : step s i = s.next i :=
  if_pos h

theorem step_of_reset {s : St g} {i : In g} (h : i.aresetn = false) :
    step s i = .reset (s.bramNext i) :=
  if_neg (Bool.eq_false_iff.mp h)

/-! ## One edge, state by state -/

section Edges

variable {s : St g} {i : In g}

/-- What an edge does in every state. -/
def St.tick (s : St g) (i : In g) : St g :=
  { s with cntrReg := s.cntrNext, compReg := s.compNext i, bram := s.bramNext i }

theorem next_stIdle (hst : s.stateReg = .stIdle) : s.next i =
    { s.tick i with stateReg := .stWriteZeros, addrReg := 0, dataReg := 0, wrenReg := true } := by
  simp [St.next, St.tick, hst, St.stateNext, St.addrNext, St.dataNext, St.treadyNext, St.wrenNext]

theorem next_stWriteZeros (hst : s.stateReg = .stWriteZeros)
    (hlast : s.addrReg ≠ BitVec.allOnes _) :
    s.next i = { s.tick i with addrReg := s.addrReg + 1 } := by
  simp [St.next, St.tick, hst, hlast, St.stateNext, St.addrNext, St.dataNext, St.treadyNext,
    St.wrenNext]

theorem next_stWriteZeros_last (hst : s.stateReg = .stWriteZeros)
    (hlast : s.addrReg = BitVec.allOnes _) : s.next i =
      { s.tick i with
        stateReg := .stReadAddr, addrReg := s.addrReg + 1, treadyReg := true,
        wrenReg := false } := by
  simp [St.next, St.tick, hst, hlast, St.stateNext, St.addrNext, St.dataNext, St.treadyNext,
    St.wrenNext]

theorem next_stReadAddr (hst : s.stateReg = .stReadAddr) (htake : s.takes i = false) :
    s.next i = s.tick i := by
  simp [St.next, St.tick, hst, htake, St.stateNext, St.addrNext, St.dataNext, St.treadyNext,
    St.wrenNext]

theorem next_stReadAddr_take (hst : s.stateReg = .stReadAddr) (htake : s.takes i = true) :
    s.next i = { s.tick i with
      stateReg := .stDelay1, addrReg := i.bin, treadyReg := false } := by
  simp [St.next, St.tick, hst, htake, St.stateNext, St.addrNext, St.dataNext, St.treadyNext,
    St.wrenNext]

theorem next_stDelay1 (hst : s.stateReg = .stDelay1) :
    s.next i = { s.tick i with stateReg := .stIncData } := by
  simp [St.next, St.tick, hst, St.stateNext, St.addrNext, St.dataNext, St.treadyNext, St.wrenNext]

theorem next_stIncData (hst : s.stateReg = .stIncData) : s.next i =
    { s.tick i with
      stateReg := .stDelay2, dataReg := s.bram.rddata + 1, wrenReg := !s.wrenS } := by
  simp [St.next, St.tick, hst, St.stateNext, St.addrNext, St.dataNext, St.treadyNext, St.wrenNext]

theorem next_stDelay2 (hst : s.stateReg = .stDelay2) : s.next i =
    { s.tick i with stateReg := .stReadAddr, treadyReg := true, wrenReg := false } := by
  simp [St.next, St.tick, hst, St.stateNext, St.addrNext, St.dataNext, St.treadyNext, St.wrenNext]

end Edges

/-! ## What passes -/

/-- The sample transferred on the slave side in this cycle, as its bin. -/
def transferOut (s : St g) (i : In g) : List (Bin g) :=
  if i.sAxisTvalid && s.treadyReg then [i.bin] else []

/-- The sample presented in `ST_READ_ADDR` while counting is enabled. -/
def accumulateOut (s : St g) (i : In g) : List (Bin g) :=
  if s.stateReg = .stReadAddr ∧ s.takes i then [i.bin] else []

/-- The sample whose count goes back to the memory in this cycle, saturated or not. -/
def addOut (s : St g) (_ : In g) : List (Bin g) :=
  if s.stateReg = .stDelay2 then [s.addrReg] else []

section Run

variable (bram : Bram g) (is : List (In g))

def after : St g := run step (.reset bram) is
def transferred : List (Bin g) := collect step transferOut (.reset bram) is
def accumulated : List (Bin g) := collect step accumulateOut (.reset bram) is
def added : List (Bin g) := collect step addOut (.reset bram) is

variable (i : In g)

theorem after_snoc : after bram (is ++ [i]) = step (after bram is) i := by simp [after]
theorem transferred_snoc :
    transferred bram (is ++ [i]) = transferred bram is ++ transferOut (after bram is) i := by
  simp [transferred, after]
theorem accumulated_snoc :
    accumulated bram (is ++ [i]) = accumulated bram is ++ accumulateOut (after bram is) i := by
  simp [accumulated, after]
theorem added_snoc : added bram (is ++ [i]) = added bram is ++ addOut (after bram is) i := by
  simp [added, after]

end Run

end LagoEcosystem.Histogram
