import LagoEcosystem.AxisFifo.Safety
import LagoEcosystem.Cores.Functions
import Mathlib.Logic.Function.Basic

/-!
# The stream FIFO

`axis_fifo` around its controller, with the memory `dp_ram`. The handshake registers
follow the flags of the controller one clock later, while the write and read enables use
the flags themselves. `portAFirst` is the order in which the two processes of the memory
run at a common edge, which its shared variable leaves open.
-/

namespace LagoEcosystem.AxisFifo

open Clocked Cores

/-- The generics of the core. With a depth of one the pointers would have no second bit,
which the source reads. -/
structure Generics where
  axisTdataWidth : ℕ
  fifoDepth : ℕ
  two_le : 2 ≤ fifoDepth

def Generics.awidth (g : Generics) : ℕ := log2c g.fifoDepth

theorem Generics.awidth_pos (g : Generics) : 0 < g.awidth := log2c_pos g.two_le

/-- The default values of the source. -/
def Generics.default : Generics := ⟨32, 16, by decide⟩

variable {g : Generics}

/-- A word of the stream. -/
abbrev Word (g : Generics) := BitVec g.axisTdataWidth

/-- The inputs of the slave side at an edge of its clock. -/
structure Slave (g : Generics) where
  aresetn : Bool
  tvalid : Bool
  tdata : Word g

/-- The inputs of the master side at an edge of its clock. -/
structure Master where
  aresetn : Bool
  tready : Bool

/-- The edges of an event. -/
structure In (g : Generics) where
  sAxis : Option (Slave g)
  mAxis : Option Master
  portAFirst : Bool

structure St (g : Generics) where
  ctrl : Ctrl g.awidth
  sTreadyReg : Bool
  mTvalidReg : Bool
  ram : BitVec g.awidth → Word g
  dob : Word g

/-- The registers after both sides were reset. The memory keeps what it held. -/
def St.reset (ram : BitVec g.awidth → Word g) (dob : Word g) : St g where
  ctrl := .reset _
  sTreadyReg := false
  mTvalidReg := false
  ram := ram
  dob := dob

def St.fullS (s : St g) : Bool := s.ctrl.full
def St.emptyS (s : St g) : Bool := s.ctrl.empty
def St.weS (s : St g) (p : Slave g) : Bool := !s.fullS && p.tvalid
def St.rdS (s : St g) (p : Master) : Bool := !s.emptyS && p.tready

/-- The ports of the controller. -/
def St.ctrlIn (s : St g) (i : In g) : CtrlIn where
  clkw := i.sAxis.map fun p => ⟨p.aresetn, s.weS p⟩
  clkr := i.mAxis.map fun p => ⟨p.aresetn, s.rdS p⟩

/-- Port A of the memory. -/
def St.ramNext (s : St g) (i : In g) : BitVec g.awidth → Word g :=
  i.sAxis.elim s.ram fun p =>
    if s.weS p then Function.update s.ram s.ctrl.wAddr p.tdata else s.ram

/-- Port B of the memory. -/
def St.dobNext (s : St g) (i : In g) : Word g :=
  i.mAxis.elim s.dob fun _ => (if i.portAFirst then s.ramNext i else s.ram) s.ctrl.rAddr

def step (s : St g) (i : In g) : St g where
  ctrl := s.ctrl.step (s.ctrlIn i)
  sTreadyReg := i.sAxis.elim s.sTreadyReg fun p => p.aresetn && !s.fullS
  mTvalidReg := i.mAxis.elim s.mTvalidReg fun p => p.aresetn && !s.emptyS
  ram := s.ramNext i
  dob := s.dobNext i

/-- The word transferred on the slave side at this event. -/
def acceptOut (s : St g) (i : In g) : List (Word g) :=
  i.sAxis.elim [] fun p => if p.tvalid && s.sTreadyReg then [p.tdata] else []

/-- The word transferred on the master side at this event. -/
def deliverOut (s : St g) (i : In g) : List (Word g) :=
  i.mAxis.elim [] fun p => if s.mTvalidReg && p.tready then [s.dob] else []

/-- No reset at the edges of the event. -/
def In.Running (i : In g) : Prop :=
  (∀ p ∈ i.sAxis, p.aresetn = true) ∧ (∀ p ∈ i.mAxis, p.aresetn = true)

instance (i : In g) : Decidable i.Running := inferInstanceAs (Decidable (_ ∧ _))

theorem St.ctrlIn_running (s : St g) {i : In g} (h : i.Running) : (s.ctrlIn i).Running := by
  obtain ⟨hs, hm⟩ := h
  constructor <;> simp only [ctrlIn, Option.mem_map] <;> rintro _ ⟨p, hp, rfl⟩
  · exact hs p hp
  · exact hm p hp

end LagoEcosystem.AxisFifo
