import LagoEcosystem.Cores.Functions
import LagoEcosystem.Library.Clocked
import Mathlib.Algebra.Group.Nat.Defs
import Mathlib.Data.Nat.Notation

/-!
# The RAM writer

`axis_ram_writer`, register by register: it packs the words of a stream into bursts of
16 beats and writes them into a ring of `2 ^ ADDR_WIDTH` words from the address
`cfg_data` on. `AXI_DATA_WIDTH` and `AXIS_TDATA_WIDTH` have their default 64, the width
of the FIFO port they are wired to; the other generics stay parameters.

The primitive `FIFO36E1` is not part of the source. It is a queue here whose head is the
output word, cleared by the reset. Its flags `FULL` and `ALMOSTEMPTY` are inputs, so a run
may show any pattern of them; `FlagsHonest` is the documented meaning of `ALMOSTEMPTY`.
-/

namespace LagoEcosystem.RamWriter

open Clocked Cores

def axiDataWidth : ℕ := 64

/-- Address bits inside a data word. -/
def addrSize : ℕ := clogb2 (axiDataWidth / 8 - 1)

theorem addrSize_eq : addrSize = 3 := by decide

/-- The generics of the core. The source reads bits 3 to 0 of the word address, and the
byte address, `ADDR_SIZE` bits longer, has to fit the port it is assigned to. -/
structure Generics where
  addrWidth : ℕ
  axiIdWidth : ℕ
  axiAddrWidth : ℕ
  four_le : 4 ≤ addrWidth
  fits : addrWidth + addrSize ≤ axiAddrWidth

/-- The instance of the block design. -/
def Generics.blockDesign : Generics := ⟨22, 3, 32, by decide, by decide⟩

variable {g : Generics}

/-- The input ports, with the flags of the FIFO. The write response is not looked at. -/
structure In (g : Generics) where
  aresetn : Bool
  cfgData : BitVec g.axiAddrWidth
  fifoFull : Bool
  fifoAlmostempty : Bool
  mAxiAwready : Bool
  mAxiWready : Bool
  sAxisTdata : BitVec 64
  sAxisTvalid : Bool

/-- The registers, and the words in the FIFO. -/
structure St (g : Generics) where
  intAwvalidReg : Bool
  intWvalidReg : Bool
  intAddrReg : BitVec g.addrWidth
  intWidReg : BitVec g.axiIdWidth
  fifo : List (BitVec 64)

/-- The registers after a clock edge with `aresetn` low. -/
def St.reset (g : Generics) : St g where
  intAwvalidReg := false
  intWvalidReg := false
  intAddrReg := 0
  intWidReg := 0
  fifo := []

/-! ## Wires -/

def In.intTreadyWire (i : In g) : Bool := !i.fifoFull
def In.intEmptyWire (i : In g) : Bool := i.fifoAlmostempty
/-- The write enable of the FIFO, `tmp_s2`. -/
def In.wren (i : In g) : Bool := i.intTreadyWire && i.sAxisTvalid

def St.intWlastWire (s : St g) : Bool := s.intAddrReg.extractLsb' 0 4 == 15#4
def St.intRdenWire (s : St g) (i : In g) : Bool := i.mAxiWready && s.intWvalidReg

def St.mAxiAwaddr (s : St g) (cfgData : BitVec g.axiAddrWidth) : BitVec g.axiAddrWidth :=
  cfgData + (s.intAddrReg ++ BitVec.ofNat addrSize 0).setWidth g.axiAddrWidth
/-- The output of an empty FIFO says nothing. -/
def St.mAxiWdata (s : St g) : Option (BitVec 64) := s.fifo.head?

/-! ## Next values -/

/-- Both channels are idle and the FIFO holds a burst. -/
def St.starts (s : St g) (i : In g) : Bool :=
  !i.intEmptyWire && !s.intAwvalidReg && !s.intWvalidReg

def St.intAwvalidNext (s : St g) (i : In g) : Bool :=
  if s.starts i || (i.mAxiWready && s.intWlastWire && !i.intEmptyWire) then true
  else if i.mAxiAwready && s.intAwvalidReg then false
  else s.intAwvalidReg

def St.intWvalidNext (s : St g) (i : In g) : Bool :=
  if s.starts i then true
  else if i.mAxiWready && s.intWlastWire && i.intEmptyWire then false
  else s.intWvalidReg

def St.intAddrNext (s : St g) (i : In g) : BitVec g.addrWidth :=
  if s.intRdenWire i then s.intAddrReg + 1 else s.intAddrReg

/-- The source does not ask for `int_wvalid_reg` here. -/
def St.intWidNext (s : St g) (i : In g) : BitVec g.axiIdWidth :=
  if i.mAxiWready && s.intWlastWire then s.intWidReg + 1 else s.intWidReg

/-- A word is read, then a word is written. -/
def St.fifoNext (s : St g) (i : In g) : List (BitVec 64) :=
  (if s.intRdenWire i then s.fifo.tail else s.fifo) ++ if i.wren then [i.sAxisTdata] else []

def St.next (s : St g) (i : In g) : St g where
  intAwvalidReg := s.intAwvalidNext i
  intWvalidReg := s.intWvalidNext i
  intAddrReg := s.intAddrNext i
  intWidReg := s.intWidNext i
  fifo := s.fifoNext i

def step (s : St g) (i : In g) : St g := if i.aresetn then s.next i else .reset g

theorem step_of_aresetn {s : St g} {i : In g} (h : i.aresetn = true) : step s i = s.next i :=
  if_pos h

/-! ## What the two sides see -/

/-- A beat of the data channel. -/
structure Beat (g : Generics) where
  data : Option (BitVec 64)
  last : Bool
  id : BitVec g.axiIdWidth

/-- The word accepted from the stream in this cycle. -/
def acceptOut (_ : St g) (i : In g) : List (BitVec 64) :=
  if i.intTreadyWire && i.sAxisTvalid then [i.sAxisTdata] else []

/-- The data handshake of this cycle. -/
def beatOut (s : St g) (i : In g) : List (Beat g) :=
  if s.intWvalidReg && i.mAxiWready then [⟨s.mAxiWdata, s.intWlastWire, s.intWidReg⟩] else []

/-- The address handshake of this cycle. -/
def addressOut (s : St g) (i : In g) : List (BitVec g.axiAddrWidth) :=
  if s.intAwvalidReg && i.mAxiAwready then [s.mAxiAwaddr i.cfgData] else []

/-- The words accepted, the beats transferred and the addresses transferred in a run that
starts after reset. -/
def accepted (is : List (In g)) : List (BitVec 64) := collect step acceptOut (.reset g) is
def beats (is : List (In g)) : List (Beat g) := collect step beatOut (.reset g) is
def addresses (is : List (In g)) : List (BitVec g.axiAddrWidth) :=
  collect step addressOut (.reset g) is

/-- The registers after the cycles of `is`. -/
def after (is : List (In g)) : St g := run step (.reset g) is

/-- With `ALMOSTEMPTY` low, at least 16 words remain after any word read in the cycle. -/
def FlagsHonest (s : St g) (i : In g) : Prop :=
  i.fifoAlmostempty = false →
    16 ≤ (if s.intRdenWire i then s.fifo.tail else s.fifo).length

instance (s : St g) (i : In g) : Decidable (FlagsHonest s i) :=
  inferInstanceAs (Decidable (_ → _))

/-! ## The counter of the beats -/

/-- The low four address bits count the beats of the burst. -/
theorem St.intWlastWire_iff {s : St g} {k : ℕ}
    (h : s.intAddrReg.toNat = k % 2 ^ g.addrWidth) : s.intWlastWire = true ↔ k % 16 = 15 := by
  have hdvd : 16 ∣ 2 ^ g.addrWidth := by
    simpa using Nat.pow_dvd_pow 2 g.four_le
  rw [intWlastWire, beq_iff_eq, ← BitVec.toNat_inj, BitVec.extractLsb'_toNat, h]
  simp [Nat.mod_mod_of_dvd _ hdvd]

theorem intAddrNext_eq {s : St g} {k : ℕ} (h : s.intAddrReg.toNat = k % 2 ^ g.addrWidth)
    (i : In g) :
    (s.intAddrNext i).toNat =
      (k + (if s.intRdenWire i then 1 else 0)) % 2 ^ g.addrWidth := by
  have hone : 1 % 2 ^ g.addrWidth = 1 :=
    Nat.mod_eq_of_lt (Nat.one_lt_two_pow (by have := g.four_le; omega))
  unfold St.intAddrNext
  split
  · rw [BitVec.toNat_add, h]
    simp
  · simp [h]

end LagoEcosystem.RamWriter
