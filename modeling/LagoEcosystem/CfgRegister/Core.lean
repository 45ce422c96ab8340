import LagoEcosystem.Cores.Functions
import LagoEcosystem.Library.BitFields
import LagoEcosystem.Library.Clocked

/-!
# The configuration register

`axi_cfg_register`: a block of words that the processor writes and reads over AXI4-Lite
and that the other cores see as their configuration bits. Every bit is a flip-flop `FDRE`
of its own. `AXI_DATA_WIDTH` is 32, its default and its value in every block design; the
number of words and the width of the address stay parameters.
-/

namespace LagoEcosystem.CfgRegister

open BitFields Clocked Cores

def axiDataWidth : ℕ := 32

/-- The address bits inside a word. -/
def addrLsb : ℕ := clogb2 (axiDataWidth / 8 - 1)

theorem addrLsb_eq : addrLsb = 2 := by decide

/-- The address bits that select one of `cfgSize` words. -/
def cfgWidth (cfgSize : ℕ) : ℕ := if 1 < cfgSize then clogb2 (cfgSize - 1) else 1

theorem le_two_pow_cfgWidth (cfgSize : ℕ) : cfgSize ≤ 2 ^ cfgWidth cfgSize := by
  unfold cfgWidth
  split
  · have := lt_two_pow_clogb2 (cfgSize - 1)
    omega
  · omega

/-- The generics of the core. The slice of the address that selects a word has to exist. -/
structure Generics where
  cfgDataWidth : ℕ
  axiAddrWidth : ℕ
  fits : addrLsb + cfgWidth (cfgDataWidth / axiDataWidth) ≤ axiAddrWidth

def Generics.cfgSize (g : Generics) : ℕ := g.cfgDataWidth / axiDataWidth

/-- The default values of the source. -/
def Generics.default : Generics := ⟨1024, 32, by decide⟩

variable {g : Generics}

/-- The input ports. `muxOutside` is the value of the read multiplexer for an index
outside its array, about which the source says nothing. -/
structure In (g : Generics) where
  aresetn : Bool
  sAxiAwaddr : BitVec g.axiAddrWidth
  sAxiAwvalid : Bool
  sAxiWdata : BitVec 32
  sAxiWstrb : BitVec 4
  sAxiWvalid : Bool
  sAxiBready : Bool
  sAxiAraddr : BitVec g.axiAddrWidth
  sAxiArvalid : Bool
  sAxiRready : Bool
  muxOutside : BitVec 32

/-- The registers. `intDataWire j` is word `j` of the outputs of the flip-flops. -/
structure St (g : Generics) where
  intDataWire : Fin g.cfgSize → BitVec 32
  resetS : Bool
  intBvalidReg : Bool
  intRvalidReg : Bool
  intRdataReg : BitVec 32

/-- A flip-flop with clock enable and a synchronous reset that has priority. -/
def fdre (q ce r d : Bool) : Bool := if r then false else if ce then d else q

/-! ## Wires -/

def In.intWvalidWire (i : In g) : Bool := i.sAxiAwvalid && i.sAxiWvalid

/-- The word that the address bits select. -/
def wordIndex (addr : BitVec g.axiAddrWidth) : ℕ :=
  (addr.extractLsb' addrLsb (cfgWidth g.cfgSize)).toNat

def In.intCeWire (i : In g) (j : Fin g.cfgSize) : Bool :=
  i.intWvalidWire && wordIndex i.sAxiAwaddr == j

/-- The clock enable of bit `k` of word `j`, `tmp_s1(j)(k)`. -/
def In.tmpS1 (i : In g) (j : Fin g.cfgSize) (k : Fin 32) : Bool :=
  i.intCeWire j && i.sAxiWstrb.getLsbD (k / 8)

/-- The word the read multiplexer shows. -/
def St.intDataMux (s : St g) (i : In g) : BitVec 32 :=
  if h : wordIndex i.sAxiAraddr < g.cfgSize then s.intDataWire ⟨_, h⟩ else i.muxOutside

/-! ## The clock edge -/

def St.dataNext (s : St g) (i : In g) (j : Fin g.cfgSize) : BitVec 32 :=
  ofBits fun k : Fin 32 =>
    fdre ((s.intDataWire j).getLsbD k) (i.tmpS1 j k) s.resetS (i.sAxiWdata.getLsbD k)

def St.intBvalidNext (s : St g) (i : In g) : Bool :=
  if i.intWvalidWire then true
  else if i.sAxiBready && s.intBvalidReg then false
  else s.intBvalidReg

def St.intRvalidNext (s : St g) (i : In g) : Bool :=
  if i.sAxiArvalid then true
  else if i.sAxiRready && s.intRvalidReg then false
  else s.intRvalidReg

def St.intRdataNext (s : St g) (i : In g) : BitVec 32 :=
  if i.sAxiArvalid then s.intDataMux i else s.intRdataReg

/-- The reset reaches the flip-flops one clock later than the other registers. -/
def step (s : St g) (i : In g) : St g where
  intDataWire := s.dataNext i
  resetS := !i.aresetn
  intBvalidReg := i.aresetn && s.intBvalidNext i
  intRvalidReg := i.aresetn && s.intRvalidNext i
  intRdataReg := if i.aresetn then s.intRdataNext i else 0

/-- The registers after a clock edge with `aresetn` low; the flip-flops still hold
something. -/
def St.reset (data : Fin g.cfgSize → BitVec 32) : St g where
  intDataWire := data
  resetS := true
  intBvalidReg := false
  intRvalidReg := false
  intRdataReg := 0

/-! ## What the master sees -/

/-- A write request. -/
structure Write (g : Generics) where
  addr : BitVec g.axiAddrWidth
  data : BitVec 32
  strb : BitVec 4

/-- The write accepted in this cycle: `awready` and `wready` are `int_wvalid_wire`. -/
def writeOut (_ : St g) (i : In g) : List (Write g) :=
  if i.intWvalidWire then [⟨i.sAxiAwaddr, i.sAxiWdata, i.sAxiWstrb⟩] else []

/-- The read accepted in this cycle, as the word it addresses: `arready` is always high. -/
def readOut (s : St g) (i : In g) : List (BitVec 32) :=
  if i.sAxiArvalid then [s.intDataMux i] else []

/-- The handshake of the write response in this cycle. -/
def bOut (s : St g) (i : In g) : List Unit :=
  if s.intBvalidReg && i.sAxiBready then [()] else []

/-- The word handed over on the read response in this cycle. -/
def rOut (s : St g) (i : In g) : List (BitVec 32) :=
  if s.intRvalidReg && i.sAxiRready then [s.intRdataReg] else []

section Run

variable (data : Fin g.cfgSize → BitVec 32) (is : List (In g))

def after : St g := run step (.reset data) is
def writes : List (Write g) := collect step writeOut (.reset data) is
def reads : List (BitVec 32) := collect step readOut (.reset data) is
def bHandshakes : List Unit := collect step bOut (.reset data) is
def rHandshakes : List (BitVec 32) := collect step rOut (.reset data) is

variable (i : In g)

theorem after_snoc : after data (is ++ [i]) = step (after data is) i := by simp [after]
theorem writes_snoc :
    writes data (is ++ [i]) = writes data is ++ writeOut (after data is) i := by
  simp [writes, after]
theorem reads_snoc : reads data (is ++ [i]) = reads data is ++ readOut (after data is) i := by
  simp [reads, after]
theorem bHandshakes_snoc :
    bHandshakes data (is ++ [i]) = bHandshakes data is ++ bOut (after data is) i := by
  simp [bHandshakes, after]
theorem rHandshakes_snoc :
    rHandshakes data (is ++ [i]) = rHandshakes data is ++ rOut (after data is) i := by
  simp [rHandshakes, after]

end Run

/-! ## Addresses -/

/-- An address inside the block selects its word. -/
theorem wordIndex_eq {addr : BitVec g.axiAddrWidth} (h : addr.toNat < 4 * g.cfgSize) :
    wordIndex addr = addr.toNat / 4 := by
  have hle := le_two_pow_cfgWidth g.cfgSize
  rw [wordIndex, BitVec.extractLsb'_toNat, addrLsb_eq, Nat.shiftRight_eq_div_pow]
  exact Nat.mod_eq_of_lt (by omega)

end LagoEcosystem.CfgRegister
