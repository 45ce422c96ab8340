import LagoEcosystem.Cores.Functions
import LagoEcosystem.Library.BitFields
import LagoEcosystem.Library.Clocked
import Mathlib.Logic.Function.Basic

/-!
# The coherent averager

`avg_scope` of `axis_avgr16bits` with its two memories. `tdp_ram_pip` holds the sums: the
word read at port B waits in `b_reg` until the sample that is added to it arrives.
`asym_ram_sdp_write_wider` takes the same writes and is read sample by sample. `I_DWIDTH`
is 128 and `ADC_DWIDTH` and `O_DWIDTH` are 16, their defaults; the depth stays a parameter.

The reader of the second memory runs on another clock. All the state machine sees of it is
`restart_s`, which is an input here.
-/

namespace LagoEcosystem.Averager

open BitFields Clocked Cores

/-- Samples in a word. -/
def ratio : ℕ := 8

/-- The depth of the memories in samples: a power of two, and at least two words. -/
structure Generics where
  memDepth : ℕ
  exponent : ℕ
  sixteen_le : 4 ≤ exponent
  power : memDepth = 2 ^ exponent

/-- The default of the source. -/
def Generics.default : Generics := ⟨1024, 10, by decide, by decide⟩

/-- The width of a word address. -/
def Generics.awidth (g : Generics) : ℕ := log2c (g.memDepth / ratio)

theorem Generics.memDepth_div (g : Generics) : g.memDepth / ratio = 2 ^ (g.exponent - 3) := by
  have hle := g.sixteen_le
  have hsplit : 2 ^ g.exponent = 2 ^ (g.exponent - 3) * 2 ^ 3 := by
    rw [← Nat.pow_add, Nat.sub_add_cancel (by omega)]
  rw [g.power, hsplit]
  exact Nat.mul_div_cancel _ (by decide)

/-- The words of a memory, exactly. -/
theorem Generics.two_pow_awidth (g : Generics) : 2 ^ g.awidth = g.memDepth / ratio := by
  rw [awidth, g.memDepth_div, log2c_two_pow]

theorem Generics.two_le_words (g : Generics) : 2 ≤ 2 ^ g.awidth := by
  have hle := g.sixteen_le
  rw [g.two_pow_awidth, g.memDepth_div]
  exact Nat.le_self_pow (by omega) 2

variable {g : Generics}

abbrev Addr (g : Generics) := BitVec g.awidth
abbrev Word := BitVec 128

/-! ## Lanes -/

/-- Lane `I` of a word, counted from the top as the source does. -/
def lane (I : Fin 8) (x : Word) : BitVec 16 := x.extractLsb' (128 - (I + 1) * 16) 16

/-- The upper 12 bits of lane `I`, sign-extended. -/
def sampleOf (I : Fin 8) (x : Word) : BitVec 16 :=
  (x.extractLsb' (128 - (I + 1) * 16 + 4) 12).signExtend 16

/-- The word with the lanes `f`. -/
def ofLanes (f : Fin 8 → BitVec 16) : Word :=
  ofBits fun k => (f ⟨7 - k / 16, by omega⟩).getLsbD (k % 16)

theorem lane_ofLanes (f : Fin 8 → BitVec 16) (I : Fin 8) : lane I (ofLanes f) = f I := by
  apply BitVec.eq_of_getLsbD_eq
  intro k hk
  have hI := I.isLt
  have hpos : 128 - (I + 1) * 16 + k < 128 := by omega
  have hlane : 7 - (128 - (I + 1) * 16 + k) / 16 = (I : ℕ) := by omega
  have hbit : (128 - (I + 1) * 16 + k) % 16 = k := by omega
  have hget := getLsbD_ofBits (fun k : Fin 128 => (f ⟨7 - k / 16, by omega⟩).getLsbD (k % 16))
    ⟨128 - (I + 1) * 16 + k, hpos⟩
  simp only [hlane, hbit] at hget
  rw [lane, BitVec.getLsbD_extractLsb', ofLanes, hget]
  simp [hk]

theorem ext_lanes {x y : Word} (h : ∀ I, lane I x = lane I y) : x = y := by
  apply BitVec.eq_of_getLsbD_eq
  intro k hk
  have hlane := congrArg (fun z => z.getLsbD (k % 16)) (h ⟨7 - k / 16, by omega⟩)
  have hpos : 128 - (7 - k / 16 + 1) * 16 + k % 16 = k := by omega
  have hmod : k % 16 < 16 := Nat.mod_lt k (by decide)
  simpa [lane, hpos, hmod] using hlane

@[simp] theorem lane_zero (I : Fin 8) : lane I 0 = 0 := by
  simp [lane]

/-! ## Ports and registers -/

/-- The input ports, and the restart signal of the reader. -/
structure In where
  aresetn : Bool
  startI : Bool
  trigI : Bool
  enI : Bool
  naveragesI : BitVec 16
  nsamplesI : BitVec 16
  sAxisTvalid : Bool
  sAxisTdata : Word
  restartS : Bool

inductive StateT where
  | stIdle | stWaitTrig | stEnTdpb | stAvgScope | stFinish | stWrZeros
  deriving DecidableEq, Repr

/-- The states of `edge_det`. -/
inductive EdgeT where
  | zero | edge | one
  deriving DecidableEq, Repr

/-- The registers. `ram` and `bReg` belong to `tdp_ram_pip`, `myRam` is the memory of
`asym_ram_sdp_write_wider` and `edgeReg` the register of `edge_det`. -/
structure St (g : Generics) where
  stateReg : StateT
  tdpAddraReg : Addr g
  tdpAddrbReg : Addr g
  avgReg : BitVec 16
  ram : Addr g → Word
  bReg : Word
  myRam : BitVec (g.awidth + 3) → BitVec 16
  edgeReg : EdgeT

/-- The registers after a clock edge with `aresetn` low. -/
def St.reset (ram : Addr g → Word) (bReg : Word) (myRam : BitVec (g.awidth + 3) → BitVec 16) :
    St g where
  stateReg := .stIdle
  tdpAddraReg := 0
  tdpAddrbReg := 0
  avgReg := 0
  ram := ram
  bReg := bReg
  myRam := myRam
  edgeReg := .zero

def EdgeT.next (e : EdgeT) (sigI : Bool) : EdgeT :=
  match e with
  | .zero => if sigI then .edge else .zero
  | .edge => if sigI then .one else .zero
  | .one => if sigI then .one else .zero

def St.restartOs (s : St g) : Bool := s.edgeReg == .edge

/-! ## The state machine -/

/-- The signals the state machine drives. -/
structure Ctl (g : Generics) where
  stateNext : StateT
  rstbS : Bool
  tdpWea : Bool
  tdpAddraNext : Addr g
  tdpDia : Word
  tdpEnb : Bool
  tdpAddrbNext : Addr g
  treadyS : Bool
  avgNext : BitVec 16
  doneS : Bool

/-- The values assigned before the case statement. -/
def St.hold (s : St g) : Ctl g where
  stateNext := s.stateReg
  rstbS := false
  tdpWea := false
  tdpAddraNext := s.tdpAddraReg
  tdpDia := 0
  tdpEnb := false
  tdpAddrbNext := s.tdpAddrbReg
  treadyS := false
  avgNext := s.avgReg
  doneS := false

/-- The address is that of the last word of a sweep. -/
def St.atLast (s : St g) (i : In) : Bool :=
  s.tdpAddraReg.toNat == (i.nsamplesI / 8#16 - 1).toNat

/-- The sums with the samples of the input added. -/
def St.summed (s : St g) (i : In) : Word :=
  ofLanes fun I => lane I s.bReg + sampleOf I i.sAxisTdata

def St.ctl (s : St g) (i : In) : Ctl g :=
  match s.stateReg with
  | .stIdle =>
    { s.hold with
      rstbS := true, tdpAddraNext := 0, tdpAddrbNext := 0, avgNext := 0,
      stateNext := if i.enI && i.startI then .stWaitTrig else .stIdle }
  | .stWaitTrig => { s.hold with stateNext := if i.trigI then .stEnTdpb else .stWaitTrig }
  | .stEnTdpb =>
    if i.sAxisTvalid then
      { s.hold with
        tdpEnb := true, tdpAddrbNext := s.tdpAddrbReg + 1, stateNext := .stAvgScope }
    else s.hold
  | .stAvgScope =>
    if i.sAxisTvalid then
      { s.hold with
        treadyS := true, tdpEnb := true, tdpWea := true, tdpDia := s.summed i,
        tdpAddraNext := if s.atLast i then 0 else s.tdpAddraReg + 1,
        tdpAddrbNext := if s.atLast i then 0 else s.tdpAddrbReg + 1,
        avgNext := if s.atLast i then s.avgReg + 1 else s.avgReg,
        stateNext :=
          if s.atLast i then
            if s.avgReg == i.naveragesI - 1 then .stFinish else .stWaitTrig
          else .stAvgScope }
    else s.hold
  | .stFinish =>
    { s.hold with doneS := true, stateNext := if s.restartOs then .stWrZeros else .stFinish }
  | .stWrZeros =>
    { s.hold with
      tdpWea := true, tdpAddraNext := s.tdpAddraReg + 1,
      stateNext := if s.atLast i then .stIdle else .stWrZeros }

/-! ## The memories -/

def St.ramNext (s : St g) (i : In) : Addr g → Word :=
  if (s.ctl i).tdpWea then Function.update s.ram s.tdpAddraReg (s.ctl i).tdpDia else s.ram

/-- Port B reads what the memory held before the edge. -/
def St.bNext (s : St g) (i : In) : Word :=
  if (s.ctl i).rstbS then 0
  else if (s.ctl i).tdpEnb then s.ram s.tdpAddrbReg
  else s.bReg

/-- The address of sample `i` of a word in the second memory. -/
def sampleAddr (addrB : Addr g) (i : Fin 8) : BitVec (g.awidth + 3) := addrB ++ BitVec.ofFin i

/-- The write loop of the second memory. Its samples are counted from the bottom. -/
def asymWrite (m : BitVec (g.awidth + 3) → BitVec 16) (addrB : Addr g) (diB : Word) :
    BitVec (g.awidth + 3) → BitVec 16 :=
  (List.finRange 8).foldl
    (fun m i => Function.update m (sampleAddr addrB i) (diB.extractLsb' (i * 16) 16)) m

def St.myRamNext (s : St g) (i : In) : BitVec (g.awidth + 3) → BitVec 16 :=
  if (s.ctl i).tdpWea then asymWrite s.myRam s.tdpAddraReg (s.ctl i).tdpDia else s.myRam

/-! ## The clock edge -/

def St.next (s : St g) (i : In) : St g where
  stateReg := (s.ctl i).stateNext
  tdpAddraReg := (s.ctl i).tdpAddraNext
  tdpAddrbReg := (s.ctl i).tdpAddrbNext
  avgReg := (s.ctl i).avgNext
  ram := s.ramNext i
  bReg := s.bNext i
  myRam := s.myRamNext i
  edgeReg := s.edgeReg.next i.restartS

/-- The memories have no reset. -/
def step (s : St g) (i : In) : St g :=
  if i.aresetn then s.next i else .reset (s.ramNext i) (s.bNext i) (s.myRamNext i)

theorem step_of_aresetn {s : St g} {i : In} (h : i.aresetn = true) : step s i = s.next i :=
  if_pos h

/-! ## One edge, state by state -/

section Edges

variable {s : St g} {i : In}

/-- What an edge does in every state. -/
def St.tick (s : St g) (i : In) : St g := { s with edgeReg := s.edgeReg.next i.restartS }

/-- The registers after an edge at which the sums are written back. -/
def St.write (s : St g) (i : In) (x : Word) : St g :=
  { s.tick i with
    ram := Function.update s.ram s.tdpAddraReg x
    myRam := asymWrite s.myRam s.tdpAddraReg x }

theorem next_stIdle (hst : s.stateReg = .stIdle) : s.next i =
    { s.tick i with
      stateReg := if i.enI && i.startI then .stWaitTrig else .stIdle
      tdpAddraReg := 0, tdpAddrbReg := 0, avgReg := 0, bReg := 0 } := by
  simp [St.next, St.ramNext, St.bNext, St.myRamNext, St.ctl, hst, St.hold, St.tick]

theorem next_stWaitTrig (hst : s.stateReg = .stWaitTrig) : s.next i =
    { s.tick i with stateReg := if i.trigI then .stEnTdpb else .stWaitTrig } := by
  simp [St.next, St.ramNext, St.bNext, St.myRamNext, St.ctl, hst, St.hold, St.tick]

/-- A gap in the stream holds everything. -/
theorem next_of_gap (hst : s.stateReg = .stEnTdpb ∨ s.stateReg = .stAvgScope)
    (hv : i.sAxisTvalid = false) : s.next i = s.tick i := by
  rcases hst with hst | hst <;>
    simp [St.next, St.ramNext, St.bNext, St.myRamNext, St.ctl, hst, St.hold, hv, St.tick]

theorem next_stEnTdpb (hst : s.stateReg = .stEnTdpb) (hv : i.sAxisTvalid = true) : s.next i =
    { s.tick i with
      stateReg := .stAvgScope, tdpAddrbReg := s.tdpAddrbReg + 1
      bReg := s.ram s.tdpAddrbReg } := by
  simp [St.next, St.ramNext, St.bNext, St.myRamNext, St.ctl, hst, St.hold, hv, St.tick]

theorem next_stAvgScope (hst : s.stateReg = .stAvgScope) (hv : i.sAxisTvalid = true)
    (hl : s.atLast i = false) : s.next i =
      { s.write i (s.summed i) with
        tdpAddraReg := s.tdpAddraReg + 1, tdpAddrbReg := s.tdpAddrbReg + 1
        bReg := s.ram s.tdpAddrbReg } := by
  simp [St.next, St.ramNext, St.bNext, St.myRamNext, St.ctl, hst, St.hold, hv, hl, St.write,
    St.tick]

theorem next_stAvgScope_last (hst : s.stateReg = .stAvgScope) (hv : i.sAxisTvalid = true)
    (hl : s.atLast i = true) : s.next i =
      { s.write i (s.summed i) with
        stateReg := if s.avgReg == i.naveragesI - 1 then .stFinish else .stWaitTrig
        tdpAddraReg := 0, tdpAddrbReg := 0, avgReg := s.avgReg + 1
        bReg := s.ram s.tdpAddrbReg } := by
  simp [St.next, St.ramNext, St.bNext, St.myRamNext, St.ctl, hst, St.hold, hv, hl, St.write,
    St.tick]

theorem next_stFinish (hst : s.stateReg = .stFinish) : s.next i =
    { s.tick i with stateReg := if s.restartOs then .stWrZeros else .stFinish } := by
  simp [St.next, St.ramNext, St.bNext, St.myRamNext, St.ctl, hst, St.hold, St.tick]

theorem next_stWrZeros (hst : s.stateReg = .stWrZeros) : s.next i =
    { s.write i 0 with
      stateReg := if s.atLast i then .stIdle else .stWrZeros
      tdpAddraReg := s.tdpAddraReg + 1 } := by
  simp [St.next, St.ramNext, St.bNext, St.myRamNext, St.ctl, hst, St.hold, St.write, St.tick]

end Edges

end LagoEcosystem.Averager
