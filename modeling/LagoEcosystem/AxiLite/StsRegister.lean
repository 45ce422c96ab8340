import LagoEcosystem.Cores.Functions
import Mathlib.Data.BitVec

/-!
# The status register

`axi_sts_register`, through which the processor reads a vector of status bits word by word.
The word is latched when the request is accepted. Its number is a slice of the address that is
wide enough for all words and as a rule for some more, and nothing looks after the others.

The core declares the ports of the write channels and drives none of them.
-/

namespace LagoEcosystem.AxiStsRegister

open Cores

/-- The address bits inside a word, `ADDR_LSB`. -/
def addrLsb (axiDataWidth : ℕ) : ℕ := clogb2 (axiDataWidth / 8 - 1)

/-- The address bits that select one of `stsSize` words, `STS_WIDTH`. -/
def stsWidth (stsSize : ℕ) : ℕ := if 1 < stsSize then clogb2 (stsSize - 1) else 1

/-- The generics of the core. `STS_DATA_WIDTH` is a number of words, and the slice of the
address that selects one has to exist. -/
structure Generics where
  stsDataWidth : ℕ
  axiDataWidth : ℕ
  axiAddrWidth : ℕ
  byte : 8 ≤ axiDataWidth
  multiple : axiDataWidth ∣ stsDataWidth
  pos : 0 < stsDataWidth
  fits : addrLsb axiDataWidth + stsWidth (stsDataWidth / axiDataWidth) ≤ axiAddrWidth

def Generics.stsSize (g : Generics) : ℕ := g.stsDataWidth / g.axiDataWidth

/-- The default values of the source. -/
def Generics.default : Generics :=
  ⟨1024, 32, 32, by decide, by decide, by decide, by decide +kernel⟩

/-- The instance `sts_0` of `lago_v1_5`, with three words. -/
def Generics.sts0 : Generics := ⟨96, 32, 32, by decide, by decide, by decide, by decide⟩

variable {g : Generics}

/-- The input ports. `muxOutside` is the value of the read multiplexer for an index
outside its array, about which the source says nothing. -/
structure In (g : Generics) where
  aresetn : Bool
  stsData : BitVec g.stsDataWidth
  sAxiAraddr : BitVec g.axiAddrWidth
  sAxiArvalid : Bool
  sAxiRready : Bool
  muxOutside : BitVec g.axiDataWidth

structure St (g : Generics) where
  intRvalidReg : Bool
  intRdataReg : BitVec g.axiDataWidth

/-- The output ports. -/
structure Out (g : Generics) where
  sAxiArready : Bool
  sAxiRdata : BitVec g.axiDataWidth
  sAxiRresp : BitVec 2
  sAxiRvalid : Bool

/-- The word that the address bits select. -/
def wordIndex (addr : BitVec g.axiAddrWidth) : ℕ :=
  (addr.extractLsb' (addrLsb g.axiDataWidth) (stsWidth g.stsSize)).toNat

def In.intDataMux (i : In g) (j : Fin g.stsSize) : BitVec g.axiDataWidth :=
  i.stsData.extractLsb' (j * g.axiDataWidth) g.axiDataWidth

/-- The word the read multiplexer shows. -/
def In.muxOut (i : In g) : BitVec g.axiDataWidth :=
  if h : wordIndex i.sAxiAraddr < g.stsSize then i.intDataMux ⟨_, h⟩ else i.muxOutside

def St.intRvalidNext (s : St g) (i : In g) : Bool :=
  if i.sAxiArvalid then true
  else if i.sAxiRready && s.intRvalidReg then false
  else s.intRvalidReg

def St.intRdataNext (s : St g) (i : In g) : BitVec g.axiDataWidth :=
  if i.sAxiArvalid then i.muxOut else s.intRdataReg

/-- The registers after a clock edge with `aresetn` low. -/
def St.reset (g : Generics) : St g := ⟨false, 0⟩

def step (s : St g) (i : In g) : St g :=
  if i.aresetn then ⟨s.intRvalidNext i, s.intRdataNext i⟩ else .reset g

def St.out (s : St g) : Out g := ⟨true, s.intRdataReg, 0, s.intRvalidReg⟩

theorem step_reset (s : St g) {i : In g} (h : i.aresetn = false) : step s i = .reset g := by
  simp [step, h]

/-! ## The index -/

theorem Generics.one_le_stsSize (g : Generics) : 1 ≤ g.stsSize := by
  have hpos : 0 < g.axiDataWidth := by have := g.byte; omega
  exact Nat.div_pos (Nat.le_of_dvd g.pos g.multiple) hpos

theorem wordIndex_lt (addr : BitVec g.axiAddrWidth) : wordIndex addr < 2 ^ stsWidth g.stsSize :=
  BitVec.isLt _

/-- Every number that fits the slice is the index of some address. -/
theorem exists_wordIndex {n : ℕ} (h : n < 2 ^ stsWidth g.stsSize) :
    ∃ addr : BitVec g.axiAddrWidth, wordIndex addr = n := by
  refine ⟨BitVec.ofNat _ (n * 2 ^ addrLsb g.axiDataWidth), ?_⟩
  have hfit : n * 2 ^ addrLsb g.axiDataWidth < 2 ^ g.axiAddrWidth := by
    calc n * 2 ^ addrLsb g.axiDataWidth < 2 ^ stsWidth g.stsSize * 2 ^ addrLsb g.axiDataWidth :=
          (Nat.mul_lt_mul_right (Nat.two_pow_pos _)).mpr h
      _ = 2 ^ (addrLsb g.axiDataWidth + stsWidth g.stsSize) := by rw [Nat.mul_comm, Nat.pow_add]
      _ ≤ 2 ^ g.axiAddrWidth := Nat.pow_le_pow_right (by decide) g.fits
  rw [wordIndex, BitVec.extractLsb'_toNat, BitVec.toNat_ofNat, Nat.mod_eq_of_lt hfit,
    Nat.shiftRight_eq_div_pow, Nat.mul_div_cancel _ (Nat.two_pow_pos _), Nat.mod_eq_of_lt h]

/-- Where the index is inside the vector, the core does what the source says. -/
theorem step_muxOutside (s : St g) (i : In g) (x : BitVec g.axiDataWidth)
    (h : wordIndex i.sAxiAraddr < g.stsSize) : step s { i with muxOutside := x } = step s i := by
  have hmux : In.muxOut { i with muxOutside := x } = i.muxOut := by
    simp only [In.muxOut, h, dif_pos, In.intDataMux]
  simp only [step, St.intRdataNext, hmux, St.intRvalidNext]

theorem wordIndex_lt_iff_le (g : Generics) :
    (∀ addr : BitVec g.axiAddrWidth, wordIndex addr < g.stsSize) ↔
      2 ^ stsWidth g.stsSize ≤ g.stsSize := by
  constructor
  case mp =>
    intro h
    by_contra hlt
    obtain ⟨addr, haddr⟩ := exists_wordIndex (Nat.lt_of_not_le hlt)
    exact Nat.lt_irrefl _ (haddr ▸ h addr)
  case mpr => exact fun h addr => (wordIndex_lt addr).trans_le h

/-- The multiplexer never leaves the status vector if and only if the number of words is a power
of two and not one. -/
theorem wordIndex_lt_stsSize_iff (g : Generics) :
    (∀ addr : BitVec g.axiAddrWidth, wordIndex addr < g.stsSize) ↔
      ∃ k, g.stsSize = 2 ^ (k + 1) := by
  have hone := g.one_le_stsSize
  rw [wordIndex_lt_iff_le, stsWidth]
  split
  case isTrue htwo => exact two_pow_clogb2_le_iff htwo
  case isFalse hone' =>
    refine iff_of_false (by omega) ?_
    rintro ⟨k, hk⟩
    have hlt : 1 < 2 ^ (k + 1) := Nat.one_lt_two_pow (Nat.succ_ne_zero k)
    omega

/-- The status register of `lago_v1_5` has three words, and the address after them selects a
fourth one. -/
theorem index_outside :
    Generics.sts0.stsSize = 3 ∧ ¬wordIndex (g := .sts0) 0x0000000C < Generics.sts0.stsSize := by
  decide

end LagoEcosystem.AxiStsRegister
