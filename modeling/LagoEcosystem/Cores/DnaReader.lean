import LagoEcosystem.Library.BitFields
import LagoEcosystem.Library.Clocked

/-!
# The identity of the device

`dna_reader` reads the 57 bits of the device identity out of the primitive `DNA_PORT`, whose clock
is bit 5 of a counter. The first rising edge loads the identity into the shift register of the
primitive, every further one shifts it, and a bit is taken in the middle between two edges.
-/

namespace LagoEcosystem.DnaReader

open BitFields Clocked

/-- The primitive: what a rising edge of `CLK` does with `READ` and `SHIFT`, `DIN` being low, and
the output. `reg` is the shift register inside. -/
structure DnaPort where
  State : Type
  edge : State → Bool → Bool → State
  dout : State → Bool
  dna : BitVec 57
  reg : State → BitVec 57
  reg_read : ∀ s shift, reg (edge s true shift) = dna
  reg_shift : ∀ s, reg (edge s false true) = reg s <<< 1
  dout_eq : ∀ s, dout s = (reg s).msb

/-- A primitive that is nothing but its shift register. -/
def DnaPort.shifting (dna : BitVec 57) : DnaPort where
  State := BitVec 57
  edge reg read shift := if read then dna else if shift then reg <<< 1 else reg
  dout reg := reg.msb
  dna := dna
  reg reg := reg
  reg_read _ _ := rfl
  reg_shift _ := rfl
  dout_eq _ := rfl

instance : Inhabited DnaPort := ⟨.shifting 0⟩

def dataWidth : ℕ := 57

variable {port : DnaPort}

structure St (port : DnaPort) where
  intEnblReg : Bool
  intReadReg : Bool
  intShiftReg : Bool
  intCntrReg : BitVec 16
  intDataReg : BitVec 57
  dna0 : port.State

/-- The registers after a clock edge with `aresetn` low. -/
def St.reset (dna0 : port.State) : St port := ⟨false, false, false, 0, 0, dna0⟩

def St.intCompWire (s : St port) : Bool := s.intCntrReg.toNat < 64 * dataWidth

/-- `int_cntr_reg(5 downto 0) = "111111"` -/
def St.ones (s : St port) : Bool := s.intCntrReg.extractLsb' 0 6 == BitVec.allOnes 6

def St.intEnblNext (s : St port) : Bool :=
  if !s.intEnblReg && s.intCompWire then true
  else if !s.intCompWire then false
  else s.intEnblReg

def St.intReadNext (s : St port) : Bool :=
  if !s.intEnblReg && s.intCompWire then true
  else if s.ones then false
  else s.intReadReg

def St.intDataNext (s : St port) : BitVec 57 :=
  if s.ones then s.intDataReg.shiftConcat (port.dout s.dna0) else s.intDataReg

def St.intCntrNext (s : St port) : BitVec 16 :=
  if s.intEnblReg then s.intCntrReg + 1 else s.intCntrReg

def St.intShiftNext (s : St port) : Bool :=
  if !s.intCompWire then false
  else if s.ones then true
  else s.intShiftReg

/-- The primitive sees an edge when bit 5 of the counter rises. -/
def St.dna0Next (s : St port) : port.State :=
  if !s.intCntrReg.getLsbD 5 && s.intCntrNext.getLsbD 5 then
    port.edge s.dna0 s.intReadNext s.intShiftNext
  else s.dna0

def St.next (s : St port) : St port where
  intEnblReg := s.intEnblNext
  intReadReg := s.intReadNext
  intShiftReg := s.intShiftNext
  intCntrReg := s.intCntrNext
  intDataReg := s.intDataNext
  dna0 := s.dna0Next

/-- A clock edge with the value of `aresetn`. -/
def step (s : St port) (aresetn : Bool) : St port := if aresetn then s.next else .reset s.dna0

def St.dnaData (s : St port) : BitVec 57 := s.intDataReg

/-! ## The schedule -/

/-- The registers when the counter stands at `c`: `c / 64` bits have been taken, and the primitive
has seen `(c + 32) / 64` edges. -/
structure At (c : ℕ) (s : St port) : Prop where
  le : c ≤ 3649
  enbl : s.intEnblReg = decide (c ≤ 3648)
  read : s.intReadReg = decide (c < 64)
  shift : s.intShiftReg = decide (64 ≤ c ∧ c ≤ 3648)
  cntr : s.intCntrReg.toNat = c
  data : s.intDataReg = port.dna >>> (57 - c / 64)
  reg : 32 ≤ c → port.reg s.dna0 = port.dna <<< ((c + 32) / 64 - 1)

variable {s : St port} {c : ℕ}

theorem ones_eq (h : s.intCntrReg.toNat = c) : s.ones = decide (c % 64 = 63) := by
  rw [St.ones, Bool.eq_iff_iff, beq_iff_eq, decide_eq_true_iff, ← BitVec.toNat_inj,
    BitVec.extractLsb'_toNat, h, Nat.shiftRight_zero]
  rfl

theorem rises_iff {x y : BitVec 16} (hx : x.toNat = c) (hy : y.toNat = c + 1) :
    (!x.getLsbD 5 && y.getLsbD 5) = decide (c % 64 = 31) := by
  rw [BitVec.getLsbD, BitVec.getLsbD, hx, hy, Nat.testBit_eq_decide_div_mod_eq,
    Nat.testBit_eq_decide_div_mod_eq, Bool.eq_iff_iff]
  simp only [Bool.and_eq_true, Bool.not_eq_true', decide_eq_false_iff_not, decide_eq_true_iff]
  omega

theorem At.intCompWire (h : At c s) : s.intCompWire = decide (c < 3648) := by
  rw [St.intCompWire, h.cntr, dataWidth]

/-- The output of the primitive, while there are bits to be taken. -/
theorem At.dout (h : At c s) (hc : c % 64 = 63) :
    port.dout s.dna0 = port.dna.getLsbD (57 - c / 64 - 1) := by
  have hle := h.le
  have hedges : (c + 32) / 64 - 1 = c / 64 := by omega
  rw [port.dout_eq, h.reg (by omega), hedges, BitVec.msb_eq_getLsbD_last,
    BitVec.getLsbD_shiftLeft]
  have hplace : 57 - 1 - c / 64 = 57 - c / 64 - 1 := by omega
  have hnot : ¬ 57 - 1 < c / 64 := by omega
  rw [hplace]
  simp [hnot]

theorem At.intDataNext (h : At c s) : s.intDataNext = port.dna >>> (57 - (c + 1) / 64) := by
  have hle := h.le
  rw [St.intDataNext, ones_eq h.cntr]
  by_cases hc : c % 64 = 63
  · have hbits : 57 - (c + 1) / 64 = 57 - c / 64 - 1 := by omega
    rw [if_pos (decide_eq_true hc), h.dout hc, h.data, hbits,
      BitVec.shiftRight_sub_one_eq_shiftConcat _ (by omega)]
  · have hbits : (c + 1) / 64 = c / 64 := by omega
    rw [if_neg (by simpa using hc), h.data, hbits]

theorem At.next (h : At c s) (hc : c ≤ 3648) : At (c + 1) s.next := by
  have hcntr : s.intCntrNext.toNat = c + 1 := by
    have hone : (1 : BitVec 16).toNat = 1 := rfl
    rw [St.intCntrNext, h.enbl, if_pos (decide_eq_true hc), BitVec.toNat_add, h.cntr, hone]
    omega
  have hread : s.intReadNext = decide (c + 1 < 64) := by
    rw [St.intReadNext, h.enbl, h.read, ones_eq h.cntr]
    grind
  have hshift : s.intShiftNext = decide (64 ≤ c + 1 ∧ c + 1 ≤ 3648) := by
    rw [St.intShiftNext, h.shift, h.intCompWire, ones_eq h.cntr]
    grind
  refine ⟨by omega, ?_, hread, hshift, hcntr, h.intDataNext, fun hlow => ?_⟩
  · show s.intEnblNext = _
    rw [St.intEnblNext, h.enbl, h.intCompWire]
    grind
  · show port.reg s.dna0Next = _
    rw [St.dna0Next, rises_iff h.cntr hcntr]
    by_cases hedge : c % 64 = 31
    · rw [if_pos (decide_eq_true hedge), hread, hshift]
      by_cases hfirst : c + 1 < 64
      · have hnone : (c + 1 + 32) / 64 - 1 = 0 := by omega
        rw [decide_eq_true hfirst, port.reg_read, hnone, BitVec.shiftLeft_zero]
      · have hedges : (c + 1 + 32) / 64 - 1 = (c + 32) / 64 - 1 + 1 := by omega
        rw [decide_eq_false hfirst, decide_eq_true (by omega), port.reg_shift, h.reg (by omega),
          hedges, BitVec.shiftLeft_add]
    · have hedges : (c + 1 + 32) / 64 = (c + 32) / 64 := by omega
      rw [if_neg (by simpa using hedge), h.reg (by omega), hedges]

/-- Behind the last bit everything stays. -/
theorem At.next_last (h : At 3649 s) : At 3649 s.next := by
  have hones : s.ones = false := ones_eq h.cntr
  have hcomp : s.intCompWire = false := h.intCompWire
  have hcntr : s.intCntrNext = s.intCntrReg := by rw [St.intCntrNext, h.enbl]; rfl
  refine ⟨le_rfl, ?_, ?_, ?_, ?_, ?_, fun hlow => ?_⟩
  · simp [St.next, St.intEnblNext, hcomp]
  · simp [St.next, St.intReadNext, hcomp, hones, h.read]
  · simp [St.next, St.intShiftNext, hcomp]
  · rw [St.next, hcntr]
    exact h.cntr
  · show s.intDataNext = _
    rw [St.intDataNext, hones]
    exact h.data
  · show port.reg s.dna0Next = _
    rw [St.dna0Next, hcntr, Bool.not_and_self]
    exact h.reg hlow

/-- The first cycle after a reset. -/
theorem at_first (dna0 : port.State) : At 0 (St.reset dna0).next := by
  refine ⟨Nat.zero_le _, rfl, rfl, rfl, rfl, ?_, fun hlow => absurd hlow (by decide)⟩
  show (0 : BitVec 57) = port.dna >>> 57
  exact (BitVec.ushiftRight_eq_zero le_rfl).symm

theorem at_run (dna0 : port.State) (n : ℕ) :
    At (min n 3649) (run step (.reset dna0) (List.replicate (n + 1) true)) := by
  induction n with
  | zero => exact at_first dna0
  | succ n ih =>
    rw [List.replicate_succ', run_append]
    rcases Nat.lt_or_ge n 3649 with hn | hn
    · rw [min_eq_left (by omega)] at ih ⊢
      exact ih.next (by omega)
    · rw [min_eq_right (by omega)] at ih ⊢
      exact ih.next_last

/-- In the `n`-th cycle after a reset, whatever came before it, the port shows the first bits of
the identity, one for every 64 cycles, and from cycle 3649 on all of it. -/
theorem dnaData_eq (port : DnaPort) (s : St port) (n : ℕ) :
    (run step s (false :: List.replicate n true)).dnaData =
        port.dna >>> (57 - min ((n - 1) / 64) 57) ∧
      (3649 ≤ n → (run step s (false :: List.replicate n true)).dnaData = port.dna) := by
  have hfirst : (run step s (false :: List.replicate n true)).dnaData =
      port.dna >>> (57 - min ((n - 1) / 64) 57) := by
    cases n with
    | zero => exact (BitVec.ushiftRight_eq_zero le_rfl).symm
    | succ n =>
      have hbits : min n 3649 / 64 = min (n / 64) 57 := by omega
      rw [Nat.add_sub_cancel, ← hbits]
      exact (at_run s.dna0 n).data
  refine ⟨hfirst, fun hn => ?_⟩
  have hall : 57 - min ((n - 1) / 64) 57 = 0 := by omega
  rw [hfirst, hall, BitVec.ushiftRight_zero]

/-- Ten bits of a device's identity after 641 cycles, and all of it after 4000. -/
theorem dnaData_eq_shifting :
    (run step (.reset 0#57 : St (.shifting 0x123456789ABCDE))
        (false :: List.replicate 641 true)).dnaData = 0x123456789ABCDE >>> 47 ∧
      (run step (.reset 0#57 : St (.shifting 0x123456789ABCDE))
        (false :: List.replicate 4000 true)).dnaData = 0x123456789ABCDE :=
  ⟨(dnaData_eq (.shifting 0x123456789ABCDE) (.reset 0#57) 641).1,
    (dnaData_eq (.shifting 0x123456789ABCDE) (.reset 0#57) 4000).2 (by decide)⟩

end LagoEcosystem.DnaReader
