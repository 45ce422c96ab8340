import LagoEcosystem.Library.Pulses
import Mathlib.Data.BitVec

/-!
# The PPS generator

`pps_gen` (v1_1), register by register. A divider makes an internal PPS of one second, a
multiplexer selects it or the external one, and an edge detector makes pulses of one clock
cycle from the selected signal. The input buffer passes the external signal on.
-/

namespace LagoEcosystem.Pps

/-- The generic of the core. The divider has 27 bits, and a second without a fifth has no
PPS. -/
structure Generics where
  clkFreq : ℕ
  five_le : 5 ≤ clkFreq
  fits : clkFreq ≤ 2 ^ 27

theorem Generics.pos (g : Generics) : 0 < g.clkFreq := by
  have := g.five_le
  omega

theorem Generics.fifth_pos (g : Generics) : 0 < g.clkFreq / 5 := Nat.div_pos g.five_le (by decide)

theorem Generics.fifth_lt (g : Generics) : g.clkFreq / 5 < g.clkFreq :=
  Nat.div_lt_self g.pos (by decide)

/-- The default value of the source. -/
def Generics.default : Generics := ⟨125000000, by decide, by decide⟩

/-- The input ports. -/
structure In where
  aresetn : Bool
  resetnI : Bool
  ppsI : Bool
  gpsenI : Bool

/-- A cycle outside both resets. -/
def In.running (ppsI gpsenI : Bool) : In := ⟨true, true, ppsI, gpsenI⟩

def In.rstSig (i : In) : Bool := !i.aresetn || !i.resetnI

inductive PpsStT where
  | zero | edge | one
  deriving DecidableEq, Repr

structure St where
  oneSecCnt : BitVec 27
  clkCntPps : BitVec 27
  falsePps : Bool
  ppsStReg : PpsStT

/-- The output ports. -/
structure Out where
  ppsO : Bool
  clkCntPpsO : BitVec 27
  ppsGpsLedO : Bool
  falsePpsLedO : Bool
  ppsSigO : Bool
  intO : Bool

/-- The multiplexer. -/
def St.pps (s : St) (i : In) : Bool := if i.gpsenI then s.falsePps else i.ppsI

/-! ## The edge detector -/

def PpsStT.oneClkPps : PpsStT → Bool
  | .edge => true
  | .zero | .one => false

def PpsStT.next (st : PpsStT) (pps : Bool) : PpsStT :=
  match st, pps with
  | .zero, true => .edge
  | .zero, false => .zero
  | .edge, true => .one
  | .edge, false => .zero
  | .one, true => .one
  | .one, false => .zero

/-- The state is `ZERO` if and only if the last sample was low. -/
@[simp] theorem PpsStT.next_eq_zero_iff (st : PpsStT) (pps : Bool) :
    st.next pps = .zero ↔ pps = false := by
  cases st <;> cases pps <;> simp [next]

@[simp] theorem PpsStT.next_eq_edge_iff (st : PpsStT) (pps : Bool) :
    st.next pps = .edge ↔ st = .zero ∧ pps = true := by
  cases st <;> cases pps <;> simp [next]

@[simp] theorem PpsStT.oneClkPps_iff (st : PpsStT) : st.oneClkPps = true ↔ st = .edge := by
  cases st <;> simp [oneClkPps]

/-! ## The core -/

def St.oneSecCntNext (g : Generics) (s : St) : BitVec 27 :=
  if s.oneSecCnt.toNat = g.clkFreq - 1 then 0 else s.oneSecCnt + 1

/-- High in the first fifth of a second. -/
def St.falsePpsNext (g : Generics) (s : St) : Bool := decide (s.oneSecCnt.toNat < g.clkFreq / 5)

def St.clkCntPpsNext (s : St) : BitVec 27 :=
  if s.ppsStReg.oneClkPps then 0 else s.clkCntPps + 1

/-- The clock edge. The reset branch of the divider names no `false_pps`, which keeps its
value there, and the edge detector heeds `aresetn` alone. -/
def step (g : Generics) (s : St) (i : In) : St where
  oneSecCnt := if i.rstSig then 0 else s.oneSecCntNext g
  clkCntPps := if i.rstSig then 0 else s.clkCntPpsNext
  falsePps := if i.rstSig then s.falsePps else s.falsePpsNext g
  ppsStReg := if i.aresetn then s.ppsStReg.next (s.pps i) else .zero

def St.out (s : St) (i : In) : Out where
  ppsO := s.ppsStReg.oneClkPps
  clkCntPpsO := s.clkCntPps
  ppsGpsLedO := !i.gpsenI && i.ppsI
  falsePpsLedO := i.gpsenI && s.falsePps
  ppsSigO := (i.ppsI && !i.gpsenI) || (s.falsePps && i.gpsenI)
  intO := s.ppsStReg.oneClkPps

/-- The port behind the multiplexer shows what the edge detector samples, and the light of
the selected source shows it too. -/
theorem St.out_selected (s : St) (i : In) :
    (s.out i).ppsSigO = s.pps i ∧
      ((s.out i).ppsGpsLedO || (s.out i).falsePpsLedO) = s.pps i := by
  cases hg : i.gpsenI <;> simp [out, pps, hg]

/-- The registers after a clock edge with `aresetn` low. -/
def St.reset (falsePps : Bool) : St := ⟨0, 0, falsePps, .zero⟩

theorem step_reset (g : Generics) (s : St) {i : In} (h : i.aresetn = false) :
    step g s i = .reset s.falsePps := by
  simp [step, St.reset, In.rstSig, h]

/-- The clock edge outside the resets. -/
theorem step_running (g : Generics) (s : St) (ppsI gpsenI : Bool) :
    step g s (.running ppsI gpsenI) =
      ⟨s.oneSecCntNext g, s.clkCntPpsNext, s.falsePpsNext g,
        s.ppsStReg.next (s.pps (.running ppsI gpsenI))⟩ := by
  simp [step, In.running, In.rstSig]

end LagoEcosystem.Pps
