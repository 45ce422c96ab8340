import LagoEcosystem.Library.Hysteresis
import Mathlib.Data.BitVec

/-!
# The zero crossing detector

`zero_cross_det`, two detectors with hysteresis on the halves of one stream. Each channel
keeps the last sample, its output and two flags. It is an instance of the general detector:
the sides are the signs, and the low flag belongs to the negative one.
-/

namespace LagoEcosystem.ZeroCrossing

open Clocked

/-- The generics; `w` is half of `AXIS_TDATA_WIDTH`. The threshold is a sample. -/
structure Generics (w : ℕ) where
  hystConst : ℕ
  width_pos : 0 < w
  fits : hystConst < 2 ^ (w - 1)

/-- The default values of the source. -/
def Generics.default : Generics 16 := ⟨2048, by decide, by decide⟩

/-- The input ports. -/
structure In (w : ℕ) where
  aresetn : Bool
  sAxisTdata : BitVec (w + w)

/-- A cycle outside the reset. -/
def In.running {w : ℕ} (tdata : BitVec (w + w)) : In w := ⟨true, tdata⟩

/-- The registers of a channel. -/
structure Channel (w : ℕ) where
  sig : BitVec w
  detO : Bool
  hystLow : Bool
  hystHigh : Bool

structure St (w : ℕ) where
  a : Channel w
  b : Channel w

/-- The output ports. -/
structure Out where
  detAO : Bool
  detBO : Bool
  sAxisTready : Bool

variable {w : ℕ} (g : Generics w)

def Channel.reset : Channel w := ⟨0, false, false, false⟩

/-- The sign changes to non-negative while the low flag is set. -/
def Channel.rises (c : Channel w) (sigNext : BitVec w) : Bool :=
  c.sig.msb && !sigNext.msb && c.hystLow

/-- The sign changes to negative while the high flag is set. -/
def Channel.falls (c : Channel w) (sigNext : BitVec w) : Bool :=
  !c.sig.msb && sigNext.msb && c.hystHigh

/-- The next values of a channel. A sample beyond a threshold sets the flag, even where the
crossing clears it. -/
def Channel.next (c : Channel w) (sigNext : BitVec w) : Channel w where
  sig := sigNext
  detO := if c.rises sigNext then true else if c.falls sigNext then false else c.detO
  hystLow :=
    if sigNext.slt (BitVec.ofInt w (-g.hystConst)) then true
    else if c.rises sigNext then false
    else c.hystLow
  hystHigh :=
    if (BitVec.ofInt w g.hystConst).slt sigNext then true
    else if c.falls sigNext then false
    else c.hystHigh

/-- The registers after a clock edge with `aresetn` low. -/
def St.reset : St w := ⟨.reset, .reset⟩

/-- The clock edge. The low half of the data belongs to channel A, the high half to B. -/
def step (s : St w) (i : In w) : St w :=
  if i.aresetn then
    ⟨s.a.next g (i.sAxisTdata.extractLsb' 0 w), s.b.next g (i.sAxisTdata.extractLsb' w w)⟩
  else .reset

def St.out (s : St w) : Out := ⟨s.a.detO, s.b.detO, true⟩

theorem step_reset (s : St w) {i : In w} (h : i.aresetn = false) : step g s i = .reset := by
  simp [step, h]

/-! ## The channels -/

inductive Side where
  | a | b

def Side.channel (side : Side) (s : St w) : Channel w :=
  match side with
  | .a => s.a
  | .b => s.b

def Side.sample (side : Side) (tdata : BitVec (w + w)) : BitVec w :=
  match side with
  | .a => tdata.extractLsb' 0 w
  | .b => tdata.extractLsb' w w

def Side.detO (side : Side) (o : Out) : Bool :=
  match side with
  | .a => o.detAO
  | .b => o.detBO

/-- The detector output of a channel in cycle `n` after the reset. -/
def det (tdata : ℕ → BitVec (w + w)) (side : Side) (n : ℕ) : Bool :=
  side.detO (trace (step g) .reset (fun k => .running (tdata k)) n).out

theorem Generics.toInt_hyst : (BitVec.ofInt w g.hystConst).toInt = g.hystConst := by
  have hfits : (g.hystConst : ℤ) < 2 ^ (w - 1) := by exact_mod_cast g.fits
  exact BitVec.toInt_ofInt_eq_self g.width_pos (by omega) hfits

theorem Generics.toInt_neg_hyst : (BitVec.ofInt w (-g.hystConst)).toInt = -g.hystConst := by
  have hfits : (g.hystConst : ℤ) < 2 ^ (w - 1) := by exact_mod_cast g.fits
  exact BitVec.toInt_ofInt_eq_self g.width_pos (by omega) (by omega)

/-! ## A channel as a detector -/

/-- The negative side is `true`: a signal that leaves it raises the output. -/
def rule : Hysteresis.Rule (BitVec w) where
  side x := x.msb
  beyond
    | true, x => decide (x.toInt < -g.hystConst)
    | false, x => decide ((g.hystConst : ℤ) < x.toInt)
  beyond_side p x h := by
    cases p with
    | true =>
      have hlt := of_decide_eq_true h
      rw [BitVec.msb_eq_toInt]
      exact decide_eq_true (by omega)
    | false =>
      have hlt := of_decide_eq_true h
      rw [BitVec.msb_eq_toInt]
      exact decide_eq_false (by omega)

theorem rule_true (x : BitVec w) :
    (rule g).beyond true x = x.slt (BitVec.ofInt w (-g.hystConst)) := by
  rw [BitVec.slt, g.toInt_neg_hyst]
  rfl

theorem rule_false (x : BitVec w) :
    (rule g).beyond false x = (BitVec.ofInt w g.hystConst).slt x := by
  rw [BitVec.slt, g.toInt_hyst]
  rfl

def Channel.toSt (c : Channel w) : Hysteresis.St where
  side := c.sig.msb
  armed
    | true => c.hystLow
    | false => c.hystHigh
  out := c.detO

theorem Channel.leaves_true (c : Channel w) (x : BitVec w) :
    c.toSt.leaves (rule g) true x = c.rises x := by
  cases hs : c.sig.msb <;> cases hx : x.msb <;>
    simp [Hysteresis.St.leaves, toSt, rises, rule, hs, hx]

theorem Channel.leaves_false (c : Channel w) (x : BitVec w) :
    c.toSt.leaves (rule g) false x = c.falls x := by
  cases hs : c.sig.msb <;> cases hx : x.msb <;>
    simp [Hysteresis.St.leaves, toSt, falls, rule, hs, hx]

/-- The channel refines the general detector. -/
theorem Channel.toSt_next (c : Channel w) (x : BitVec w) :
    (c.next g x).toSt = c.toSt.next (rule g) x := by
  apply Hysteresis.St.ext
  case side => rfl
  case out =>
    simp only [Hysteresis.St.next, leaves_true, leaves_false]
    rfl
  case armed =>
    funext p
    cases p with
    | true =>
      simp only [Hysteresis.St.next, rule_true, leaves_true]
      simp only [toSt, next]
      cases x.slt (BitVec.ofInt w (-g.hystConst)) <;> cases c.rises x <;> simp
    | false =>
      simp only [Hysteresis.St.next, rule_false, leaves_false]
      simp only [toSt, next]
      cases (BitVec.ofInt w g.hystConst).slt x <;> cases c.falls x <;> simp

/-- The output of a channel is that of the general detector. -/
theorem det_eq (tdata : ℕ → BitVec (w + w)) (side : Side) (n : ℕ) :
    det g tdata side n =
      (trace (Hysteresis.St.next (rule g)) (Channel.reset : Channel w).toSt
        (fun k => side.sample (tdata k)) n).out := by
  have hstep : ∀ (s : St w) (k : ℕ), (side.channel (step g s (.running (tdata k)))).toSt =
      Hysteresis.St.next (rule g) (side.channel s).toSt (side.sample (tdata k)) := by
    intro s k
    cases side <;> exact Channel.toSt_next g _ _
  have hmap := map_trace (fun s => (side.channel s).toSt) (fun k => In.running (tdata k))
    (fun k => side.sample (tdata k)) hstep .reset n
  cases side <;> exact congrArg Hysteresis.St.out hmap

/-! ## The law of the detector -/

/-- The output of a channel does not change with the samples after `m` and before `n`. -/
def Steady (tdata : ℕ → BitVec (w + w)) (side : Side) (m n : ℕ) : Prop :=
  ∀ k, m < k → k < n → det g tdata side (k + 1) = det g tdata side k

/-- A change of the output follows a sample beyond the threshold of the side that is left. -/
theorem det_change (tdata : ℕ → BitVec (w + w)) (side : Side) (n : ℕ) (p : Bool)
    (hout : det g tdata side n ≠ p) (hnext : det g tdata side (n + 1) = p) :
    ∃ m < n, (rule g).beyond p (side.sample (tdata m)) = true ∧ Steady g tdata side m n := by
  simp only [Steady, det_eq] at *
  refine Hysteresis.change_since ?_ hout hnext
  intro p
  cases p <;> rfl

/-- Every change has a sample beyond the opposite threshold behind it, with no change in
between, and a signal between the thresholds changes nothing. -/
theorem zeroCrossDet_law (tdata : ℕ → BitVec (w + w)) (side : Side) (n : ℕ) :
    (det g tdata side n = false → det g tdata side (n + 1) = true →
      ∃ m < n, (side.sample (tdata m)).toInt < -g.hystConst ∧ Steady g tdata side m n) ∧
    (det g tdata side n = true → det g tdata side (n + 1) = false →
      ∃ m < n, (g.hystConst : ℤ) < (side.sample (tdata m)).toInt ∧ Steady g tdata side m n) ∧
    ((∀ k < n, -(g.hystConst : ℤ) ≤ (side.sample (tdata k)).toInt ∧
        (side.sample (tdata k)).toInt ≤ g.hystConst) →
      det g tdata side n = false) := by
  refine ⟨?_, ?_, ?_⟩
  · intro hout hnext
    obtain ⟨m, hmn, hm, hsteady⟩ := det_change g tdata side n true (by simp [hout]) hnext
    exact ⟨m, hmn, of_decide_eq_true hm, hsteady⟩
  · intro hout hnext
    obtain ⟨m, hmn, hm, hsteady⟩ := det_change g tdata side n false (by simp [hout]) hnext
    exact ⟨m, hmn, of_decide_eq_true hm, hsteady⟩
  · intro hin
    rw [det_eq]
    refine Hysteresis.out_of_between (fun p => by cases p <;> rfl) ?_
    intro k hk p
    have hk := hin k hk
    cases p with
    | true => exact decide_eq_false (by omega)
    | false => exact decide_eq_false (by omega)

end LagoEcosystem.ZeroCrossing
