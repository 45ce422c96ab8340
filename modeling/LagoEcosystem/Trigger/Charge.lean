import LagoEcosystem.Trigger.Decision

/-!
# The charge of a sub-trigger

The charge registers were to accumulate the samples in the delay lines. What they add in
every cycle are the bounds of the index range of the array, so they count the cycles since
reset, `DATA_ARRAY_LENGTH - 1` at a time, and never see a sample.
-/

namespace LagoEcosystem.Trigger

open Clocked

variable {g : Generics}

/-- The sum of the samples in the delay line of a channel, in the width of the charge. -/
def Channel.lineSum (ch : Channel) (s : St g) : BitVec 14 :=
  (List.ofFn fun k => (ch.adcDatReg s k).extractLsb' 0 14).sum

/-- The charge of a channel in a sub-trigger record. -/
def Channel.charge : Channel → Subtrig → BitVec 14
  | .a, r => r.charge1
  | .b, r => r.charge2

@[simp] theorem Channel.charge_subtrig (ch : Channel) (s : St g) (i : In) :
    ch.charge (s.subtrig i) = ch.chargeReg s := by cases ch <;> rfl

/-- The state in cycle `n` of a run. -/
def stateAt (g : Generics) (is : List In) (n : ℕ) : St g := run step (St.reset g) (is.take n)

/-- Every sub-trigger of the run puts the sums of the delay lines into its record. -/
def ChargeLaw (g : Generics) (is : List In) : Prop :=
  ∀ n (hn : n < is.length), (stateAt g is n).subtrS is[n] = true →
    ∀ ch : Channel, ch.charge ((stateAt g is n).subtrig is[n]) = ch.lineSum (stateAt g is n)

/-- The charge counts the cycles. -/
theorem Channel.chargeReg_run (ch : Channel) {is : List In} (h : ∀ i ∈ is, i.aresetn = true) :
    ch.chargeReg (run step (St.reset g) is) =
      BitVec.ofNat 14 ((g.dataArrayLength - 1) * is.length) := by
  refine (along_of_forall step (St.reset g) h).induction_on_past
    (P := fun js => ch.chargeReg (run step (St.reset g) js) =
      BitVec.ofNat 14 ((g.dataArrayLength - 1) * js.length)) ?_ fun js i _ hjs hi => ?_
  · cases ch <;> rfl
  · have hstep : step (run step (St.reset g) js) i = (run step (St.reset g) js).next i := by
      simp [step, hi]
    rw [run_append, run_cons, run_nil, hstep, ch.chargeReg_next, chargeNext, hjs,
      List.length_append, List.length_singleton, Nat.mul_add, Nat.mul_one, BitVec.ofNat_add]
    simp

/-- The records of a run carry the sums of the delay lines if and only if these happen to
be the number of cycles since reset, times `DATA_ARRAY_LENGTH - 1`. -/
theorem chargeLaw_iff (is : List In) (h : ∀ i ∈ is, i.aresetn = true) :
    ChargeLaw g is ↔
      ∀ n (hn : n < is.length), (stateAt g is n).subtrS is[n] = true →
        ∀ ch : Channel,
          ch.lineSum (stateAt g is n) = BitVec.ofNat 14 ((g.dataArrayLength - 1) * n) := by
  refine forall₃_congr fun n hn _ => forall_congr' fun ch => ?_
  have hrun : ∀ j ∈ is.take n, j.aresetn = true := fun j hj => h j (List.mem_of_mem_take hj)
  have hlength : (is.take n).length = n := List.length_take_of_le hn.le
  rw [Channel.charge_subtrig, stateAt, ch.chargeReg_run hrun, hlength]
  exact eq_comm

/-- One maximum of `top` on both channels, below the trigger level. -/
def bump (top : BitVec 14) (n : ℕ) : In :=
  { In.quiet with
    trigLvlAI := 1000
    trigLvlBI := 1000
    subtrigLvlAI := 3
    subtrigLvlBI := 3
    sAxisTdata := if n = 1 then sampleWord top top else 0#32
    sAxisTvalid := true }

/-- The sub-trigger of cycle 32 meets a sum of 992, which is 31 times 32. -/
theorem chargeLaw_coincidence :
    ChargeLaw .blockDesign ((List.range 33).map (bump 992)) ∧
      (stateAt .blockDesign ((List.range 33).map (bump 992)) 32).subtrS (bump 992 32) = true :=
  ⟨(chargeLaw_iff _ (by decide)).mpr (by decide +kernel), by decide +kernel⟩

/-- Any other maximum is recorded with the same charge. -/
theorem not_chargeLaw_bump : ¬ ChargeLaw .blockDesign ((List.range 33).map (bump 4)) := by
  intro h
  exact absurd (h 32 (by decide) (by decide +kernel) .a) (by decide +kernel)

end LagoEcosystem.Trigger
