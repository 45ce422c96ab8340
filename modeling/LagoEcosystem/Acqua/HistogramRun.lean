import LagoEcosystem.Acqua.HistogramCommand
import LagoEcosystem.Histogram.Snapshot
import Mathlib.Tactic.IntervalCases

/-!
# The cores beside the histogram command

The program takes each core into reset and releases it again, and from then on the core runs with
the limit that the program has left. `Phase` follows the accesses of the program, and `Since` is
what a core has been given since it was last in reset.
-/

namespace LagoEcosystem.Acqua

open Clocked SharedWord

/-! ## One of the two cores -/

inductive Core where
  | hist0
  | hist1
  deriving DecidableEq

def Core.rstBit : Core → ℕ
  | .hist0 => 5
  | .hist1 => 6

def Core.cfgOff : Core → ℕ
  | .hist0 => cfgHst0Offset
  | .hist1 => cfgHst1Offset

def Core.stream (c : Core) (e : Event) : Stream :=
  match c with
  | .hist0 => e.stream0
  | .hist1 => e.stream1

def Core.hist (c : Core) (s : HstRun) : Histogram.St .blockDesign :=
  match c with
  | .hist0 => s.hist0
  | .hist1 => s.hist1

/-- The accesses of `hstProgram` after which the core is in reset, and out of it again. -/
def Core.cleared : Core → ℕ
  | .hist0 => 1
  | .hist1 => 2

def Core.released : Core → ℕ
  | .hist0 => 5
  | .hist1 => 6

variable (c : Core) (histoNsamples : ℤ) {s : HstRun} {e : Event} {k : ℕ}

theorem hist_step : c.hist (s.step histoNsamples e) =
    Histogram.step (c.hist s) (histIn s.cfg c.rstBit c.cfgOff (c.stream e)) := by
  cases c <;> rfl

/-! ## The reset bits -/

/-- What accesses do to the reset register. -/
def resetUpdates (accesses : List Access) : List (Update 32) :=
  (accesses.filter fun a => word a.off = word cfgResetGralOffset).map Access.update

theorem getLsbD_applyAll (b : ℕ) (accesses : List Access) (cfg : Cfg) :
    (devRead (applyAll accesses cfg) cfgResetGralOffset).getLsbD b =
      lastIntended b ((devRead cfg cfgResetGralOffset).getLsbD b) (resetUpdates accesses) := by
  induction accesses generalizing cfg with
  | nil => rfl
  | cons a accesses ih =>
    rw [show applyAll (a :: accesses) cfg = applyAll accesses (a.apply cfg) from rfl, ih]
    by_cases hword : word a.off = word cfgResetGralOffset
    · have hself : devRead (a.apply cfg) cfgResetGralOffset =
          a.update.apply (devRead cfg cfgResetGralOffset) := by
        rw [Access.apply, changeReg, devRead, devWrite, ← hword, Function.update_self, devRead,
          devRead, hword]
      rw [hself, Update.getLsbD_apply]
      simp [resetUpdates, hword, lastIntended]
    · rw [Access.apply, devRead_changeReg_of_ne (Ne.symm hword)]
      simp [resetUpdates, hword]

theorem resetUpdates_hstProgram (hk : k ≤ 6) : resetUpdates ((hstProgram histoNsamples).take k) =
    [clearBits 0x20, clearBits 0x40].take k ++ [setBits 0x20, setBits 0x40].take (k - 4) := by
  have hne0 : word cfgHst0Offset ≠ word cfgResetGralOffset := by decide
  have hne1 : word cfgHst1Offset ≠ word cfgResetGralOffset := by decide
  interval_cases k <;> simp [resetUpdates, hstProgram, hne0, hne1]

/-- The program holds the core in reset. -/
theorem reset_low (hk : c.cleared ≤ k) (hk' : k < c.released) (cfg : Cfg) :
    (devRead (applyAll ((hstProgram histoNsamples).take k) cfg) cfgResetGralOffset).getLsbD
      c.rstBit = false := by
  have hle : k ≤ 6 := by cases c <;> simp only [Core.released] at hk' <;> omega
  rw [getLsbD_applyAll, resetUpdates_hstProgram histoNsamples hle]
  generalize (devRead cfg cfgResetGralOffset).getLsbD c.rstBit = x
  cases c <;> simp only [Core.cleared, Core.released] at hk hk' <;> interval_cases k <;> rfl

theorem reset_high (hk : c.released ≤ k) (hk' : k ≤ 6) (cfg : Cfg) :
    (devRead (applyAll ((hstProgram histoNsamples).take k) cfg) cfgResetGralOffset).getLsbD
      c.rstBit = true := by
  rw [getLsbD_applyAll, resetUpdates_hstProgram histoNsamples hk']
  generalize (devRead cfg cfgResetGralOffset).getLsbD c.rstBit = x
  cases c <;> simp only [Core.released] at hk <;> interval_cases k <;> rfl

/-- The limit is there when the core is released. -/
theorem devRead_released (hk : c.released ≤ k) (hk' : k ≤ 6) (cfg : Cfg) :
    devRead (applyAll ((hstProgram histoNsamples).take k) cfg) c.cfgOff =
      devRead (applyAll (hstProgram histoNsamples) cfg) c.cfgOff := by
  have hlast : k = 5 ∨ k = 6 := by
    cases c <;> simp only [Core.released] at hk <;> omega
  rcases hlast with rfl | rfl
  · have hne : word c.cfgOff ≠ word cfgResetGralOffset := by cases c <;> decide
    have hsame : devRead (changeReg (applyAll ((hstProgram histoNsamples).take 5) cfg)
        cfgResetGralOffset (setBits 0x40)) c.cfgOff =
          devRead (applyAll ((hstProgram histoNsamples).take 5) cfg) c.cfgOff :=
      devRead_changeReg_of_ne hne
    exact hsame.symm
  · rfl

/-! ## The samples of a core -/

/-- The run with the samples that a core was given since it was last in reset. -/
structure Given where
  run : HstRun
  samples : List (Histogram.Bin .blockDesign)

def Core.input (s : HstRun) (e : Event) : Histogram.In .blockDesign :=
  histIn s.cfg c.rstBit c.cfgOff (c.stream e)

def Given.step (g : Given) (e : Event) : Given where
  run := g.run.step histoNsamples e
  samples :=
    if (c.input g.run e).aresetn then
      g.samples ++ Histogram.transferOut (c.hist g.run) (c.input g.run e)
    else []

def Given.after (s : HstRun) (es : List Event) : Given :=
  Clocked.run (Given.step c histoNsamples) ⟨s, []⟩ es

theorem given_run (s : HstRun) (es : List Event) :
    (Given.after c histoNsamples s es).run = s.after histoNsamples es :=
  run_map (f := Given.run) (fun _ _ => rfl) _ es

/-- The samples of the first core up to the end of `es`. -/
def HstRun.samples (s : HstRun) (es : List Event) : List (Histogram.Bin .blockDesign) :=
  (Given.after .hist0 histoNsamples s es).samples

/-- The core has run since the reset with the limit `n`, and `D` holds of every cycle. -/
def Since (n : BitVec 32) (D : Histogram.St .blockDesign → Histogram.In .blockDesign → Prop)
    (g : Given) : Prop :=
  ∃ bram is, c.hist g.run = Histogram.after bram is ∧
    g.samples = Histogram.transferred bram is ∧ (∀ i ∈ is, i.Configured n) ∧
    Along Histogram.step D (.reset bram) is

variable (cfg : Cfg) (D : Histogram.St .blockDesign → Histogram.In .blockDesign → Prop)

/-- The limit of the core, as the program leaves it. -/
def Core.limit : BitVec 32 := devRead (applyAll (hstProgram histoNsamples) cfg) c.cfgOff

/-- After `k` accesses of the program. -/
structure Phase (k : ℕ) (g : Given) : Prop where
  le : k ≤ 6
  todo : g.run.todo = (hstProgram histoNsamples).drop k
  regs : g.run.cfg = applyAll ((hstProgram histoNsamples).take k) cfg
  since : c.released ≤ k → Since c (c.limit histoNsamples cfg) D g

variable {cfg D} {c histoNsamples} {g : Given}

theorem since_step (n : BitVec 32) (h : Since c n D g) (hi : (c.input g.run e).Configured n)
    (hD : D (c.hist g.run) (c.input g.run e)) : Since c n D (g.step c histoNsamples e) := by
  obtain ⟨bram, is, hhist, hsamples, his, halong⟩ := h
  refine ⟨bram, is ++ [c.input g.run e], ?_, ?_, ?_, ?_⟩
  · rw [Histogram.after_snoc, ← hhist]
    exact hist_step c histoNsamples
  · simp only [Given.step, hi.1, if_true]
    rw [Histogram.transferred_snoc, hsamples, hhist]
  · rintro i hi'
    rcases List.mem_append.mp hi' with hi' | hi'
    · exact his i hi'
    · rwa [List.mem_singleton.mp hi']
  · rw [along_append]
    rw [hhist] at hD
    exact ⟨halong, hD, trivial⟩

theorem since_reset (n : BitVec 32) (hi : (c.input g.run e).aresetn = false) :
    Since c n D (g.step c histoNsamples e) := by
  refine ⟨(c.hist g.run).bramNext (c.input g.run e), [], ?_, ?_, nofun, trivial⟩
  · exact (hist_step c histoNsamples).trans (Histogram.step_of_reset hi)
  · simp only [Given.step, hi, Bool.false_eq_true, if_false]
    rfl

/-- The accesses of a step. -/
theorem phase_regs (hle : k ≤ 6) (htodo : s.todo = (hstProgram histoNsamples).drop k)
    (hregs : s.cfg = applyAll ((hstProgram histoNsamples).take k) cfg) (e : Event) :
    ∃ k', k ≤ k' ∧ k' ≤ k + 1 ∧ k' ≤ 6 ∧
      (s.step histoNsamples e).todo = (hstProgram histoNsamples).drop k' ∧
      (s.step histoNsamples e).cfg = applyAll ((hstProgram histoNsamples).take k') cfg := by
  have hlen : (hstProgram histoNsamples).length = 6 := rfl
  cases he : e.steps with
  | false =>
    refine ⟨k, le_rfl, Nat.le_succ k, hle, ?_, ?_⟩
    · simpa [HstRun.step, he] using htodo
    · simpa [HstRun.step, he] using hregs
  | true =>
    rcases Nat.lt_or_eq_of_le hle with hlt | rfl
    · have hk : k < (hstProgram histoNsamples).length := by omega
      rw [List.drop_eq_getElem_cons hk] at htodo
      obtain ⟨hrest, hcfg, -⟩ := step_access histoNsamples he htodo
      refine ⟨k + 1, Nat.le_succ k, le_rfl, hlt, hrest, ?_⟩
      rw [hcfg, hregs, List.take_succ_eq_append_getElem hk, applyAll, applyAll, List.foldl_append]
      rfl
    · obtain ⟨hrest, hcfg, -⟩ := step_poll histoNsamples he (htodo.trans rfl)
      exact ⟨6, le_rfl, Nat.le_succ 6, le_rfl, hrest, hcfg.trans hregs⟩

theorem phase_step (h : Phase c histoNsamples cfg D k g)
    (hD : c.released ≤ k → D (c.hist g.run) (c.input g.run e)) :
    ∃ k', Phase c histoNsamples cfg D k' (g.step c histoNsamples e) := by
  obtain ⟨hle, htodo, hregs, hsince⟩ := h
  obtain ⟨k', hfrom, hto, hle', htodo', hregs'⟩ := phase_regs hle htodo hregs e
  refine ⟨k', hle', htodo', hregs', fun hk' => ?_⟩
  rcases Nat.lt_or_ge k c.released with hlow | hhigh
  · have hcleared : c.cleared ≤ k := by
      cases c <;> simp only [Core.cleared, Core.released] at hk' ⊢ <;> omega
    refine since_reset _ ?_
    simp only [Core.input, histIn, hregs]
    exact reset_low c histoNsamples hcleared hlow cfg
  · refine since_step _ (hsince hhigh) ⟨?_, ?_⟩ (hD hhigh)
    · simp only [Core.input, histIn, hregs]
      exact reset_high c histoNsamples hhigh hle cfg
    · simp only [Core.input, histIn, hregs]
      exact devRead_released c histoNsamples hhigh hle cfg

theorem phase_after (htodo : s.todo = hstProgram histoNsamples) {es : List Event}
    (h : Along (HstRun.step histoNsamples)
      (fun s e => c.released + s.todo.length ≤ 6 → D (c.hist s) (c.input s e)) s es) :
    ∃ k, Phase c histoNsamples s.cfg D k (Given.after c histoNsamples s es) := by
  have halong : Along (Given.step c histoNsamples) (fun g e => c.released + g.run.todo.length ≤ 6 →
      D (c.hist g.run) (c.input g.run e)) ⟨s, []⟩ es :=
    (along_map (f := Given.run)
      (C := fun s e => c.released + s.todo.length ≤ 6 → D (c.hist s) (c.input s e))
      (fun _ _ => rfl) (Given.mk s []) es).mpr h
  refine halong.invariant (P := fun g => ∃ k, Phase c histoNsamples s.cfg D k g)
    ⟨0, Nat.zero_le 6, htodo, rfl, fun hk => ?_⟩ ?_
  · cases c <;> simp [Core.released] at hk
  · rintro g e ⟨k, hphase⟩ hD
    refine phase_step hphase fun hk => hD ?_
    have hle := hphase.le
    have hlen : (hstProgram histoNsamples).length = 6 := rfl
    rw [hphase.todo, List.length_drop, hlen]
    omega

/-- Once the program has made its accesses, the core runs with its limit. -/
theorem since_of_programmed (hphase : Phase c histoNsamples cfg D k g) (htodo : g.run.todo = []) :
    Since c (c.limit histoNsamples cfg) D g ∧
      g.run.cfg = applyAll (hstProgram histoNsamples) cfg := by
  have hlen := congrArg List.length (hphase.todo.symm.trans htodo)
  have hfull : (hstProgram histoNsamples).length = 6 := rfl
  have hle := hphase.le
  rw [List.length_drop, hfull, List.length_nil] at hlen
  obtain rfl : k = 6 := by omega
  exact ⟨hphase.since (by cases c <;> decide), hphase.regs⟩

/-- Behind its accesses the program leaves the core alone. -/
theorem after_programmed (c : Core) (htodo : s.todo = []) (es : List Event) :
    (s.after histoNsamples es).todo = [] ∧
      c.hist (s.after histoNsamples es) =
        run Histogram.step (c.hist s) (es.map (c.input s)) := by
  induction es generalizing s with
  | nil => exact ⟨htodo, rfl⟩
  | cons e es ih =>
    have hstep : (s.step histoNsamples e).todo = [] ∧ (s.step histoNsamples e).cfg = s.cfg := by
      cases he : e.steps with
      | false => exact ⟨by simpa [HstRun.step, he] using htodo, by simp [HstRun.step, he]⟩
      | true =>
        obtain ⟨htodo', hcfg', -⟩ := step_poll histoNsamples he htodo
        exact ⟨htodo', hcfg'⟩
    obtain ⟨hnil, hhist⟩ := ih hstep.1
    refine ⟨hnil, ?_⟩
    have hinput : c.input (s.step histoNsamples e) = c.input s := by
      funext e'
      simp only [Core.input, hstep.2]
    rw [hist_step, hinput] at hhist
    exact hhist

theorem input_configured (c : Core)
    (hregs : s.cfg = applyAll (hstProgram histoNsamples) cfg) (e : Event) :
    (c.input s e).Configured (c.limit histoNsamples cfg) := by
  refine ⟨?_, ?_⟩
  · simp only [Core.input, histIn, hregs]
    exact reset_high c histoNsamples (by cases c <;> decide) le_rfl cfg
  · simp only [Core.input, histIn, hregs]
    rfl

end LagoEcosystem.Acqua
