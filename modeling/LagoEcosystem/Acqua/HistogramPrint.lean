import LagoEcosystem.Acqua.HistogramRun

/-!
# The printed histogram

When the polling loop of `-m` has ended, the program copies the memories of both cores and prints
them, while the cores are still running. A printed number lies between the count at the end of the
loop and the one at the end of the copy. If the stream has no gaps and the registers were
programmed right, the first column is the histogram of exactly the samples that were asked for.
-/

namespace LagoEcosystem.Acqua

open BitFields CLib Clocked Saturating SharedWord

variable {c : Core} {histoNsamples : ℤ} {s : HstRun} {cfg : Cfg}

/-! ## The copy -/

/-- A clock cycle of the copy, in which a word is read or none. -/
structure CopyEvent where
  event : Event
  read : Option (Core × Histogram.Bin .blockDesign)
  collision : Histogram.Count .blockDesign

/-- The cores and the words copied so far. -/
structure Copying where
  run : HstRun
  buf : Core → Histogram.Bin .blockDesign → Option (Histogram.Count .blockDesign)

def Copying.start (s : HstRun) : Copying := ⟨s, fun _ _ => none⟩

variable (histoNsamples) in
def Copying.step (p : Copying) (ce : CopyEvent) : Copying where
  run := p.run.step histoNsamples ce.event
  buf :=
    match ce.read with
    | some (c, b) =>
      Function.update p.buf c
        (Function.update (p.buf c) b (some ((c.hist p.run).readout b ce.collision)))
    | none => p.buf

variable (histoNsamples) in
/-- The copy of both memories, word by word in any order. -/
def HstRun.copied (s : HstRun) (ces : List CopyEvent) : Copying :=
  run (Copying.step histoNsamples) (.start s) ces

def Copying.Finished (p : Copying) : Prop := ∀ c b, p.buf c b ≠ none

/-- `num_word` -/
def numWord : ℕ := 16384

def Copying.word (p : Copying) (c : Core) (i : ℕ) : ℤ :=
  ((p.buf c (BitVec.ofNat 14 i)).getD 0).toInt

/-- The lines that are printed. -/
def Copying.printed (p : Copying) : List (ℤ × ℤ) :=
  (List.range numWord).map fun i => (p.word .hist0 i, p.word .hist1 i)

theorem copied_run (s : HstRun) (ces : List CopyEvent) :
    (s.copied histoNsamples ces).run = s.after histoNsamples (ces.map CopyEvent.event) := by
  induction ces using List.reverseRecOn with
  | nil => rfl
  | append_singleton ces ce ih =>
    rw [HstRun.copied, run_append, List.map_append, HstRun.after_append, ← ih]
    rfl

/-- A word in the buffer was read in some cycle of the copy. -/
theorem exists_read {ces : List CopyEvent} {b : Histogram.Bin .blockDesign}
    {w : Histogram.Count .blockDesign} (h : (s.copied histoNsamples ces).buf c b = some w) :
    ∃ before ce later, ces = before ++ ce :: later ∧ ce.read = some (c, b) ∧
      w = (c.hist (s.copied histoNsamples before).run).readout b ce.collision := by
  induction ces using List.reverseRecOn with
  | nil => cases h
  | append_singleton ces ce ih =>
    have hstep : s.copied histoNsamples (ces ++ [ce]) =
        (s.copied histoNsamples ces).step histoNsamples ce := run_append _ _ _ _
    rw [hstep, Copying.step] at h
    have hearlier (h : (s.copied histoNsamples ces).buf c b = some w) :
        ∃ before ce' later, ces ++ [ce] = before ++ ce' :: later ∧ ce'.read = some (c, b) ∧
          w = (c.hist (s.copied histoNsamples before).run).readout b ce'.collision := by
      obtain ⟨before, ce', later, rfl, hread, hw⟩ := ih h
      exact ⟨before, ce', later ++ [ce], by simp, hread, hw⟩
    cases hread : ce.read with
    | none =>
      rw [hread] at h
      exact hearlier h
    | some cell =>
      obtain ⟨c', b'⟩ := cell
      rw [hread] at h
      by_cases hcell : c = c' ∧ b = b'
      · obtain ⟨rfl, rfl⟩ := hcell
        simp only [Function.update_self, Option.some.injEq] at h
        exact ⟨ces, ce, [], rfl, hread, h.symm⟩
      · refine hearlier ?_
        by_cases hc : c = c'
        · subst hc
          have hb : b ≠ b' := fun hb => hcell ⟨rfl, hb⟩
          simpa only [Function.update_self, Function.update_of_ne hb] using h
        · simpa only [Function.update_of_ne hc] using h

/-! ## The law -/

variable (histoNsamples) in
/-- From the release of the first core on, it is never left without a sample. -/
def HstRun.Fed (s : HstRun) (e : Event) : Prop :=
  s.todo.length ≤ 1 → Histogram.NoGap s.hist0 (Core.hist0.input s e)

/-- The word that is read is not being written. -/
def Copying.NoCollision (p : Copying) (ce : CopyEvent) : Prop :=
  ∀ c b, ce.read = some (c, b) → ¬((c.hist p.run).wrenReg ∧ (c.hist p.run).addrReg = b)

variable (histoNsamples) in
/-- What is printed behind every run from `s`. -/
structure PrintLaw (s : HstRun) : Prop where
  /-- A word copied lies between the counts at the beginning and at the end of the copy. The
  second core may still be writing zeros when the loop ends. -/
  between : ∀ es ces c, (s.after histoNsamples es).Ended histoNsamples →
    (c = .hist1 → (s.after histoNsamples es).hist1.Zeroed) →
    Along (Copying.step histoNsamples) Copying.NoCollision (.start (s.after histoNsamples es)) ces →
    ∀ b w, ((s.after histoNsamples es).copied histoNsamples ces).buf c b = some w →
      (c.hist (s.after histoNsamples es)).bram.mem b ≤ w ∧
        w ≤ (c.hist ((s.after histoNsamples es).copied histoNsamples ces).run).bram.mem b
  /-- If the first core always had a sample, its column counts the first samples after the
  release, as many as were asked for. -/
  column : ∀ es wait ces, (s.after histoNsamples es).Ended histoNsamples →
    Along (HstRun.step histoNsamples) HstRun.Fed s es → 3 ≤ wait.length →
    ((s.after histoNsamples (es ++ wait)).copied histoNsamples ces).Finished →
    (((s.after histoNsamples (es ++ wait)).copied histoNsamples ces).printed.map Prod.fst =
      (List.range numWord).map fun i =>
        (((s.samples histoNsamples es).take (histoNsamples - 2).toNat).count (BitVec.ofNat 14 i) :
          ℤ)) ∧
      histoNsamples - 2 ≤ (s.samples histoNsamples es).length

section Copied

variable {argv : List CString}

/-- Behind its accesses the program has left a core configured and running. -/
theorem hist_of_programmed (htodo : s.todo = hstProgram histoNsamples) (c : Core) {es : List Event}
    (hnil : (s.after histoNsamples es).todo = []) :
    (∃ bram is, c.hist (s.after histoNsamples es) = Histogram.after bram is ∧
      ∀ i ∈ is, i.Configured (c.limit histoNsamples s.cfg)) ∧
      (s.after histoNsamples es).cfg = applyAll (hstProgram histoNsamples) s.cfg := by
  have halong : Along (HstRun.step histoNsamples)
      (fun s _ => c.released + s.todo.length ≤ 6 → True) s es :=
    along_of_forall_snoc fun _ _ _ _ => trivial
  obtain ⟨k, hphase⟩ := phase_after (D := fun _ _ => True) htodo halong
  have hrun := given_run c histoNsamples s es
  obtain ⟨⟨bram, is, hhist, -, his, -⟩, hregs⟩ :=
    since_of_programmed hphase (by rw [hrun]; exact hnil)
  rw [hrun] at hhist hregs
  exact ⟨⟨bram, is, hhist, his⟩, hregs⟩

/-- A configured core runs on as it is. -/
theorem hist_after_programmed (c : Core) {es : List Event}
    (hnil : (s.after histoNsamples es).todo = [])
    (hregs : (s.after histoNsamples es).cfg = applyAll (hstProgram histoNsamples) cfg)
    {bram : Histogram.Bram .blockDesign} {is : List (Histogram.In .blockDesign)}
    (hhist : c.hist (s.after histoNsamples es) = Histogram.after bram is)
    (his : ∀ i ∈ is, i.Configured (c.limit histoNsamples cfg)) (more : List Event) :
    c.hist (s.after histoNsamples (es ++ more)) =
        Histogram.after bram (is ++ more.map (c.input (s.after histoNsamples es))) ∧
      ∀ i ∈ is ++ more.map (c.input (s.after histoNsamples es)),
        i.Configured (c.limit histoNsamples cfg) := by
  refine ⟨?_, fun i hi => ?_⟩
  · rw [HstRun.after_append, (after_programmed c hnil more).2, hhist, Histogram.after,
      Histogram.after, run_append]
  · rcases List.mem_append.mp hi with hi | hi
    · exact his i hi
    · obtain ⟨e, -, rfl⟩ := List.mem_map.mp hi
      exact input_configured c hregs e

/-- A word of a core that runs on is not above a later one. -/
theorem mem_le_after (htodo : s.todo = hstProgram histoNsamples) (c : Core) {es : List Event}
    (hnil : (s.after histoNsamples es).todo = [])
    (hz : (c.hist (s.after histoNsamples es)).Zeroed) (more : List Event)
    (b : Histogram.Bin .blockDesign) :
    (c.hist (s.after histoNsamples es)).bram.mem b ≤
        (c.hist (s.after histoNsamples (es ++ more))).bram.mem b ∧
      (c.hist (s.after histoNsamples (es ++ more))).Zeroed := by
  obtain ⟨⟨bram, is, hhist, his⟩, hregs⟩ := hist_of_programmed htodo c hnil
  obtain ⟨hlast, hall⟩ := hist_after_programmed c hnil hregs hhist his more
  rw [hlast, hhist]
  rw [hhist] at hz
  exact ⟨Histogram.mem_append_le (fun i hi => (hall i hi).1) hz b,
    Histogram.zeroed_append hz fun i hi => (hall i (List.mem_append_right _ hi)).1⟩

/-- The loop waits for a count of the first core, which has written its zeros by then. -/
theorem hist0_zeroed (htodo : s.todo = hstProgram histoNsamples) (hpos : s.histoPosition = 0)
    {es : List Event} (h : 0 < (s.after histoNsamples es).histoPosition) :
    (s.after histoNsamples es).hist0.Zeroed := by
  induction es using List.reverseRecOn with
  | nil => exact absurd h (by rw [HstRun.after, run_nil, hpos]; decide)
  | append_singleton es e ih =>
    have hzero := position_eq_zero histoNsamples hpos es
    by_cases hnil : (s.after histoNsamples es).todo = []
    case neg =>
      -- the program has not come to the loop
      rw [HstRun.after_append] at h
      exact absurd ((position_step histoNsamples hnil e).trans (hzero hnil)) h.ne'
    case pos =>
      have hz : (Core.hist0.hist (s.after histoNsamples es)).Zeroed := by
        by_cases hcntr : (s.after histoNsamples es).hist0.cntrReg = 0
        case neg =>
          obtain ⟨⟨bram, is, hhist, his⟩, -⟩ := hist_of_programmed htodo .hist0 hnil
          have hhist0 : (s.after histoNsamples es).hist0 = Histogram.after bram is := hhist
          rw [hhist0] at hcntr
          rw [hhist]
          exact Histogram.zeroed_of_cntrReg_ne bram (fun i hi => (his i hi).1) hcntr
        case pos =>
          -- a count of zero is not what the loop waits for
          refine ih ?_
          rw [HstRun.after_append] at h
          cases he : e.steps with
          | false => simpa [HstRun.after, HstRun.step, he] using h
          | true =>
            have hpoll : 0 < ((s.after histoNsamples es).step histoNsamples e).histoPosition := h
            rw [(step_poll histoNsamples he hnil).2.2, hcntr] at hpoll
            split at hpoll
            · exact absurd hpoll (by decide)
            · exact hpoll
      exact (mem_le_after htodo .hist0 hnil hz [e] 0).2

/-- The core that the program fed through the loop. -/
theorem fed_phase (htodo : s.todo = hstProgram histoNsamples) {es : List Event}
    (h : Along (HstRun.step histoNsamples) HstRun.Fed s es) :
    ∃ k, Phase .hist0 histoNsamples s.cfg Histogram.NoGap k
      (Given.after .hist0 histoNsamples s es) :=
  phase_after htodo (h.mono fun s e hs hlen => hs (by simp only [Core.released] at hlen; omega))

/-- `histo_position` is never above the counter, as long as the core is fed. -/
theorem position_le (htodo : s.todo = hstProgram histoNsamples) (hpos : s.histoPosition = 0)
    (hcfg : 2 ≤ (Core.hist0.limit histoNsamples s.cfg).toNat) {es : List Event}
    (h : Along (HstRun.step histoNsamples) HstRun.Fed s es) :
    (s.after histoNsamples es).histoPosition ≤ (s.after histoNsamples es).hist0.cntrReg.toNat := by
  induction es using List.reverseRecOn with
  | nil => exact hpos.le.trans (Int.natCast_nonneg _)
  | append_singleton es e ih =>
    obtain ⟨hfed, -⟩ := (along_append _ _ _ _ _).mp h
    have hle := ih hfed
    have hzero := position_eq_zero histoNsamples hpos es
    obtain ⟨k, hphase⟩ := fed_phase htodo hfed
    have hlast : s.after histoNsamples (es ++ [e]) =
        (Given.after .hist0 histoNsamples s es).run.step histoNsamples e := by
      rw [HstRun.after_append, given_run]
      rfl
    rw [hlast]
    rw [← given_run .hist0] at hle hzero
    generalize Given.after .hist0 histoNsamples s es = g at *
    by_cases hrest : g.run.todo = []
    case neg =>
      rw [position_step histoNsamples hrest, hzero hrest]
      exact Int.natCast_nonneg _
    case pos =>
      obtain ⟨⟨bram, is, hhist, -, his, hgap⟩, hregs⟩ := since_of_programmed hphase hrest
      have hinput := input_configured .hist0 hregs e
      have hbound : (Histogram.after bram is).cntrReg.toNat ≤
          (Core.hist0.limit histoNsamples s.cfg).toNat - 1 := Histogram.cntrReg_le hcfg his hgap
      have hlt := (Core.hist0.limit histoNsamples s.cfg).isLt
      have hnext : g.run.hist0.cntrReg.toNat ≤
          (g.run.step histoNsamples e).hist0.cntrReg.toNat := by
        have hstep : (g.run.step histoNsamples e).hist0 =
            (Core.hist0.hist g.run).next (Core.hist0.input g.run e) :=
          (hist_step .hist0 histoNsamples).trans (Histogram.step_of_aresetn hinput.1)
        rw [hstep]
        have hhist0 : g.run.hist0 = Histogram.after bram is := hhist
        refine Histogram.cntrReg_le_next ?_ _
        show g.run.hist0.cntrReg.toNat + 1 < 2 ^ 32
        rw [hhist0]
        omega
      exact (position_poll_le histoNsamples hrest hle e).trans (Int.ofNat_le.mpr hnext)

theorem toNat_hstLimit (hN : 3 ≤ histoNsamples) (hmax : histoNsamples ≤ 10000000)
    (hlimit : Core.hist0.limit histoNsamples cfg = BitVec.ofInt 32 (histoNsamples - 1)) :
    ((Core.hist0.limit histoNsamples cfg).toNat : ℤ) = histoNsamples - 1 := by
  rw [hlimit, BitVec.toNat_ofInt]
  omega

/-- When the loop has ended, the counter of the fed core is at its limit. -/
theorem limit_of_ended (hN : 3 ≤ histoNsamples) (hmax : histoNsamples ≤ 10000000)
    (htodo : s.todo = hstProgram histoNsamples) (hpos : s.histoPosition = 0)
    (hlimit : Core.hist0.limit histoNsamples s.cfg = BitVec.ofInt 32 (histoNsamples - 1))
    {es : List Event} (hended : (s.after histoNsamples es).Ended histoNsamples)
    (h : Along (HstRun.step histoNsamples) HstRun.Fed s es) :
    ∃ bram is, (s.after histoNsamples es).hist0 = Histogram.after bram is ∧
      s.samples histoNsamples es = Histogram.transferred bram is ∧
      (∀ i ∈ is, i.Configured (Core.hist0.limit histoNsamples s.cfg)) ∧
      Along Histogram.step Histogram.NoGap (.reset bram) is ∧
      (Histogram.after bram is).cntrReg.toNat =
        (Core.hist0.limit histoNsamples s.cfg).toNat - 1 ∧
      (s.after histoNsamples es).cfg = applyAll (hstProgram histoNsamples) s.cfg := by
  have hvalue := toNat_hstLimit hN hmax hlimit
  have hposition := position_le htodo hpos (by omega) h
  obtain ⟨k, hphase⟩ := fed_phase htodo h
  have hrun := given_run .hist0 histoNsamples s es
  obtain ⟨⟨bram, is, hhist, hsamples, his, hgap⟩, hregs⟩ :=
    since_of_programmed hphase (by rw [hrun]; exact hended.1)
  rw [hrun] at hhist hregs
  have hhist0 : (s.after histoNsamples es).hist0 = Histogram.after bram is := hhist
  refine ⟨bram, is, hhist0, hsamples, his, hgap, ?_, hregs⟩
  have hcfg : 2 ≤ (Core.hist0.limit histoNsamples s.cfg).toNat := by omega
  have hle : (Histogram.after bram is).cntrReg.toNat ≤
      (Core.hist0.limit histoNsamples s.cfg).toNat - 1 := Histogram.cntrReg_le hcfg his hgap
  have hleft := hended.2
  rw [hhist0] at hposition
  omega

/-- Three clocks after the loop a word read is the count of the samples asked for. -/
theorem readout_eq (hN : 3 ≤ histoNsamples) (hmax : histoNsamples ≤ 10000000)
    (htodo : s.todo = hstProgram histoNsamples) (hpos : s.histoPosition = 0)
    (hlimit : Core.hist0.limit histoNsamples s.cfg = BitVec.ofInt 32 (histoNsamples - 1))
    {es later : List Event} (hended : (s.after histoNsamples es).Ended histoNsamples)
    (h : Along (HstRun.step histoNsamples) HstRun.Fed s es) (hlater : 3 ≤ later.length)
    (b : Histogram.Bin .blockDesign) (collision : Histogram.Count .blockDesign) :
    (((s.after histoNsamples (es ++ later)).hist0.readout b collision).toInt : ℤ) =
        ((s.samples histoNsamples es).take (histoNsamples - 2).toNat).count b ∧
      histoNsamples - 2 ≤ (s.samples histoNsamples es).length := by
  have hvalue := toNat_hstLimit hN hmax hlimit
  obtain ⟨bram, is, hhist, hsamples, his, hgap, hfull, hregs⟩ :=
    limit_of_ended hN hmax htodo hpos hlimit hended h
  have hcfg : 2 ≤ (Core.hist0.limit histoNsamples s.cfg).toNat := by omega
  have hnum : Histogram.limit (g := .blockDesign) (Core.hist0.limit histoNsamples s.cfg) =
      (histoNsamples - 2).toNat := by
    show (Core.hist0.limit histoNsamples s.cfg).toNat - 1 = _
    omega
  have henough := Histogram.le_length_of_full hcfg his hgap hfull
  rw [← hsamples, hnum] at henough
  refine ⟨?_, by omega⟩
  have hhist0 : Core.hist0.hist (s.after histoNsamples es) = Histogram.after bram is := hhist
  obtain ⟨hlast, hall⟩ := hist_after_programmed .hist0 hended.1 hregs hhist0 his later
  set js := later.map (Core.hist0.input (s.after histoNsamples es)) with hjs
  obtain ⟨hwren, hcounts⟩ := Histogram.counts_full hcfg hall hgap hfull (by simpa [hjs] using hlater)
  -- the samples after those asked for make no difference
  have hprefix : Histogram.transferred bram is <+: Histogram.transferred bram (is ++ js) :=
    Histogram.transferred_append js
  obtain ⟨more, hmore⟩ := hprefix
  rw [← hmore, ← hsamples, hnum, List.take_append_of_le_length henough] at hcounts
  have hread : (s.after histoNsamples (es ++ later)).hist0 = Histogram.after bram (is ++ js) := hlast
  rw [hread, Histogram.St.readout, if_neg (by simp [hwren]), hcounts b]
  have hcount := List.count_le_length (a := b)
    (l := (s.samples histoNsamples es).take (histoNsamples - 2).toNat)
  rw [List.length_take] at hcount
  generalize List.count b _ = m at *
  have hsat : (sat 32 m).toNat = m := by
    rw [toNat_sat]
    omega
  have hint : (sat 32 m).toInt = m := by
    rw [BitVec.toInt_eq_toNat_of_lt (by rw [hsat]; omega), hsat]
  exact hint

/-- A word copied without a collision lies between the words before and after the copy. -/
theorem copied_between (htodo : s.todo = hstProgram histoNsamples) (c : Core) {es : List Event}
    {ces : List CopyEvent} (hnil : (s.after histoNsamples es).todo = [])
    (hz : (c.hist (s.after histoNsamples es)).Zeroed)
    (h : Along (Copying.step histoNsamples) Copying.NoCollision (.start (s.after histoNsamples es))
      ces) {b : Histogram.Bin .blockDesign} {w : Histogram.Count .blockDesign}
    (hw : ((s.after histoNsamples es).copied histoNsamples ces).buf c b = some w) :
    (c.hist (s.after histoNsamples es)).bram.mem b ≤ w ∧
      w ≤ (c.hist ((s.after histoNsamples es).copied histoNsamples ces).run).bram.mem b := by
  obtain ⟨before, ce, later, rfl, hread, rfl⟩ := exists_read hw
  obtain ⟨-, hclear, -⟩ := (along_append _ _ _ _ _).mp h
  have hword : (c.hist ((s.after histoNsamples es).copied histoNsamples before).run).readout b
      ce.collision =
        (c.hist ((s.after histoNsamples es).copied histoNsamples before).run).bram.mem b :=
    if_neg (hclear c b hread)
  rw [hword, copied_run, copied_run, ← HstRun.after_append, ← HstRun.after_append, List.map_append,
    ← List.append_assoc]
  obtain ⟨hup, hz'⟩ := mem_le_after htodo c hnil hz (before.map CopyEvent.event) b
  have hnil' : (s.after histoNsamples (es ++ before.map CopyEvent.event)).todo = [] := by
    rw [HstRun.after_append]
    exact (after_programmed c hnil _).1
  exact ⟨hup, (mem_le_after htodo c hnil' hz' _ b).1⟩

/-- The first column is made of the words read. -/
theorem printed_column {p : Copying} {f : Histogram.Bin .blockDesign → ℤ} (hfin : p.Finished)
    (h : ∀ b w, p.buf .hist0 b = some w → w.toInt = f b) :
    p.printed.map Prod.fst = (List.range numWord).map fun i => f (BitVec.ofNat 14 i) := by
  rw [Copying.printed, List.map_map]
  refine List.map_congr_left fun i _ => ?_
  obtain ⟨w, hw⟩ := Option.ne_none_iff_exists'.mp (hfin .hist0 (BitVec.ofNat 14 i))
  have hcell := h _ w hw
  simpa [Copying.word, hw] using hcell

end Copied

section Sampled

variable {s : HstRun} {e : Event} {es : List Event}

theorem fed_of_valid (h : ∀ e ∈ es, e.stream0.tvalid = true) :
    Along (HstRun.step histoNsamples) HstRun.Fed s es :=
  (along_of_forall _ s h).mono fun _ _ he _ _ _ => he

theorem mem_samples {x : BitVec 16} (h : ∀ e ∈ es, e.stream0.tdata = x)
    {b : Histogram.Bin .blockDesign} (hb : b ∈ s.samples histoNsamples es) :
    b = x.setWidth 14 := by
  induction es using List.reverseRecOn with
  | nil => cases hb
  | append_singleton es e ih =>
    have hlast : s.samples histoNsamples (es ++ [e]) =
        ((Given.after .hist0 histoNsamples s es).step .hist0 histoNsamples e).samples :=
      congrArg Given.samples (run_append _ _ _ _)
    rw [hlast, Given.step] at hb
    split at hb
    case isFalse => cases hb
    case isTrue =>
      rcases List.mem_append.mp hb with hb | hb
      · exact ih (fun e he => h e (List.mem_append_left _ he)) hb
      · rw [Histogram.transferOut] at hb
        split at hb
        case isFalse => cases hb
        case isTrue =>
          rw [List.mem_singleton.mp hb, ← h e (by simp)]
          rfl

theorem after_replicate_succ (n : ℕ) : s.after histoNsamples (List.replicate (n + 1) e) =
    (s.after histoNsamples (List.replicate n e)).step histoNsamples e := by
  rw [List.replicate_succ', HstRun.after_append]
  rfl

/-- The first core behind the accesses, which are made one in every cycle. -/
theorem hist0_after_accesses (htodo : s.todo = hstProgram histoNsamples) (he : e.steps = true) :
    (s.after histoNsamples (List.replicate 6 e)).todo = [] ∧
      (s.after histoNsamples (List.replicate 6 e)).cfg = applyAll (hstProgram histoNsamples) s.cfg ∧
      ∃ bram i, i.Configured (Core.hist0.limit histoNsamples s.cfg) ∧
        (s.after histoNsamples (List.replicate 6 e)).hist0 = Histogram.after bram [i] := by
  obtain ⟨hnil, hcfg, -⟩ := after_accesses histoNsamples he
    (htodo.trans (List.append_nil (hstProgram histoNsamples)).symm)
  have hregs (k : ℕ) (hk : k ≤ 6) : (s.after histoNsamples (List.replicate k e)).cfg =
      applyAll ((hstProgram histoNsamples).take k) s.cfg := by
    have hsplit := htodo.trans (List.take_append_drop k (hstProgram histoNsamples)).symm
    have hlen : ((hstProgram histoNsamples).take k).length = k := List.length_take_of_le hk
    have hmade := (after_accesses histoNsamples he hsplit).2.1
    rwa [hlen] at hmade
  refine ⟨hnil, hcfg, ?_⟩
  obtain ⟨bram, hbram⟩ := hist0_reset (s := s.after histoNsamples (List.replicate 4 e))
    histoNsamples
    (by rw [hregs 4 (by decide)]; exact reset_low .hist0 _ (by decide) (by decide) s.cfg) e
  refine ⟨bram, Core.hist0.input (s.after histoNsamples (List.replicate 5 e)) e, ⟨?_, ?_⟩, ?_⟩
  · rw [Core.input, histIn, hregs 5 (by decide)]
    exact reset_high .hist0 histoNsamples (by decide) (by decide) s.cfg
  · rw [Core.input, histIn, hregs 5 (by decide)]
    exact devRead_released .hist0 histoNsamples (by decide) (by decide) s.cfg
  · rw [after_replicate_succ 5, Histogram.after, run_cons, run_nil, ← hbram,
      ← after_replicate_succ 4]
    exact hist_step .hist0 histoNsamples

/-- The accesses, the zeros, a sample, and a look at the position. -/
def oneSample (e : Event) : List Event :=
  List.replicate 6 { e with steps := true } ++
    (List.replicate (2 ^ 14 + 1) { e with steps := false } ++ [{ e with steps := true }])

theorem ended_oneSample (htodo : s.todo = hstProgram 3)
    (hlimit : 2 ≤ (Core.hist0.limit 3 s.cfg).toNat) (e : Event) :
    (s.after 3 (oneSample e)).Ended 3 := by
  obtain ⟨hnil, hcfg, bram, i, hi, hhist⟩ :=
    hist0_after_accesses htodo (e := { e with steps := true }) rfl
  set t := s.after 3 (List.replicate 6 { e with steps := true })
  obtain ⟨hnil', hrun⟩ := after_programmed .hist0 hnil
    (List.replicate (2 ^ 14 + 1) { e with steps := false })
  rw [List.map_replicate] at hrun
  set u := t.after 3 (List.replicate (2 ^ 14 + 1) { e with steps := false })
  have hcntr : u.hist0.cntrReg = 1 := by
    have hlast : u.hist0 = Histogram.after bram
        (i :: List.replicate (2 ^ 14 + 1) (Core.hist0.input t { e with steps := false })) := by
      rw [Histogram.after, run_cons]
      refine hrun.trans ?_
      rw [show Core.hist0.hist t = t.hist0 from rfl, hhist]
      rfl
    rw [hlast]
    refine Histogram.counts_first bram hlimit (fun j hj => ?_) ?_
    · rcases List.mem_cons.mp hj with rfl | hj
      · exact hi
      · rw [List.eq_of_mem_replicate hj]
        exact input_configured .hist0 hcfg _
    · rw [List.length_cons, List.length_replicate]
      rfl
  have hend : s.after 3 (oneSample e) = u.step 3 { e with steps := true } := by
    rw [oneSample, HstRun.after_append, HstRun.after_append]
    rfl
  obtain ⟨hnil'', -, hposition⟩ := step_poll 3 (e := { e with steps := true }) rfl hnil'
  rw [hend]
  refine ⟨hnil'', ?_⟩
  rw [hposition, hcntr]
  split
  · decide
  · assumption

/-- A word that has been read stays in the buffer. -/
theorem buf_step_ne_none {p : Copying} (ce : CopyEvent) {c : Core} {b : Histogram.Bin .blockDesign}
    (h : p.buf c b ≠ none) : (p.step histoNsamples ce).buf c b ≠ none := by
  rw [Copying.step]
  cases ce.read with
  | none => exact h
  | some cell =>
    obtain ⟨c', b'⟩ := cell
    by_cases hc : c = c'
    · subst hc
      by_cases hb : b = b'
      · simp [hb]
      · simpa [hb] using h
    · simpa [hc] using h

theorem buf_ne_none {ces : List CopyEvent} {ce : CopyEvent} {c : Core}
    {b : Histogram.Bin .blockDesign} (h : ce ∈ ces) (hread : ce.read = some (c, b)) :
    (s.copied histoNsamples ces).buf c b ≠ none := by
  induction ces using List.reverseRecOn with
  | nil => cases h
  | append_singleton ces last ih =>
    have hstep : s.copied histoNsamples (ces ++ [last]) =
        (s.copied histoNsamples ces).step histoNsamples last := run_append _ _ _ _
    rw [hstep]
    rcases List.mem_append.mp h with hce | hce
    · exact buf_step_ne_none last (ih hce)
    · rw [← List.mem_singleton.mp hce, Copying.step, hread]
      simp

/-- The memory of the first core and then that of the second one. -/
def copyAll (e : Event) : List CopyEvent :=
  [Core.hist0, .hist1].flatMap fun c =>
    (List.finRange (2 ^ 14)).map fun b => ⟨e, some (c, .ofFin b), 0⟩

theorem finished_copyAll (s : HstRun) (e : Event) :
    (s.copied histoNsamples (copyAll e)).Finished := by
  intro c b
  have hcore : c ∈ [Core.hist0, .hist1] := by cases c <;> simp
  have hread : (⟨e, some (c, b), 0⟩ : CopyEvent) ∈ copyAll e :=
    List.mem_flatMap.mpr ⟨c, hcore, List.mem_map.mpr ⟨b.toFin, List.mem_finRange _, rfl⟩⟩
  exact buf_ne_none hread rfl

/-- One sample asked for, and all samples alike. -/
theorem take_samples {x : BitVec 16} (h : ∀ e ∈ es, e.stream0.tdata = x)
    (hlen : 1 ≤ (s.samples histoNsamples es).length) :
    (s.samples histoNsamples es).take 1 = [x.setWidth 14] := by
  have hmem : ∀ b ∈ s.samples histoNsamples es, b = x.setWidth 14 := fun b hb => mem_samples h hb
  cases hs : s.samples histoNsamples es with
  | nil => simp [hs] at hlen
  | cons b bs =>
    rw [hs] at hmem
    rw [hmem b (by simp)]
    rfl

end Sampled

/-- `lago -m 3` after a first start. -/
def startThree : HstRun := .start 0x1E000000 3 (fun _ => 0) histReset histReset

/-- Both cores are offered a sample of bin 5. -/
def offered : Event := ⟨⟨true, 5, 0⟩, ⟨true, 5, 0⟩, false⟩

theorem mem_oneSample {e : Event} (he : e ∈ oneSample offered) :
    e.stream0.tvalid = true ∧ e.stream0.tdata = 5 := by
  rcases List.mem_append.mp he with he | he
  · rw [List.eq_of_mem_replicate he]
    exact ⟨rfl, rfl⟩
  · rcases List.mem_append.mp he with he | he
    · rw [List.eq_of_mem_replicate he]
      exact ⟨rfl, rfl⟩
    · rw [List.mem_singleton.mp he]
      exact ⟨rfl, rfl⟩

theorem count_five {i : ℕ} (hi : i < numWord) :
    ([(5 : BitVec 16).setWidth 14].count (BitVec.ofNat 14 i) : ℤ) = if i = 5 then 1 else 0 := by
  have hiff : BitVec.ofNat 14 i = 5 ↔ i = 5 := by
    rw [← BitVec.toNat_inj, BitVec.toNat_ofNat, Nat.mod_eq_of_lt (show i < 2 ^ 14 from hi)]
    rfl
  rw [List.count_singleton]
  split_ifs <;> simp_all

end LagoEcosystem.Acqua
