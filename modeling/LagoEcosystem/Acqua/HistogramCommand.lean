import LagoEcosystem.Acqua.Arguments
import LagoEcosystem.Acqua.Main
import LagoEcosystem.Histogram.Account

/-!
# The histogram command

The branch of `-m` beside the two histogram cores, which run on with every clock while the
program makes its accesses. The number of samples is written over the old one by an `or`,
so that the bits of the old number stay. The polling loop reads the status of the first
core only, while the second one is released by a later access and may have counted nothing.
-/

namespace LagoEcosystem.Acqua

open BitFields CLib Clocked SharedWord

/-- A `rd_reg_value` of a configuration register, and the `wr_reg_value` of the changed word. -/
structure Access where
  off : ℕ
  update : Update 32

def Access.apply (a : Access) (cfg : Cfg) : Cfg := changeReg cfg a.off a.update

def applyAll (accesses : List Access) (cfg : Cfg) : Cfg :=
  accesses.foldl (fun cfg a => a.apply cfg) cfg

/-- From the reset mode to the normal operating mode. -/
def hstProgram (histoNsamples : ℤ) : List Access :=
  let histoLimit := histoNsamples - 2
  [⟨cfgResetGralOffset, clearBits 0x20⟩, ⟨cfgResetGralOffset, clearBits 0x40⟩,
    ⟨cfgHst0Offset, setBits (BitVec.ofInt 32 (histoLimit + 1))⟩,
    ⟨cfgHst1Offset, setBits (BitVec.ofInt 32 (histoLimit + 1))⟩,
    ⟨cfgResetGralOffset, setBits 0x20⟩, ⟨cfgResetGralOffset, setBits 0x40⟩]

/-- Behind the loop. -/
def hstLeave : List Access :=
  [⟨cfgResetGralOffset, clearBits 0x20⟩, ⟨cfgResetGralOffset, clearBits 0x40⟩]

theorem getHst_eq (histoNsamples : ℤ) (cfg : Cfg) :
    getHst histoNsamples cfg = applyAll (hstProgram histoNsamples ++ hstLeave) cfg := rfl

/-! ## The program and the cores -/

/-- What arrives at a core beside the registers. -/
structure Stream where
  tvalid : Bool
  tdata : BitVec 16
  latchOnWrite : BitVec 32

def Stream.gap : Stream := ⟨false, 0, 0⟩

/-- A clock cycle. The program gets to its next step in it or not. -/
structure Event where
  stream0 : Stream
  stream1 : Stream
  steps : Bool

/-- The registers, the cores, the accesses still to be made and `histo_position`. -/
structure HstRun where
  cfg : Cfg
  hist0 : Histogram.St .blockDesign
  hist1 : Histogram.St .blockDesign
  todo : List Access
  histoPosition : ℤ

/-- The ports of a core in the block design, whose reset and limit are slices of the
configuration. -/
def histIn (cfg : Cfg) (rstBit cfgOff : ℕ) (p : Stream) : Histogram.In .blockDesign where
  aresetn := (devRead cfg cfgResetGralOffset).getLsbD rstBit
  cfgData := devRead cfg cfgOff
  sAxisTvalid := p.tvalid
  sAxisTdata := p.tdata
  latchOnWrite := p.latchOnWrite

/-- A step of the program: the next access, or a round of the loop. -/
def HstRun.software (histoNsamples : ℤ) (s : HstRun) : HstRun :=
  match s.todo with
  | a :: rest => { s with cfg := a.apply s.cfg, todo := rest }
  | [] =>
    if s.histoPosition < histoNsamples - 2 then
      { s with histoPosition := s.hist0.cntrReg.toInt }
    else s

/-- A clock cycle: the cores see the registers as they are before the program's access. -/
def HstRun.step (histoNsamples : ℤ) (s : HstRun) (e : Event) : HstRun :=
  { if e.steps then s.software histoNsamples else s with
    hist0 := Histogram.step s.hist0 (histIn s.cfg 5 cfgHst0Offset e.stream0)
    hist1 := Histogram.step s.hist1 (histIn s.cfg 6 cfgHst1Offset e.stream1) }

/-- The command as it reaches the branch. -/
def HstRun.start (devSize : BitVec 32) (histoNsamples : ℤ) (cfg : Cfg)
    (hist0 hist1 : Histogram.St .blockDesign) : HstRun :=
  ⟨startUp devSize cfg, hist0, hist1, hstProgram histoNsamples, 0⟩

/-- The loop is left. -/
def HstRun.Ended (histoNsamples : ℤ) (s : HstRun) : Prop :=
  s.todo = [] ∧ ¬s.histoPosition < histoNsamples - 2

def HstRun.after (histoNsamples : ℤ) (s : HstRun) (es : List Event) : HstRun :=
  run (HstRun.step histoNsamples) s es

/-- The registers that take the number of samples. -/
def hstOffsets : List ℕ := [cfgHst0Offset, cfgHst1Offset]

/-- What is expected of every run of the command from `s`. -/
structure HistogramLaw (histoNsamples : ℤ) (s : HstRun) : Prop where
  /-- Once the hardware is programmed, both registers hold one less than the number. -/
  programmed : ∀ es, (s.after histoNsamples es).todo = [] → ∀ off ∈ hstOffsets,
    devRead (s.after histoNsamples es).cfg off = BitVec.ofInt 32 (histoNsamples - 1)
  /-- In the cycle in which the loop ends, both cores have counted so many samples. -/
  counted : ∀ es e, ¬(s.after histoNsamples es).Ended histoNsamples →
    ((s.after histoNsamples es).step histoNsamples e).Ended histoNsamples →
    histoNsamples - 2 ≤ (s.after histoNsamples es).hist0.cntrReg.toNat ∧
      histoNsamples - 2 ≤ (s.after histoNsamples es).hist1.cntrReg.toNat

/-! ## The registers -/

section Registers

variable {histoNsamples : ℤ} {cfg : Cfg} {off : ℕ}

theorem devRead_initSystem_hst (hoff : off ∈ hstOffsets) :
    devRead (initSystem cfg) off = devRead cfg off := by
  have hne : ∀ off ∈ hstOffsets, ∀ off' ∈ [cfgTrlvl1Offset, cfgTrlvl2Offset, cfgStrlvl1Offset,
      cfgStrlvl2Offset, cfgHv1Offset, cfgHv2Offset, cfgResetGralOffset, cfgNsamplesOffset,
      cfgTrScalAOffset, cfgTrScalBOffset], word off ≠ word off' := by decide
  simp only [initSystem]
  simp (disch := exact hne _ hoff _ (by simp)) only
    [devRead_devWrite_of_ne, devRead_changeReg_of_ne]

theorem devRead_startUp_hst (devSize : BitVec 32) (hoff : off ∈ hstOffsets) :
    devRead (startUp devSize cfg) off = devRead cfg off := by
  have hne : ∀ off ∈ hstOffsets, word off ≠ word cfgWrAddrOffset := by decide
  have haddr : devRead (devWrite cfg cfgWrAddrOffset devSize) off = devRead cfg off :=
    devRead_devWrite_of_ne (hne off hoff)
  simp only [startUp]
  split_ifs
  · rw [devRead_initSystem_hst hoff, haddr]
  · exact haddr

/-- The number is written over the old one. -/
theorem devRead_hstProgram (hoff : off ∈ hstOffsets) :
    devRead (applyAll (hstProgram histoNsamples) cfg) off =
      devRead cfg off ||| BitVec.ofInt 32 (histoNsamples - 1) := by
  have hnum : histoNsamples - 2 + 1 = histoNsamples - 1 := by omega
  have hgral : ∀ off ∈ hstOffsets, word off ≠ word cfgResetGralOffset := by decide
  have hne : word cfgHst0Offset ≠ word cfgHst1Offset := by decide
  simp only [applyAll, hstProgram, List.foldl_cons, List.foldl_nil, Access.apply, hnum]
  rw [devRead_changeReg_of_ne (hgral off hoff), devRead_changeReg_of_ne (hgral off hoff)]
  rcases List.mem_pair.mp hoff with rfl | rfl
  · rw [devRead_changeReg_of_ne hne, devRead_changeReg_self,
      devRead_changeReg_of_ne (hgral _ hoff), devRead_changeReg_of_ne (hgral _ hoff)]
    rfl
  · rw [devRead_changeReg_self, devRead_changeReg_of_ne hne.symm,
      devRead_changeReg_of_ne (hgral _ hoff), devRead_changeReg_of_ne (hgral _ hoff)]
    rfl

end Registers

/-! ## Progress of the program -/

section Progress

variable (histoNsamples : ℤ) {s : HstRun} {e : Event}

theorem HstRun.after_append (es es' : List Event) :
    s.after histoNsamples (es ++ es') = (s.after histoNsamples es).after histoNsamples es' :=
  run_append _ _ _ _

/-- A step of the program in front of an access. -/
theorem step_access {a : Access} {rest : List Access} (he : e.steps = true)
    (htodo : s.todo = a :: rest) :
    (s.step histoNsamples e).todo = rest ∧ (s.step histoNsamples e).cfg = a.apply s.cfg ∧
      (s.step histoNsamples e).histoPosition = s.histoPosition := by
  simp [HstRun.step, HstRun.software, he, htodo]

/-- A round of the loop. -/
theorem step_poll (he : e.steps = true) (htodo : s.todo = []) :
    (s.step histoNsamples e).todo = [] ∧ (s.step histoNsamples e).cfg = s.cfg ∧
      (s.step histoNsamples e).histoPosition =
        if s.histoPosition < histoNsamples - 2 then s.hist0.cntrReg.toInt
        else s.histoPosition := by
  simp only [HstRun.step, HstRun.software, he, htodo, if_true]
  split_ifs <;> simp [htodo]

/-- The accesses between two states are made in their order. -/
def HstRun.Progress (s s' : HstRun) : Prop :=
  ∃ made, s.todo = made ++ s'.todo ∧ s'.cfg = applyAll made s.cfg

theorem progress_step (s : HstRun) (e : Event) : s.Progress (s.step histoNsamples e) := by
  cases he : e.steps with
  | false => exact ⟨[], by simp [HstRun.step, he], by simp [HstRun.step, he, applyAll]⟩
  | true =>
    cases htodo : s.todo with
    | cons a rest =>
      obtain ⟨hrest, hcfg, -⟩ := step_access histoNsamples he htodo
      exact ⟨[a], by rw [htodo, hrest]; rfl, hcfg⟩
    | nil =>
      obtain ⟨hrest, hcfg, -⟩ := step_poll histoNsamples he htodo
      exact ⟨[], by rw [htodo, hrest]; rfl, hcfg⟩

theorem progress_after (s : HstRun) (es : List Event) : s.Progress (s.after histoNsamples es) := by
  induction es generalizing s with
  | nil => exact ⟨[], rfl, rfl⟩
  | cons e es ih =>
    obtain ⟨made, htodo, hcfg⟩ := progress_step histoNsamples s e
    obtain ⟨made', htodo', hcfg'⟩ := ih (s.step histoNsamples e)
    refine ⟨made ++ made', ?_, ?_⟩
    · rw [htodo, htodo', List.append_assoc]
      rfl
    · rw [applyAll, List.foldl_append]
      exact hcfg'.trans (congrArg (applyAll made') hcfg)

/-- Once no access is left, the registers are those that the program makes of the old ones. -/
theorem cfg_of_programmed {es : List Event} (h : (s.after histoNsamples es).todo = []) :
    (s.after histoNsamples es).cfg = applyAll s.todo s.cfg := by
  obtain ⟨made, htodo, hcfg⟩ := progress_after histoNsamples s es
  rw [h, List.append_nil] at htodo
  rw [htodo, hcfg]

/-- A cycle without samples. -/
def Event.quiet (steps : Bool) : Event := ⟨.gap, .gap, steps⟩

/-- An access in every cycle. -/
theorem after_accesses {made rest : List Access} (he : e.steps = true)
    (htodo : s.todo = made ++ rest) :
    (s.after histoNsamples (List.replicate made.length e)).todo = rest ∧
      (s.after histoNsamples (List.replicate made.length e)).cfg = applyAll made s.cfg ∧
      (s.after histoNsamples (List.replicate made.length e)).histoPosition = s.histoPosition := by
  induction made generalizing s with
  | nil => exact ⟨htodo, rfl, rfl⟩
  | cons a made ih =>
    obtain ⟨hrest, hcfg, hpos⟩ := step_access histoNsamples he htodo
    obtain ⟨hrest', hcfg', hpos'⟩ := ih hrest
    refine ⟨hrest', hcfg'.trans ?_, hpos'.trans hpos⟩
    rw [hcfg]
    rfl

/-- The program can make its accesses. -/
theorem exists_accesses {made rest : List Access} (htodo : s.todo = made ++ rest) :
    ∃ es, (s.after histoNsamples es).todo = rest ∧
      (s.after histoNsamples es).cfg = applyAll made s.cfg ∧
      (s.after histoNsamples es).histoPosition = s.histoPosition :=
  ⟨_, after_accesses histoNsamples (e := .quiet true) rfl htodo⟩

theorem exists_programmed (s : HstRun) :
    ∃ es, (s.after histoNsamples es).todo = [] ∧
      (s.after histoNsamples es).cfg = applyAll s.todo s.cfg := by
  obtain ⟨es, htodo, hcfg, -⟩ := exists_accesses histoNsamples (List.append_nil s.todo).symm
  exact ⟨es, htodo, hcfg⟩

/-- Cycles in which the program gets to nothing. -/
theorem after_idle (s : HstRun) (m : ℕ) :
    s.after histoNsamples (List.replicate m (.quiet false)) =
      { s with
        hist0 := run Histogram.step s.hist0
          (List.replicate m (histIn s.cfg 5 cfgHst0Offset .gap))
        hist1 := run Histogram.step s.hist1
          (List.replicate m (histIn s.cfg 6 cfgHst1Offset .gap)) } := by
  induction m generalizing s with
  | zero => rfl
  | succ m ih => exact ih (s.step histoNsamples (.quiet false))

end Progress

/-! ## The second core is late -/

section Late

variable (histoNsamples : ℤ) {s : HstRun}

theorem hist0_reset (hres : (devRead s.cfg cfgResetGralOffset).getLsbD 5 = false) (e : Event) :
    ∃ bram, (s.step histoNsamples e).hist0 = .reset bram :=
  ⟨_, Histogram.step_of_reset hres⟩

theorem hist1_reset (hres : (devRead s.cfg cfgResetGralOffset).getLsbD 6 = false) (e : Event) :
    (s.step histoNsamples e).hist1.cntrReg = 0 :=
  congrArg Histogram.St.cntrReg (Histogram.step_of_reset hres)

/-- The resets of the cores before and after the first of them is released. -/
theorem resets_hstProgram (histoNsamples : ℤ) (cfg : Cfg) :
    (devRead (applyAll ((hstProgram histoNsamples).take 4) cfg) cfgResetGralOffset).getLsbD 5 =
        false ∧
    (devRead (applyAll ((hstProgram histoNsamples).take 5) cfg) cfgResetGralOffset).getLsbD 5 =
        true ∧
    (devRead (applyAll ((hstProgram histoNsamples).take 5) cfg) cfgResetGralOffset).getLsbD 6 =
        false := by
  have hne0 : word cfgResetGralOffset ≠ word cfgHst0Offset := by decide
  have hne1 : word cfgResetGralOffset ≠ word cfgHst1Offset := by decide
  have h4 : devRead (applyAll ((hstProgram histoNsamples).take 4) cfg) cfgResetGralOffset =
      (clearBits 0x40).apply ((clearBits 0x20).apply (devRead cfg cfgResetGralOffset)) := by
    simp only [hstProgram, List.take_succ_cons, List.take_zero, applyAll, List.foldl_cons,
      List.foldl_nil, Access.apply]
    rw [devRead_changeReg_of_ne hne1, devRead_changeReg_of_ne hne0, devRead_changeReg_self,
      devRead_changeReg_self]
  have h5 : devRead (applyAll ((hstProgram histoNsamples).take 5) cfg) cfgResetGralOffset =
      (setBits 0x20).apply
        (devRead (applyAll ((hstProgram histoNsamples).take 4) cfg) cfgResetGralOffset) :=
    devRead_changeReg_self _ _ _
  rw [h5, h4]
  simp only [Update.getLsbD_apply]
  refine ⟨?_, ?_, ?_⟩ <;> rfl

/-- The first core has just been released. -/
theorem exists_released (htodo : s.todo = hstProgram histoNsamples) :
    ∃ es bram, (s.after histoNsamples es).todo = (hstProgram histoNsamples).drop 5 ∧
      (s.after histoNsamples es).cfg = applyAll ((hstProgram histoNsamples).take 5) s.cfg ∧
      (s.after histoNsamples es).histoPosition = s.histoPosition ∧
      (s.after histoNsamples es).hist0 = .reset bram := by
  have hsplit : s.todo = (hstProgram histoNsamples).take 4 ++ (hstProgram histoNsamples).drop 4 :=
    htodo
  obtain ⟨es, htodo4, hcfg4, hpos4⟩ := exists_accesses histoNsamples hsplit
  have hres := (resets_hstProgram histoNsamples s.cfg).1
  rw [← hcfg4] at hres
  obtain ⟨bram, hbram⟩ := hist0_reset histoNsamples hres (.quiet true)
  obtain ⟨htodo5, hcfg5, hpos5⟩ :=
    step_access histoNsamples (e := .quiet true) rfl htodo4
  rw [hcfg4] at hcfg5
  refine ⟨es ++ [.quiet true], bram, ?_⟩
  rw [HstRun.after_append]
  exact ⟨htodo5, hcfg5, hpos5.trans hpos4, hbram⟩

/-- Without samples the core just released counts clock cycles while the program gets to
nothing. -/
theorem hist0_idle {bram : Histogram.Bram .blockDesign} {n : ℕ} (hn : n < 2 ^ 31)
    (hn1 : 1 ≤ n) (hhist : s.hist0 = .reset bram)
    (hon : (devRead s.cfg cfgResetGralOffset).getLsbD 5 = true)
    (hlimit : devRead s.cfg cfgHst0Offset = BitVec.ofNat 32 (n + 1)) :
    ((s.after histoNsamples (List.replicate (2 ^ 14 + n) (.quiet false))).step histoNsamples
      (.quiet true)).hist0.cntrReg.toNat = n := by
  set i := histIn s.cfg 5 cfgHst0Offset .gap with hi
  have hcfg : (BitVec.ofNat 32 (n + 1)).toNat = n + 1 := Nat.mod_eq_of_lt (by omega)
  have hrun : ((s.after histoNsamples (List.replicate (2 ^ 14 + n) (.quiet false))).step
      histoNsamples (.quiet true)).hist0 =
        Histogram.after bram (List.replicate (2 ^ 14 + 1 + n) i) := by
    have hlen : 2 ^ 14 + 1 + n = 2 ^ 14 + n + 1 := by omega
    rw [hlen, List.replicate_succ', Histogram.after_snoc, Histogram.after, ← hhist, after_idle]
    rfl
  rw [hrun]
  refine (Histogram.counts_gaps bram (i := i) ?_ ⟨hon, hlimit⟩ rfl ?_).2.2
  · exact (Nat.succ_le_succ hn1).trans_eq hcfg.symm
  · exact Nat.le_sub_of_add_le hcfg.ge

/-- The last access comes when the first core has counted, and the next step of the program
is a round of the loop. -/
theorem late_of_released {bram : Histogram.Bram .blockDesign} {n : ℕ} (hn : n < 2 ^ 31)
    (hn1 : 1 ≤ n) (htodo : s.todo = (hstProgram (n + 2)).drop 5) (hpos : s.histoPosition = 0)
    (hhist : s.hist0 = .reset bram)
    (hon : (devRead s.cfg cfgResetGralOffset).getLsbD 5 = true)
    (hoff : (devRead s.cfg cfgResetGralOffset).getLsbD 6 = false)
    (hlimit : devRead s.cfg cfgHst0Offset = BitVec.ofNat 32 (n + 1)) :
    ∃ t : HstRun,
      s.after (n + 2) (List.replicate (2 ^ 14 + n) (Event.quiet false) ++ [Event.quiet true]) = t ∧
      ¬t.Ended (n + 2) ∧ (t.step (n + 2) (.quiet true)).Ended (n + 2) ∧ t.hist1.cntrReg = 0 := by
  have hcount := hist0_idle (n + 2) hn hn1 hhist hon hlimit
  have hidle := after_idle (n + 2) s (2 ^ 14 + n)
  rw [HstRun.after_append]
  generalize s.after (n + 2) (List.replicate (2 ^ 14 + n) (.quiet false)) = r at *
  have htodo6 : r.todo = (hstProgram (n + 2)).drop 5 := by rw [hidle]; exact htodo
  have hpos6 : r.histoPosition = 0 := by rw [hidle]; exact hpos
  have hoff6 : (devRead r.cfg cfgResetGralOffset).getLsbD 6 = false := by rw [hidle]; exact hoff
  obtain ⟨htodo7, -, hpos7⟩ := step_access (n + 2) (e := .quiet true) rfl htodo6
  obtain ⟨htodo8, -, hpos8⟩ := step_poll (n + 2) (e := .quiet true) rfl htodo7
  have hpolls : (r.step (n + 2) (.quiet true)).histoPosition < n + 2 - 2 := by
    rw [hpos7, hpos6]
    omega
  have hsigned : 2 * n < 2 ^ 32 := by omega
  have hint : (r.step (n + 2) (.quiet true)).hist0.cntrReg.toInt = n := by
    rw [BitVec.toInt_eq_toNat_of_lt (by rw [hcount]; exact hsigned), hcount]
  rw [if_pos hpolls, hint] at hpos8
  refine ⟨_, rfl, fun hended => hended.2 hpolls, ⟨htodo8, ?_⟩, hist1_reset (n + 2) hoff6 _⟩
  rw [HstRun.after, run_cons, run_nil, hpos8]
  omega

/-- The first core counts clock cycles while the program is to release the second one. -/
theorem exists_late (hN : 3 ≤ histoNsamples) (hmax : histoNsamples ≤ 10000000)
    (htodo : s.todo = hstProgram histoNsamples) (hpos : s.histoPosition = 0)
    (hcfg : devRead (applyAll (hstProgram histoNsamples) s.cfg) cfgHst0Offset =
      BitVec.ofInt 32 (histoNsamples - 1)) :
    ∃ es e, ¬(s.after histoNsamples es).Ended histoNsamples ∧
      ((s.after histoNsamples es).step histoNsamples e).Ended histoNsamples ∧
      (s.after histoNsamples es).hist1.cntrReg = 0 := by
  obtain ⟨n, rfl⟩ : ∃ n : ℕ, histoNsamples = n + 2 := ⟨(histoNsamples - 2).toNat, by omega⟩
  obtain ⟨-, hon, hoff⟩ := resets_hstProgram (n + 2) s.cfg
  obtain ⟨es, bram, htodo5, hcfg5, hpos5, hhist5⟩ := exists_released (n + 2) htodo
  have hlimit : devRead (applyAll ((hstProgram (n + 2)).take 5) s.cfg) cfgHst0Offset =
      BitVec.ofNat 32 (n + 1) := by
    have hlast : devRead (applyAll (hstProgram (n + 2)) s.cfg) cfgHst0Offset =
        devRead (applyAll ((hstProgram (n + 2)).take 5) s.cfg) cfgHst0Offset :=
      devRead_changeReg_of_ne (by decide)
    have hint : (n + 2 - 1 : ℤ) = ((n + 1 : ℕ) : ℤ) := by omega
    rw [← hlast, hcfg, hint, BitVec.ofInt_natCast]
  rw [← hcfg5] at hon hoff hlimit
  obtain ⟨t, ht, hlate⟩ := late_of_released (by omega) (by omega) htodo5 (hpos5.trans hpos) hhist5
    hon hoff hlimit
  refine ⟨es ++ (List.replicate (2 ^ 14 + n) (Event.quiet false) ++ [Event.quiet true]),
    Event.quiet true, ?_⟩
  rw [HstRun.after_append, ht]
  exact hlate

end Late

/-! ## The core that the loop watches -/

section Watched

variable (histoNsamples : ℤ) {s : HstRun}

/-- The accesses leave `histo_position` as it is. -/
theorem position_step (htodo : s.todo ≠ []) (e : Event) :
    (s.step histoNsamples e).histoPosition = s.histoPosition := by
  obtain ⟨a, rest, hrest⟩ := List.exists_cons_of_ne_nil htodo
  cases he : e.steps with
  | false => simp [HstRun.step, he]
  | true => exact (step_access histoNsamples he hrest).2.2

/-- The loop reads the counter of the first core, and no more. -/
theorem position_poll_le (htodo : s.todo = []) (h : s.histoPosition ≤ s.hist0.cntrReg.toNat)
    (e : Event) : (s.step histoNsamples e).histoPosition ≤ s.hist0.cntrReg.toNat := by
  have hsigned := s.hist0.cntrReg.toInt_eq_toNat_cond
  cases he : e.steps with
  | false => simpa [HstRun.step, he] using h
  | true =>
    rw [(step_poll histoNsamples he htodo).2.2]
    split_ifs at hsigned ⊢ <;> omega

/-- `histo_position` is zero until the loop begins. -/
theorem position_eq_zero (hpos : s.histoPosition = 0) (es : List Event)
    (htodo : (s.after histoNsamples es).todo ≠ []) :
    (s.after histoNsamples es).histoPosition = 0 := by
  induction es generalizing s with
  | nil => exact hpos
  | cons e es ih =>
    have hs : s.todo ≠ [] := by
      intro hs
      obtain ⟨made, hmade, -⟩ := progress_after histoNsamples s (e :: es)
      rw [hs, List.nil_eq, List.append_eq_nil_iff] at hmade
      exact absurd hmade.2 htodo
    exact ih ((position_step histoNsamples hs e).trans hpos) htodo

/-- Whenever the loop ends, the core that it watches has counted the samples. -/
theorem hist0_counted (hpos : s.histoPosition = 0) {es : List Event} {e : Event}
    (h : ¬(s.after histoNsamples es).Ended histoNsamples)
    (hend : ((s.after histoNsamples es).step histoNsamples e).Ended histoNsamples) :
    histoNsamples - 2 ≤ (s.after histoNsamples es).hist0.cntrReg.toNat := by
  have hzero := position_eq_zero histoNsamples hpos es
  generalize s.after histoNsamples es = t at *
  obtain ⟨htodo', hleft⟩ := hend
  cases he : e.steps with
  | false => exact absurd ⟨by simpa [HstRun.step, he] using htodo',
      by simpa [HstRun.step, he] using hleft⟩ h
  | true =>
    cases htodo : t.todo with
    | cons a rest =>
      have hnone : t.histoPosition = 0 := hzero (by simp [htodo])
      rw [(step_access histoNsamples he htodo).2.2, hnone] at hleft
      omega
    | nil =>
      have hpolls : t.histoPosition < histoNsamples - 2 := by
        by_contra hnot
        exact h ⟨htodo, hnot⟩
      rw [(step_poll histoNsamples he htodo).2.2, if_pos hpolls] at hleft
      have hsigned := t.hist0.cntrReg.toInt_eq_toNat_cond
      split_ifs at hsigned <;> omega

end Watched

/-! ## The law -/

/-- The numbers of samples that `parse_param` lets pass. -/
theorem getHst_bounds {argv : List CString} {histoNsamples : ℤ}
    (h : parseParam argv = .ok (some (.getHst histoNsamples))) :
    0 < histoNsamples ∧ histoNsamples ≤ 10000000 := by
  have hnamed : namedAction argv = some .getHst := namedAction_of_parse h
  rw [parseParam_of_named (two_le_of_named hnamed) hnamed] at h
  simp only [parseHst] at h
  split at h
  · cases h
  · split at h
    case isTrue => cases h
    case isFalse hrange =>
      cases h
      omega

/-- The registers are programmed in every run if and only if the old numbers have no bit
that the new one lacks. -/
theorem programmed_iff (devSize : BitVec 32) (histoNsamples : ℤ) (cfg : Cfg)
    (hist0 hist1 : Histogram.St .blockDesign) :
    (∀ es, ((HstRun.start devSize histoNsamples cfg hist0 hist1).after histoNsamples es).todo = [] →
      ∀ off ∈ hstOffsets,
        devRead ((HstRun.start devSize histoNsamples cfg hist0 hist1).after histoNsamples es).cfg
          off = BitVec.ofInt 32 (histoNsamples - 1)) ↔
      ∀ off ∈ hstOffsets, ∀ k, (devRead cfg off).getLsbD k = true →
        (BitVec.ofInt 32 (histoNsamples - 1)).getLsbD k = true := by
  have hvalue (off : ℕ) (hoff : off ∈ hstOffsets) :
      devRead (applyAll (hstProgram histoNsamples) (startUp devSize cfg)) off =
        devRead cfg off ||| BitVec.ofInt 32 (histoNsamples - 1) := by
    rw [devRead_hstProgram hoff, devRead_startUp_hst devSize hoff]
  constructor
  · intro h off hoff
    obtain ⟨es, htodo, hcfg⟩ :=
      exists_programmed histoNsamples (.start devSize histoNsamples cfg hist0 hist1)
    have hoff' := h es htodo off hoff
    rw [hcfg] at hoff'
    exact or_eq_right_iff.mp ((hvalue off hoff).symm.trans hoff')
  · intro h es htodo off hoff
    rw [cfg_of_programmed histoNsamples htodo]
    exact (hvalue off hoff).trans (or_eq_right_iff.mpr (h off hoff))

/-- The command does what is expected of it, at whatever pace, if and only if its loop has
nothing to wait for and the old numbers have no bit that the new one lacks. -/
theorem histogramLaw_iff {argv : List CString} {histoNsamples : ℤ}
    (hparse : parseParam argv = .ok (some (.getHst histoNsamples))) (devSize : BitVec 32)
    (cfg : Cfg) (hist0 hist1 : Histogram.St .blockDesign) :
    HistogramLaw histoNsamples (.start devSize histoNsamples cfg hist0 hist1) ↔
      histoNsamples ≤ 2 ∧ ∀ off ∈ hstOffsets, ∀ k, (devRead cfg off).getLsbD k = true →
        (BitVec.ofInt 32 (histoNsamples - 1)).getLsbD k = true := by
  obtain ⟨hpos, hmax⟩ := getHst_bounds hparse
  have hprog := programmed_iff devSize histoNsamples cfg hist0 hist1
  constructor
  · intro law
    refine ⟨?_, hprog.mp law.programmed⟩
    by_contra hlarge
    obtain ⟨es, htodo, hcfg⟩ :=
      exists_programmed histoNsamples (.start devSize histoNsamples cfg hist0 hist1)
    have hlimit := law.programmed es htodo cfgHst0Offset (by decide)
    rw [hcfg] at hlimit
    obtain ⟨es', e, hbefore, hend, hnone⟩ :=
      exists_late histoNsamples (by omega) hmax rfl rfl hlimit
    have hcounted := (law.counted es' e hbefore hend).2
    rw [hnone] at hcounted
    have hzero : histoNsamples - 2 ≤ 0 := hcounted
    omega
  · rintro ⟨hsmall, hbits⟩
    refine ⟨hprog.mpr hbits, fun es e _ _ => ⟨?_, ?_⟩⟩
    · exact (by omega : histoNsamples - 2 ≤ 0).trans (Int.natCast_nonneg _)
    · exact (by omega : histoNsamples - 2 ≤ 0).trans (Int.natCast_nonneg _)

/-- A core as it comes out of the configuration of the device. -/
def histReset : Histogram.St .blockDesign := .reset ⟨fun _ => 0, 0, 0⟩

/-- `lago -m 2` after a first start. -/
theorem histogramLaw_two :
    HistogramLaw 2 (.start 0x1E000000 2 (fun _ => 0) histReset histReset) :=
  (histogramLaw_iff (show parseParam [text "lago", text "-m", text "2"] = _ from by decide)
    0x1E000000 (fun _ => 0) histReset histReset).mpr ⟨le_rfl, fun _ _ k hk => by
      rw [devRead, BitVec.ofNat_eq_ofNat, BitVec.getLsbD_zero] at hk
      contradiction⟩

/-- `lago -m 8` behind a `lago -m 16`: the registers stay at 15. -/
theorem second_histogram_wrong :
    parseParam [text "lago", text "-m", text "8"] = .ok (some (.getHst 8)) ∧
      ¬HistogramLaw 8 (.start 0x1E000000 8 (getHst 16 acquiring) histReset histReset) := by
  refine ⟨by decide, fun law => ?_⟩
  have hbits := (programmed_iff 0x1E000000 8 (getHst 16 acquiring) histReset histReset).mp
    law.programmed cfgHst0Offset (by decide) 3 (by decide)
  exact absurd hbits (by decide)

end LagoEcosystem.Acqua
