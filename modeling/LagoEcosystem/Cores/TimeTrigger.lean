import LagoEcosystem.CfgRegister.Store
import LagoEcosystem.Library.Pulses

/-!
# The time trigger

`time_trig_gen` makes a pulse whenever its counter has reached the configured value, and
`axi_time_trig_gen` takes this value and an enable bit from a configuration register on another
clock, through two registers of a synchroniser. The counter of the second core is wider than the
value it is compared with; otherwise the timers are the same.
-/

namespace LagoEcosystem.TimeTrigger

open BitFields Clocked Pulses

/-! ## The timer -/

/-- The registers behind the reset, with a counter of `w` bits. -/
structure Timer (w : ℕ) where
  cntrReg : BitVec w
  trigReg : Bool
  compReg : Bool

variable {w : ℕ}

def Timer.reset : Timer w := ⟨0, false, false⟩

/-- The value at which the counter ends: a difference of 32 bits, so that 0 stands for `2 ^ 32`. -/
def last (cfgData : BitVec 32) : ℕ := (cfgData - 1).toNat

def Timer.compNext (t : Timer w) (cfgData : BitVec 32) : Bool :=
  if t.cntrReg.toNat = last cfgData then false else true

def Timer.cntrNext (t : Timer w) : BitVec w := if t.compReg then t.cntrReg + 1 else 0

def Timer.trigNext (t : Timer w) (cfgData : BitVec 32) : Bool :=
  if t.cntrReg.toNat = last cfgData then true else false

/-- A clock edge with the value of the reset. -/
def Timer.step (t : Timer w) (rstn : Bool) (cfgData : BitVec 32) : Timer w :=
  if rstn then ⟨t.cntrNext, t.trigNext cfgData, t.compNext cfgData⟩ else .reset

/-- The cycles from one pulse to the next. One is spent on taking the counter back; with the value
1 the counter never leaves zero. -/
def period (cfgData : BitVec 32) : ℕ := if last cfgData = 0 then 1 else last cfgData + 2

theorem period_pos (cfgData : BitVec 32) : 0 < period cfgData := by
  unfold period
  split <;> omega

theorem period_eq {cfgData : BitVec 32} (h : 2 ≤ cfgData.toNat) :
    period cfgData = cfgData.toNat + 1 := by
  have hlast : last cfgData = cfgData.toNat - 1 := toNat_sub_one (by omega)
  rw [period, hlast, if_neg (by omega)]
  omega

/-- The registers `m` cycles into a period. -/
structure Timer.At (t : Timer w) (cfgData : BitVec 32) (m : ℕ) : Prop where
  cntr : t.cntrReg.toNat = m % 2 ^ w
  trig : t.trigReg = decide (m + 1 = period cfgData)
  comp : t.compReg = decide (m + 1 ≠ period cfgData)

variable {t : Timer w} {cfgData : BitVec 32}

theorem Timer.at_first : (Timer.reset.step true cfgData : Timer w).At cfgData 0 := by
  have hzero : (0 : BitVec w).toNat = 0 := BitVec.toNat_zero
  refine ⟨rfl, ?_, ?_⟩
  · simp only [Timer.step, Timer.trigNext, Timer.reset, period, hzero]
    grind
  · simp only [Timer.step, Timer.compNext, Timer.reset, period, hzero]
    grind

/-- The counter is wide enough for the value it is compared with. -/
theorem last_lt (hw : 32 ≤ w) (cfgData : BitVec 32) : last cfgData < 2 ^ w :=
  Nat.lt_of_lt_of_le (cfgData - 1).isLt (Nat.pow_le_pow_right (by decide) hw)

theorem Timer.At.next {m : ℕ} (hw : 32 ≤ w) (h : t.At cfgData m) (hm : m < period cfgData) :
    (t.step true cfgData).At cfgData (if m + 1 = period cfgData then 0 else m + 1) := by
  have hlast := last_lt hw cfgData
  have hpos : 0 < 2 ^ w := Nat.two_pow_pos w
  by_cases hone : last cfgData = 0
  case pos =>
    -- the counter stays at zero and the pulse does not end
    have hperiod : period cfgData = 1 := by rw [period, if_pos hone]
    obtain rfl : m = 0 := by omega
    have hcntr : t.cntrReg.toNat = last cfgData := by rw [h.cntr, hone, Nat.zero_mod]
    have hcomp : t.compReg = false := by rw [h.comp, hperiod]; rfl
    rw [hperiod, if_pos rfl]
    refine ⟨?_, ?_, ?_⟩
    · simp [Timer.step, Timer.cntrNext, hcomp]
    · simp [Timer.step, Timer.trigNext, hcntr, hperiod]
    · simp [Timer.step, Timer.compNext, hcntr, hperiod]
  case neg =>
    have hperiod : period cfgData = last cfgData + 2 := by rw [period, if_neg hone]
    have hreached : t.cntrReg.toNat = last cfgData ↔ m = last cfgData := by
      rw [h.cntr]
      rcases Nat.lt_or_ge m (2 ^ w) with hlt | hge
      · rw [Nat.mod_eq_of_lt hlt]
      · -- the counter has wrapped, which takes it to zero
        have hwrap : m = 2 ^ w := by omega
        rw [hwrap, Nat.mod_self]
        omega
    refine ⟨?_, ?_, ?_⟩
    · show t.cntrNext.toNat = _
      rw [Timer.cntrNext, h.comp]
      by_cases hend : m + 1 = period cfgData
      · simp [hend]
      · have hadd : (t.cntrReg + 1).toNat = (m + 1) % 2 ^ w := by
          rw [BitVec.toNat_add, h.cntr]
          simp
        rw [if_pos (decide_eq_true hend), if_neg hend, hadd]
    · show t.trigNext cfgData = _
      rw [Timer.trigNext, hperiod]
      grind
    · show t.compNext cfgData = _
      rw [Timer.compNext, hperiod]
      grind

theorem Timer.at_run (hw : 32 ≤ w) (cfgData : BitVec 32) (n : ℕ) :
    (run (fun t : Timer w => fun c => t.step true c) .reset
      (List.replicate (n + 1) cfgData)).At cfgData (n % period cfgData) := by
  induction n with
  | zero => simpa using Timer.at_first
  | succ n ih =>
    rw [List.replicate_succ', run_append, succ_mod_eq (period_pos cfgData)]
    have hpos := period_pos cfgData
    have hnext := ih.next hw (Nat.mod_lt n hpos)
    have hend : n % period cfgData + 1 = period cfgData ↔
        n % period cfgData = period cfgData - 1 := by omega
    simpa only [hend, run_cons, run_nil] using hnext

/-- `n` cycles after the reset the pulse is there if a whole number of periods has passed. -/
theorem Timer.trigReg_run (hw : 32 ≤ w) (cfgData : BitVec 32) (n : ℕ) :
    (run (fun t : Timer w => fun c => t.step true c) .reset (List.replicate n cfgData)).trigReg =
      decide (0 < n ∧ period cfgData ∣ n) := by
  cases n with
  | zero => rfl
  | succ n =>
    have hpos := period_pos cfgData
    rw [(Timer.at_run hw cfgData n).trig]
    have hdvd := dvd_succ_iff hpos n
    rw [decide_eq_decide]
    omega

/-! ## The core with a configuration register -/

/-- The width of the address; `CFG_DATA_WIDTH` is 64, its default. -/
structure Generics where
  axiAddrWidth : ℕ
  fits : 3 ≤ axiAddrWidth

def Generics.default : Generics := ⟨32, by decide⟩

variable {g : Generics}

def Generics.cfg (g : Generics) : CfgRegister.Generics where
  cfgDataWidth := 64
  axiAddrWidth := g.axiAddrWidth
  fits := le_trans (by decide) g.fits

theorem Generics.cfgSize_cfg (g : Generics) : g.cfg.cfgSize = 2 := by
  simp [CfgRegister.Generics.cfgSize, CfgRegister.axiDataWidth, cfg]

/-- The output of the configuration register. -/
def cfgDataS (cfg : CfgRegister.St g.cfg) : BitVec 64 :=
  cfg.intDataWire ⟨1, g.cfgSize_cfg ▸ Nat.one_lt_two⟩ ++
    cfg.intDataWire ⟨0, g.cfgSize_cfg ▸ Nat.two_pos⟩

/-- The register of the configuration, the synchroniser and the timer. -/
structure St (g : Generics) where
  cfgI : CfgRegister.St g.cfg
  fifoS0 : BitVec 64
  fifoS1 : BitVec 64
  timer : Timer 64

/-- An edge of one of the two clocks. -/
inductive Event (g : Generics) where
  | sAxiAclk (i : CfgRegister.In g.cfg)
  | dataClk

def cfgDataComp (cfgData : BitVec 64) : BitVec 32 := cfgData.setWidth 32

def step (s : St g) : Event g → St g
  | .sAxiAclk i => { s with cfgI := CfgRegister.step s.cfgI i }
  | .dataClk => { s with
      fifoS0 := cfgDataS s.cfgI
      fifoS1 := s.fifoS0
      timer := s.timer.step (s.fifoS1.getLsbD 32) (cfgDataComp s.fifoS1) }

def St.trigO (s : St g) : Bool := s.timer.trigReg

/-- The edges of the clock of the timer. -/
def dataEdges (es : List (Event g)) : ℕ :=
  es.countP fun
    | .dataClk => true
    | .sAxiAclk _ => false

/-- The enable bit, where the processor writes it. -/
def St.enabled (s : St g) : Bool := (cfgDataS s.cfgI).getLsbD 32

/-- The processor leaves the register alone. -/
def Event.keeps : Event g → Prop
  | .sAxiAclk i => i.aresetn = true ∧ i.intWvalidWire = false
  | .dataClk => True

instance : DecidablePred (Event.keeps (g := g))
  | .sAxiAclk _ => inferInstanceAs (Decidable (_ ∧ _))
  | .dataClk => inferInstanceAs (Decidable True)

theorem dataNext_of_keeps {c : CfgRegister.St g.cfg} {i : CfgRegister.In g.cfg}
    (hc : c.resetS = false) (hi : i.intWvalidWire = false) (j : Fin g.cfg.cfgSize) :
    c.dataNext i j = c.intDataWire j := by
  refine BitVec.eq_of_getLsbD_eq fun k hk => ?_
  have hbit := getLsbD_ofBits (fun k : Fin 32 => CfgRegister.fdre ((c.intDataWire j).getLsbD k)
    (i.tmpS1 j k) c.resetS (i.sAxiWdata.getLsbD k)) ⟨k, hk⟩
  rw [CfgRegister.St.dataNext, hbit]
  simp [CfgRegister.fdre, CfgRegister.In.tmpS1, CfgRegister.In.intCeWire, hc, hi]

/-! ### Switched off -/

/-- After `n` edges with the enable bit low, so much of the core is in reset. -/
structure Off (s : St g) (n : ℕ) : Prop where
  fifoS0 : 1 ≤ n → s.fifoS0.getLsbD 32 = false
  fifoS1 : 2 ≤ n → s.fifoS1.getLsbD 32 = false
  timer : 3 ≤ n → s.timer = .reset

theorem Off.step {s : St g} {n : ℕ} (h : Off s n) (hs : s.enabled = false) (e : Event g) :
    Off (TimeTrigger.step s e) (n + dataEdges [e]) := by
  cases e with
  | sAxiAclk i => exact ⟨h.fifoS0, h.fifoS1, h.timer⟩
  | dataClk =>
    have hone : dataEdges [(.dataClk : Event g)] = 1 := rfl
    rw [hone]
    refine ⟨fun _ => hs, fun hn => h.fifoS0 (by omega), fun hn => ?_⟩
    show s.timer.step (s.fifoS1.getLsbD 32) _ = _
    rw [h.fifoS1 (by omega)]
    rfl

theorem off_run {s : St g} {es : List (Event g)}
    (h : Along step (fun s _ => s.enabled = false) s es) : Off (run step s es) (dataEdges es) := by
  refine h.induction_on_past (P := fun es => Off (run step s es) (dataEdges es)) ?_ ?_
  · exact ⟨fun h => absurd h (Nat.not_succ_le_zero _), fun h => absurd h (Nat.not_succ_le_zero _),
      fun h => absurd h (Nat.not_succ_le_zero _)⟩
  · intro es e _ hoff hs
    rw [run_append, dataEdges, List.countP_append]
    exact hoff.step hs e

/-! ### Switched on -/

/-- `n` edges after the enable bit: the configuration passes the synchroniser in two of them, and
the timer runs in the others. -/
structure On (cfgData : BitVec 64) (s : St g) (n : ℕ) : Prop where
  running : s.cfgI.resetS = false
  cfg : cfgDataS s.cfgI = cfgData
  fifoS0 : if n < 1 then s.fifoS0.getLsbD 32 = false else s.fifoS0 = cfgData
  fifoS1 : if n < 2 then s.fifoS1.getLsbD 32 = false else s.fifoS1 = cfgData
  timer : s.timer = run (fun t c => t.step true c) .reset
    (List.replicate (n - 2) (cfgDataComp cfgData))

theorem On.step {cfgData : BitVec 64} {s : St g} {n : ℕ} (h : On cfgData s n)
    (hon : cfgData.getLsbD 32 = true) {e : Event g} (he : e.keeps) :
    On cfgData (TimeTrigger.step s e) (n + dataEdges [e]) := by
  cases e with
  | sAxiAclk i =>
    obtain ⟨hres, hwv⟩ := he
    refine ⟨by simp [TimeTrigger.step, CfgRegister.step, hres], ?_, h.fifoS0, h.fifoS1, h.timer⟩
    rw [← h.cfg]
    exact congrArg₂ (· ++ ·) (dataNext_of_keeps h.running hwv _) (dataNext_of_keeps h.running hwv _)
  | dataClk =>
    have hone : dataEdges [(.dataClk : Event g)] = 1 := rfl
    have hfifo := h.fifoS0
    have hsync := h.fifoS1
    rw [hone]
    refine ⟨h.running, h.cfg, ?_, ?_, ?_⟩
    · rw [if_neg (by omega)]
      exact h.cfg
    · by_cases hn : n < 1
      · rw [if_pos hn] at hfifo
        rwa [if_pos (by omega)]
      · rw [if_neg hn] at hfifo
        rwa [if_neg (by omega)]
    · show s.timer.step _ _ = _
      by_cases hn : n < 2
      · have hnone : n + 1 - 2 = 0 := by omega
        rw [if_pos hn] at hsync
        rw [hsync, hnone]
        rfl
      · have hsucc : n + 1 - 2 = n - 2 + 1 := by omega
        rw [if_neg hn] at hsync
        rw [hsync, hon, h.timer, hsucc, List.replicate_succ', run_append]
        rfl

theorem on_run {cfgData : BitVec 64} {s : St g} (h : On cfgData s 0)
    (hon : cfgData.getLsbD 32 = true) {es : List (Event g)} (hes : ∀ e ∈ es, e.keeps) :
    On cfgData (run step s es) (dataEdges es) := by
  have halong := along_of_forall step s hes
  refine halong.induction_on_past (P := fun es => On cfgData (run step s es) (dataEdges es)) h ?_
  intro es e _ hrun he
  rw [run_append, dataEdges, List.countP_append]
  exact hrun.step hon he

/-- The core is switched off for three edges of its clock, in which the processor may write what
it likes otherwise, and then on. From then on the trigger has its period, counted from the second
edge, however the two clocks run. -/
theorem trigO_iff (s : St g) (off : List (Event g)) (i : CfgRegister.In g.cfg)
    (es : List (Event g))
    (hoff : Along step (fun s _ => s.enabled = false) s (off ++ [.sAxiAclk i]))
    (h3 : 3 ≤ dataEdges off) (hi : i.aresetn = true)
    (hon : (run step s (off ++ [.sAxiAclk i])).enabled = true) (hes : ∀ e ∈ es, e.keeps) :
    (run step s (off ++ .sAxiAclk i :: es)).trigO = true ↔
      2 < dataEdges es ∧
        period (cfgDataComp (cfgDataS (run step s (off ++ [.sAxiAclk i])).cfgI)) ∣
          dataEdges es - 2 := by
  obtain ⟨hbefore, -⟩ := (along_append _ _ s off [.sAxiAclk i]).mp hoff
  have hcleared := off_run hbefore
  have hstart : On (cfgDataS (run step s (off ++ [.sAxiAclk i])).cfgI)
      (run step s (off ++ [.sAxiAclk i])) 0 := by
    rw [run_append]
    refine ⟨?_, rfl, ?_, ?_, ?_⟩
    · simp [step, CfgRegister.step, hi]
    · rw [if_pos (by decide)]
      exact hcleared.fifoS0 (by omega)
    · rw [if_pos (by decide)]
      exact hcleared.fifoS1 (by omega)
    · exact hcleared.timer h3
  have hend := (on_run hstart hon hes).timer
  rw [List.append_cons, run_append, St.trigO, hend, Timer.trigReg_run (by decide)]
  simp

/-! An edge of the clock of the processor with a write, and one without a request. -/

def writeIn (addr data : BitVec 32) : CfgRegister.In (Generics.cfg .default) where
  aresetn := true
  sAxiAwaddr := addr
  sAxiAwvalid := true
  sAxiWdata := data
  sAxiWstrb := 0b1111
  sAxiWvalid := true
  sAxiBready := true
  sAxiAraddr := 0
  sAxiArvalid := false
  sAxiRready := true
  muxOutside := 0

def Event.quiet : Event .default :=
  .sAxiAclk { writeIn 0 0 with sAxiAwvalid := false, sAxiWvalid := false }

/-- The value 3 is written, then the enable bit: the first pulse comes two cycles and a period of
four later. -/
theorem trigO_iff_periodFour : (run step
    (⟨.reset fun _ => 0, 0, 0, ⟨77, true, true⟩⟩ : St .default)
    ([.quiet, .dataClk, .dataClk, .dataClk, .sAxiAclk (writeIn 0 3)] ++ .sAxiAclk (writeIn 4 1) ::
      [.dataClk, .dataClk, .quiet, .dataClk, .dataClk, .dataClk, .dataClk])).trigO = true :=
  (trigO_iff _ _ (writeIn 4 1) _ (by decide +kernel) (by decide) (by decide) (by decide +kernel)
    (by decide)).mpr ⟨by decide, by decide +kernel⟩

end LagoEcosystem.TimeTrigger
