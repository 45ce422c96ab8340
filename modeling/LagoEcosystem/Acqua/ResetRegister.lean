import LagoEcosystem.Acqua.Main
import Mathlib.Data.Finset.Insert

/-!
# The shared reset register

An acquisition and the histogram command run as two processes. Both find the register
`CFG_RESET_GRAL` through their own mappings and change single bits of it by a `dev_read` and
a `dev_write` of the whole word. No lock is held in between. A bit is safe from the other
process only while nobody writes it between a read and the write that belongs to it.
-/

namespace LagoEcosystem.Acqua

open Clocked SharedWord

inductive Party where
  | acquirer
  | histogrammer
  deriving DecidableEq

instance : Fintype Party := ⟨{.acquirer, .histogrammer}, fun p => by cases p <;> decide⟩

/-- The changes that `init_system` makes to the register. -/
def initSystemResets : List (Update 32) :=
  [clearBits 8, clearBits 1, clearBits 4, clearBits 2, setBits fgpsEnMask, setBits 8,
    setBits 0x800]

def acquireResets : List (Update 32) :=
  [setBits 2, setBits 1, setBits 4, clearBits 1, clearBits 4, clearBits 2]

def getHstResets : List (Update 32) :=
  [clearBits 0x20, clearBits 0x40, setBits 0x20, setBits 0x40, clearBits 0x20, clearBits 0x40]

/-- The start looks whether the register is zero, and then initializes the system. -/
def startUpProgram (branch : Program 32) : Program 32 :=
  .look fun resetGral => if resetGral = 0 then .updates initSystemResets branch else branch

/-- The accesses to the register, from the start of `main` to its end. The look that the
first `read_buffer` takes at the GPS bit is left out: nothing here depends on it. -/
def lago : Party → Program 32
  | .acquirer => startUpProgram (.updates acquireResets .done)
  | .histogrammer => startUpProgram (.updates getHstResets .done)

/-! ## The programs are those of `main` -/

section Alone

variable (cfg : Cfg)

theorem devRead_initSystem : devRead (initSystem cfg) cfgResetGralOffset =
    initSystemResets.foldl (fun v u => u.apply v) (devRead cfg cfgResetGralOffset) := by
  have hne : ∀ off ∈ [cfgTrlvl1Offset, cfgTrlvl2Offset, cfgStrlvl1Offset, cfgStrlvl2Offset,
      cfgHv1Offset, cfgHv2Offset, cfgNsamplesOffset, cfgTrScalAOffset, cfgTrScalBOffset],
      word cfgResetGralOffset ≠ word off := by decide
  simp only [initSystem, devRead_changeReg_self]
  simp (disch := exact hne _ (by simp)) only [devRead_devWrite_of_ne, devRead_changeReg_self]
  rfl

theorem devRead_acquire : devRead (acquire cfg) cfgResetGralOffset =
    acquireResets.foldl (fun v u => u.apply v) (devRead cfg cfgResetGralOffset) := by
  simp only [acquire, devRead_changeReg_self]
  rfl

theorem devRead_getHst (histoNsamples : ℤ) : devRead (getHst histoNsamples cfg) cfgResetGralOffset =
    getHstResets.foldl (fun v u => u.apply v) (devRead cfg cfgResetGralOffset) := by
  simp only [getHst, devRead_changeReg_self]
  rw [devRead_changeReg_of_ne (by decide), devRead_changeReg_of_ne (by decide)]
  simp only [devRead_changeReg_self]
  rfl

theorem startUpProgram_alone (devSize : BitVec 32) (branch : Program 32) :
    (startUpProgram branch).alone (devRead cfg cfgResetGralOffset) =
      branch.alone (devRead (startUp devSize cfg) cfgResetGralOffset) := by
  have hread : devRead (devWrite cfg cfgWrAddrOffset devSize) cfgResetGralOffset =
      devRead cfg cfgResetGralOffset := devRead_devWrite_of_ne (by decide)
  simp only [startUpProgram, Program.alone, startUp, hread]
  by_cases h : devRead cfg cfgResetGralOffset = 0
  · rw [if_pos h, if_pos h, Program.alone_updates, devRead_initSystem, hread]
  · rw [if_neg h, if_neg h, hread]

/-- A process that runs alone leaves in the register what `main` leaves there. -/
theorem exists_run_lago (devSize : BitVec 32) (histoNsamples : ℤ) :
    let s := start (devRead cfg cfgResetGralOffset) lago
    (∃ n, (run step s (List.replicate n .acquirer)).word =
        devRead (acquire (startUp devSize cfg)) cfgResetGralOffset) ∧
      ∃ n, (run step s (List.replicate n .histogrammer)).word =
        devRead (getHst histoNsamples (startUp devSize cfg)) cfgResetGralOffset := by
  intro s
  constructor
  · obtain ⟨n, hn, -⟩ := exists_run_alone (lago .acquirer) (s := s) rfl
    refine ⟨n, hn.trans ?_⟩
    have hstart := startUpProgram_alone cfg devSize (.updates acquireResets .done)
    rw [Program.alone_updates, ← devRead_acquire] at hstart
    exact hstart
  · obtain ⟨n, hn, -⟩ := exists_run_alone (lago .histogrammer) (s := s) rfl
    refine ⟨n, hn.trans ?_⟩
    have hstart := startUpProgram_alone cfg devSize (.updates getHstResets .done)
    rw [Program.alone_updates, ← devRead_getHst _ histoNsamples] at hstart
    exact hstart

end Alone

/-! ## Both processes -/

/-- In every interleaving, at every moment, a bit has the value last intended for it if no
write of the bit fell between a read and the write that belongs to it. -/
theorem resetGral_lastIntended (resetGral : BitVec 32) (b : ℕ) (schedule : List Party)
    (h : Along step (Undisturbed b) (start resetGral lago) schedule) :
    (run step (start resetGral lago) schedule).word.getLsbD b =
      lastIntended b (resetGral.getLsbD b)
        (collect step written (start resetGral lago) schedule) :=
  getLsbD_word h

/-- One process after the other. -/
def inTurn : List Party := List.replicate 13 Party.acquirer ++ List.replicate 13 Party.histogrammer

theorem resetGral_lastIntended_inTurn :
    (run step (start 0x818 lago) inTurn).word.getLsbD 5 =
      lastIntended 5 ((0x818#32).getLsbD 5) (collect step written (start 0x818 lago) inTurn) :=
  resetGral_lastIntended 0x818 5 inTurn (by decide +kernel)

/-- The acquisition ends while the histogram command is about to write. -/
def lostStop : List Party :=
  List.replicate 11 Party.acquirer ++ List.replicate 12 Party.histogrammer ++
    [Party.acquirer, Party.acquirer] ++ [Party.histogrammer]

/-- Both processes end, and bit 1 is set although it was cleared last. -/
theorem lostStop_loses :
    (∀ p, ((run step (start 0x818 lago) lostStop).processes p).isDone) ∧
      (run step (start 0x818 lago) lostStop).word.getLsbD 1 ≠
        lastIntended 1 ((0x818#32).getLsbD 1)
          (collect step written (start 0x818 lago) lostStop) := by
  decide +kernel

end LagoEcosystem.Acqua
