import LagoEcosystem.Acqua.Commands
import LagoEcosystem.Library.FixedPoint
import LagoEcosystem.Library.SharedWord

/-!
# Commands and the configuration registers

`main` as far as it reaches the configuration registers: the start that all commands have
in common, and the branch of each. Whatever the command, the start makes the RAM writer use
the memory that this very process got from the CMA driver. So a command that is only to
look at the system, or to set another register, redirects the writer of an acquisition.
-/

namespace LagoEcosystem.Acqua

open CLib FixedPoint SharedWord

/-- A word access through the mapped page of a device. -/
def mapped (regOff : BitVec 32) : Bool := regOff.toNat < 4096 ∧ regOff.toNat % 4 = 0

/-- `rd_reg_value`, whose result is only printed here. -/
def rdRegValue (_nDev : Device) (regOff : BitVec 32) : Except Halt Unit :=
  if mapped regOff then .ok () else .error .undefined

/-- `wr_reg_value`, of which the other devices do not reach the configuration registers. -/
def wrRegValue (nDev : Device) (regOff regVal : BitVec 32) (cfg : Cfg) : Except Halt Cfg :=
  if mapped regOff then
    match nDev with
    | .cfg => .ok (devWrite cfg regOff.toNat regVal)
    | .intc | .sts | .xadc => .ok cfg
  else .error .undefined

/-- A `dev_read` followed by a `dev_write` of the changed word. -/
def changeReg (cfg : Cfg) (off : ℕ) (u : Update 32) : Cfg :=
  devWrite cfg off (u.apply (devRead cfg off))

@[simp] theorem devRead_changeReg_self (cfg : Cfg) (off : ℕ) (u : Update 32) :
    devRead (changeReg cfg off u) off = u.apply (devRead cfg off) :=
  devRead_devWrite_self _ _ _

theorem devRead_changeReg_of_ne {cfg : Cfg} {off off' : ℕ} {u : Update 32}
    (h : word off' ≠ word off) : devRead (changeReg cfg off u) off' = devRead cfg off' :=
  devRead_devWrite_of_ne h

/-- The conversion of a floating-point number to `uint32_t`. -/
def toUInt32 (x : ℚ) : Except Halt (BitVec 32) :=
  if -1 < x ∧ x < 2 ^ 32 then .ok (BitVec.ofInt 32 (truncate x)) else .error .undefined

/-- `set_voltage`, with exact numbers for those it has in `float`. -/
def setVoltage (offset : ℕ) (value : ℤ) (cfg : Cfg) : Except Halt Cfg := do
  let a : ℚ := 0.0882006
  let b : ℚ := 7.73516
  let operand ← toUInt32 (value - b)
  let dacVal ← toUInt32 (operand.toNat / a)
  return devWrite cfg offset dacVal

def fgpsEnMask : BitVec 32 := 0x00000010

/-- `init_system`. -/
def initSystem (cfg : Cfg) : Cfg :=
  let cfg := devWrite cfg cfgTrlvl1Offset 8190
  let cfg := devWrite cfg cfgTrlvl2Offset 8190
  let cfg := devWrite cfg cfgStrlvl1Offset 8190
  let cfg := devWrite cfg cfgStrlvl2Offset 8190
  let cfg := devWrite cfg cfgHv1Offset 0
  let cfg := devWrite cfg cfgHv2Offset 0
  let cfg := changeReg cfg cfgResetGralOffset (clearBits 8)
  let cfg := changeReg cfg cfgResetGralOffset (clearBits 1)
  let cfg := changeReg cfg cfgResetGralOffset (clearBits 4)
  let cfg := changeReg cfg cfgResetGralOffset (clearBits 2)
  let cfg := devWrite cfg cfgNsamplesOffset (1024 * 1024)
  let cfg := devWrite cfg cfgTrScalAOffset 1
  let cfg := devWrite cfg cfgTrScalBOffset 1
  let cfg := changeReg cfg cfgResetGralOffset (setBits fgpsEnMask)
  let cfg := changeReg cfg cfgResetGralOffset (setBits 8)
  changeReg cfg cfgResetGralOffset (setBits 0x800)

/-- The branch of `-m`, once its polling loop has ended. -/
def getHst (histoNsamples : ℤ) (cfg : Cfg) : Cfg :=
  let histoLimit := histoNsamples - 2
  let cfg := changeReg cfg cfgResetGralOffset (clearBits 0x20)
  let cfg := changeReg cfg cfgResetGralOffset (clearBits 0x40)
  let cfg := changeReg cfg cfgHst0Offset (setBits (BitVec.ofInt 32 (histoLimit + 1)))
  let cfg := changeReg cfg cfgHst1Offset (setBits (BitVec.ofInt 32 (histoLimit + 1)))
  let cfg := changeReg cfg cfgResetGralOffset (setBits 0x20)
  let cfg := changeReg cfg cfgResetGralOffset (setBits 0x40)
  let cfg := changeReg cfg cfgResetGralOffset (clearBits 0x20)
  changeReg cfg cfgResetGralOffset (clearBits 0x40)

/-- The branch of `-f` and `-o`, once it was interrupted. -/
def acquire (cfg : Cfg) : Cfg :=
  let cfg := changeReg cfg cfgResetGralOffset (setBits 2)
  let cfg := changeReg cfg cfgResetGralOffset (setBits 1)
  let cfg := changeReg cfg cfgResetGralOffset (setBits 4)
  let cfg := changeReg cfg cfgResetGralOffset (clearBits 1)
  let cfg := changeReg cfg cfgResetGralOffset (clearBits 4)
  changeReg cfg cfgResetGralOffset (clearBits 2)

/-- The branch that `main` takes for a command. -/
def perform (command : Command) (cfg : Cfg) : Except Halt Cfg :=
  match command with
  | .readReg nDev regOff => do
    rdRegValue nDev regOff
    return cfg
  | .writeReg nDev regOff regVal => wrRegValue nDev regOff regVal cfg
  | .setCfgReg regOff charRegValue fRegValue =>
    if fRegValue then setVoltage regOff (atoi charRegValue) cfg
    else .ok (devWrite cfg regOff (BitVec.ofInt 32 (atoi charRegValue)))
  | .getCfgStatus | .getPT | .getGPS | .getXADC => .ok cfg
  | .initSystem => .ok (initSystem cfg)
  | .getHst histoNsamples => .ok (getHst histoNsamples cfg)
  | .toFile _ | .toStdout => .ok (acquire cfg)

/-- What `main` does before the branches. `devSize` is the physical address that `cma_init`
got from the driver. -/
def startUp (devSize : BitVec 32) (cfg : Cfg) : Cfg :=
  let cfg := devWrite cfg cfgWrAddrOffset devSize
  if devRead cfg cfgResetGralOffset = 0 then initSystem cfg else cfg

/-- `main`: its return value, and what it leaves in the registers. -/
def main (devSize : BitVec 32) (argv : List CString) (cfg : Cfg) : Except Halt (ℕ × Cfg) := do
  match ← parseParam argv with
  | none => return (1, cfg)
  | some command => return (0, ← perform command (startUp devSize cfg))

/-! ## What a command changes -/

/-- The configuration register that a command names. -/
def Command.named : Command → Option (Fin 32)
  | .writeReg .cfg regOff _ => some (word regOff.toNat)
  | .setCfgReg regOff _ _ => some (word regOff)
  | _ => none

/-- The parameters of the actions that look at the system or set a single register. -/
def monitoringActions : List CString := ["-a", "-r", "-w", "-s", "-t", "-g", "-x"].map text

def Action.monitors : Action → Bool
  | .getCfgStatus | .readReg | .writeReg | .setCfgReg | .getPT | .getGPS | .getXADC => true
  | .showVersion | .toFile | .toStdout | .initSystem | .getHst => false

/-- The command changes no register that it does not name, and the RAM writer keeps its base
address. -/
structure LeavesAcquisition (command : Command) (cfg cfg' : Cfg) : Prop where
  frame : ∀ r, command.named ≠ some r → cfg' r = cfg r
  base : devRead cfg' cfgWrAddrOffset = devRead cfg cfgWrAddrOffset

theorem actionOf_monitors :
    ∀ s ∈ monitoringActions, ∀ a ∈ actionOf (strcpyS maxChrLen s), a.monitors = true := by
  decide

theorem devWrite_of_ne {cfg : Cfg} {off : ℕ} {value : BitVec 32} {r : Fin 32} (h : word off ≠ r) :
    devWrite cfg off value r = cfg r :=
  Function.update_of_ne h.symm _ _

section Frame

variable {command : Command} {cfg cfg' : Cfg}

theorem setVoltage_frame {off : ℕ} {value : ℤ} (h : setVoltage off value cfg = .ok cfg')
    {r : Fin 32}
    (hr : word off ≠ r) : cfg' r = cfg r := by
  obtain ⟨operand, -, h⟩ := of_bind_ok h
  obtain ⟨dacVal, -, h⟩ := of_bind_ok h
  cases h
  exact devWrite_of_ne hr

/-- The branch of a monitoring command changes the named register only. -/
theorem perform_frame (h : perform command cfg = .ok cfg') (hmon : command.action.monitors)
    {r : Fin 32} (hr : command.named ≠ some r) : cfg' r = cfg r := by
  cases command with
  | readReg nDev regOff =>
    obtain ⟨-, -, h⟩ := of_bind_ok h
    cases h
    rfl
  | writeReg nDev regOff regVal =>
    simp only [perform, wrRegValue] at h
    split at h
    case isFalse => cases h
    case isTrue =>
      cases nDev with
      | cfg =>
        cases h
        exact devWrite_of_ne fun heq => hr (congrArg some heq)
      | intc | sts | xadc => cases h; rfl
  | setCfgReg regOff charRegValue fRegValue =>
    have hne : word regOff ≠ r := fun heq => hr (congrArg some heq)
    simp only [perform] at h
    split at h
    · exact setVoltage_frame h hne
    · cases h
      exact devWrite_of_ne hne
  | getCfgStatus | getPT | getGPS | getXADC => cases h; rfl
  | toFile | toStdout | initSystem | getHst => cases hmon

theorem startUp_of_ne {devSize : BitVec 32} (h : devRead cfg cfgResetGralOffset ≠ 0) :
    startUp devSize cfg = devWrite cfg cfgWrAddrOffset devSize := by
  have hgral : devRead (devWrite cfg cfgWrAddrOffset devSize) cfgResetGralOffset ≠ 0 := by
    rwa [devRead_devWrite_of_ne (by decide)]
  exact if_neg hgral

theorem perform_of_main {devSize : BitVec 32} {argv : List CString} {status : ℕ}
    (hparse : parseParam argv = .ok (some command))
    (h : main devSize argv cfg = .ok (status, cfg')) :
    perform command (startUp devSize cfg) = .ok cfg' := by
  obtain ⟨parsed, hparsed, h⟩ := of_bind_ok h
  rw [hparse] at hparsed
  cases hparsed
  obtain ⟨cfg'', hperform, h⟩ := of_bind_ok h
  cases h
  exact hperform

theorem cfgRegs_ne_base : ∀ regOff ∈ cfgRegs, word regOff ≠ word cfgWrAddrOffset := by decide

/-- Only a write to it names the base address of the RAM writer. -/
theorem exists_write_of_named {a : Action} (hfor : command.For a)
    (h : command.named = some (word cfgWrAddrOffset)) :
    ∃ regOff regVal, command = .writeReg .cfg regOff regVal ∧
      word regOff.toNat = word cfgWrAddrOffset := by
  cases command with
  | writeReg nDev regOff regVal =>
    cases nDev with
    | cfg => exact ⟨regOff, regVal, rfl, Option.some.inj h⟩
    | intc | sts | xadc => cases h
  | setCfgReg regOff charRegValue fRegValue =>
    exact absurd (Option.some.inj h) (cfgRegs_ne_base _ (hfor.regOff _ _ _ rfl))
  | readReg | getCfgStatus | toFile | toStdout | getPT | getGPS | initSystem | getXADC
  | getHst => cases h

theorem perform_write {regOff regVal : BitVec 32}
    (h : perform (.writeReg .cfg regOff regVal) cfg = .ok cfg') :
    cfg' = devWrite cfg regOff.toNat regVal := by
  simp only [perform, wrRegValue] at h
  split at h
  · cases h
    rfl
  · cases h

end Frame

/-- While another process acquires into the memory that the RAM writer points to, a
monitoring command leaves the registers alone if and only if it happens to write that very
address back. -/
theorem leavesAcquisition_iff {devSize : BitVec 32} {argv : List CString} {command : Command}
    {cfg cfg' : Cfg} {status : ℕ} (hgral : devRead cfg cfgResetGralOffset ≠ 0)
    (hfresh : devSize ≠ devRead cfg cfgWrAddrOffset)
    (haction : ∃ s ∈ monitoringActions, argv[1]? = some s)
    (hparse : parseParam argv = .ok (some command))
    (hmain : main devSize argv cfg = .ok (status, cfg')) :
    LeavesAcquisition command cfg cfg' ↔
      ∃ regOff, word regOff.toNat = word cfgWrAddrOffset ∧
        command = .writeReg .cfg regOff (devRead cfg cfgWrAddrOffset) := by
  obtain ⟨s, hs, hargv⟩ := haction
  obtain ⟨s', a, hargv', ha, hfor⟩ := parseParam_for hparse
  obtain rfl : s = s' := Option.some.inj (hargv.symm.trans hargv')
  have hmon : command.action.monitors := hfor.action ▸ actionOf_monitors s hs a ha
  have hperform := perform_of_main hparse hmain
  rw [startUp_of_ne hgral] at hperform
  constructor
  · intro h
    -- A command that does not name the base address leaves the fresh one there.
    have hnamed : command.named = some (word cfgWrAddrOffset) := by
      by_contra hne
      have hbase : devRead cfg' cfgWrAddrOffset = devSize :=
        (perform_frame hperform hmon hne).trans (devRead_devWrite_self _ _ _)
      exact hfresh (hbase.symm.trans h.base)
    obtain ⟨regOff, regVal, rfl, hword⟩ := exists_write_of_named hfor hnamed
    refine ⟨regOff, hword, ?_⟩
    have hbase := h.base
    rw [perform_write hperform, devRead, devWrite, ← hword, Function.update_self] at hbase
    rw [hbase]
  · rintro ⟨regOff, hword, rfl⟩
    have hcfg : cfg' = cfg := by
      rw [perform_write hperform]
      funext r
      by_cases hr : word cfgWrAddrOffset = r
      · subst hr
        rw [devWrite, hword, Function.update_self, devRead]
      · rw [devWrite_of_ne (hword ▸ hr), devWrite_of_ne hr]
    rw [hcfg]
    exact ⟨fun _ _ => rfl, rfl⟩

/-- The registers during an acquisition. -/
def acquiring : Cfg :=
  devWrite (devWrite (fun _ => 0) cfgResetGralOffset 0x81F) cfgWrAddrOffset 0x1E000000

/-- `lago -a`. -/
def showStatus : List CString := [text "lago", text "-a"]

theorem parseParam_showStatus : parseParam showStatus = .ok (some .getCfgStatus) := by
  decide

theorem main_showStatus : main 0x1E400000 showStatus acquiring =
    .ok (0, devWrite acquiring cfgWrAddrOffset 0x1E400000) := by
  rw [main, parseParam_showStatus]
  rfl

theorem leavesAcquisition_showStatus :
    LeavesAcquisition .getCfgStatus acquiring (devWrite acquiring cfgWrAddrOffset 0x1E400000) ↔
      ∃ regOff, word regOff.toNat = word cfgWrAddrOffset ∧
        .getCfgStatus = Command.writeReg .cfg regOff (devRead acquiring cfgWrAddrOffset) :=
  leavesAcquisition_iff (by decide) (by decide) ⟨text "-a", by decide, rfl⟩ parseParam_showStatus
    main_showStatus

/-- To show the status redirects the RAM writer. -/
theorem showStatus_redirects :
    main 0x1E400000 showStatus acquiring =
        .ok (0, devWrite acquiring cfgWrAddrOffset 0x1E400000) ∧
      ¬ LeavesAcquisition .getCfgStatus acquiring
        (devWrite acquiring cfgWrAddrOffset 0x1E400000) :=
  ⟨main_showStatus, fun h => absurd h.base (by decide)⟩

end LagoEcosystem.Acqua
