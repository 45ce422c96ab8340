import LagoEcosystem.Acqua.Registers
import LagoEcosystem.Library.CLib

/-!
# The command line

`parse_param` on the argument vector. An action sets one of the flags that `main` tests
later, and with it the globals that the branch of `main` uses. What is printed is left out.
-/

namespace LagoEcosystem.Acqua

open CLib

/-- How the program ends other than by returning from `main`: it calls `exit`, or it does
what the language leaves undefined, such as the use of a null pointer. -/
inductive Halt where
  | exit (status : ℕ)
  | undefined
  deriving DecidableEq

def maxChrLen : ℕ := 1024
def maxFileNameLen : ℕ := 255

/-- What `StrcpyS` leaves in a buffer of `cchDst` bytes. -/
def strcpyS (cchDst : ℕ) (szSrc : CString) : CString := szSrc.take (cchDst - 1)

/-- The string `argv[i]`. Behind the arguments there is a null pointer. -/
def arg (argv : List CString) (i : ℕ) : Except Halt CString :=
  match argv[i]? with
  | some s => .ok s
  | none => .error .undefined

/-- The flag that the first parameter sets. -/
inductive Action where
  | readReg
  | writeReg
  | getCfgStatus
  | showVersion
  | setCfgReg
  | toFile
  | toStdout
  | getPT
  | getGPS
  | initSystem
  | getXADC
  | getHst
  deriving DecidableEq

def actionOf (charAction : CString) : Option Action :=
  if charAction = text "-r" then some .readReg
  else if charAction = text "-w" then some .writeReg
  else if charAction = text "-a" then some .getCfgStatus
  else if charAction = text "-v" then some .showVersion
  else if charAction = text "-s" then some .setCfgReg
  else if charAction = text "-f" then some .toFile
  else if charAction = text "-o" then some .toStdout
  else if charAction = text "-t" then some .getPT
  else if charAction = text "-g" then some .getGPS
  else if charAction = text "-i" then some .initSystem
  else if charAction = text "-x" then some .getXADC
  else if charAction = text "-m" then some .getHst
  else none

/-- The values of `n_dev`. -/
inductive Device where
  | intc
  | cfg
  | sts
  | xadc
  deriving DecidableEq

def deviceOf (charReg : CString) : Option Device :=
  if charReg = text "intc" then some .intc
  else if charReg = text "cfg" then some .cfg
  else if charReg = text "sts" then some .sts
  else if charReg = text "xadc" then some .xadc
  else none

/-- The register that `-s` names. -/
def cfgRegOf (charReg : CString) : Option ℕ :=
  if charReg = text "t1" then some cfgTrlvl1Offset
  else if charReg = text "t2" then some cfgTrlvl2Offset
  else if charReg = text "st1" then some cfgStrlvl1Offset
  else if charReg = text "st2" then some cfgStrlvl2Offset
  else if charReg = text "hv1" then some cfgHv1Offset
  else if charReg = text "hv2" then some cfgHv2Offset
  else if charReg = text "ov1" then some cfgHv1Offset
  else if charReg = text "ov2" then some cfgHv2Offset
  else if charReg = text "ov3" then some cfgHv3Offset
  else if charReg = text "ov4" then some cfgHv4Offset
  else if charReg = text "sc1" then some cfgTrScalAOffset
  else if charReg = text "sc2" then some cfgTrScalBOffset
  else none

/-- The flag of an accepted command line and the globals that its branch of `main` uses. -/
inductive Command where
  | readReg (nDev : Device) (regOff : BitVec 32)
  | writeReg (nDev : Device) (regOff regVal : BitVec 32)
  | getCfgStatus
  | setCfgReg (regOff : ℕ) (charRegValue : CString) (fRegValue : Bool)
  | toFile (charFile : CString)
  | toStdout
  | getPT
  | getGPS
  | initSystem
  | getXADC
  | getHst (histoNsamples : ℤ)
  deriving DecidableEq

/-- The parameters of `-r` and `-w`. -/
def parseReg (argv : List CString) (fWriteReg : Bool) : Except Halt (Option Command) := do
  let charReg := strcpyS maxChrLen (← arg argv 2)
  match deviceOf charReg with
  | none => return none
  | some nDev =>
    let regOff := strtoul16 (← arg argv 3)
    if fWriteReg then
      let regVal := strtoul16 (← arg argv 4)
      return some (.writeReg nDev regOff regVal)
    else return some (.readReg nDev regOff)

/-- The parameter of `-m`. -/
def parseHst (argv : List CString) : Except Halt (Option Command) :=
  match argv[2]? with
  | none => .ok none
  | some s =>
    let charRegValue := strcpyS 16 s
    if atoi charRegValue > 10000000 ∨ atoi charRegValue ≤ 0 then .error (.exit 1)
    else .ok (some (.getHst (atoi charRegValue)))

/-- The parameters of `-s`. -/
def parseCfgReg (argv : List CString) : Except Halt (Option Command) := do
  let charReg := strcpyS maxChrLen (← arg argv 2)
  match cfgRegOf charReg with
  | none => return none
  | some regOff =>
    let charRegValue := strcpyS 16 (← arg argv 3)
    if charReg.take 2 = text "hv" ∨ charReg.take 2 = text "ov" then
      if atoi charRegValue > 2500 then throw (.exit 1)
      else return some (.setCfgReg regOff charRegValue true)
    else return some (.setCfgReg regOff charRegValue false)

/-- The parameter of `-f`. -/
def parseFile (argv : List CString) : Except Halt (Option Command) :=
  match argv[2]? with
  | none => .ok none
  | some s => .ok (some (.toFile (strcpyS maxFileNameLen s)))

/-- `parse_param`, with `none` for the return value 0. Its last `else` is out of reach: the
actions that do not return have a branch before it. -/
def parseParam (argv : List CString) : Except Halt (Option Command) := do
  if argv.length < 2 then return none
  match actionOf (strcpyS maxChrLen (← arg argv 1)) with
  | none => return none
  | some .showVersion => return none
  | some .readReg => parseReg argv false
  | some .writeReg => parseReg argv true
  | some .getCfgStatus => return some .getCfgStatus
  | some .setCfgReg => parseCfgReg argv
  | some .toFile => parseFile argv
  | some .toStdout => return some .toStdout
  | some .getPT => return some .getPT
  | some .getGPS => return some .getGPS
  | some .initSystem => return some .initSystem
  | some .getXADC => return some .getXADC
  | some .getHst => parseHst argv

/-- The action that a command was parsed from. -/
def Command.action : Command → Action
  | readReg .. => .readReg
  | writeReg .. => .writeReg
  | getCfgStatus => .getCfgStatus
  | setCfgReg .. => .setCfgReg
  | toFile _ => .toFile
  | toStdout => .toStdout
  | getPT => .getPT
  | getGPS => .getGPS
  | initSystem => .initSystem
  | getXADC => .getXADC
  | getHst _ => .getHst

/-- The offsets that `-s` can set. -/
def cfgRegs : List ℕ :=
  [cfgTrlvl1Offset, cfgTrlvl2Offset, cfgStrlvl1Offset, cfgStrlvl2Offset, cfgHv1Offset,
    cfgHv2Offset, cfgHv3Offset, cfgHv4Offset, cfgTrScalAOffset, cfgTrScalBOffset]

theorem forall_mem_ite {c : Prop} [Decidable c] {a : ℕ} {o : Option ℕ} {P : ℕ → Prop} (ha : P a)
    (ho : ∀ x ∈ o, P x) : ∀ x ∈ (if c then some a else o), P x := by
  split
  · simpa using ha
  · exact ho

theorem mem_cfgRegs (charReg : CString) : ∀ regOff ∈ cfgRegOf charReg, regOff ∈ cfgRegs := by
  unfold cfgRegOf
  iterate 12 refine forall_mem_ite (by decide) ?_
  exact nofun

/-! ## What is accepted -/

theorem of_bind_ok {α β : Type} {x : Except Halt α} {f : α → Except Halt β} {b : β}
    (h : (x >>= f) = .ok b) : ∃ a, x = .ok a ∧ f a = .ok b := by
  cases x with
  | error e => cases h
  | ok a => exact ⟨a, rfl, h⟩

/-- What is known about a command that was parsed for an action. -/
structure Command.For (a : Action) (command : Command) : Prop where
  action : command.action = a
  regOff : ∀ regOff charRegValue fRegValue,
    command = .setCfgReg regOff charRegValue fRegValue → regOff ∈ cfgRegs

section Accepted

variable {argv : List CString} {command : Command}

theorem parseReg_for {fWriteReg : Bool} (h : parseReg argv fWriteReg = .ok (some command)) :
    command.For (if fWriteReg then .writeReg else .readReg) := by
  obtain ⟨s, -, h⟩ := of_bind_ok h
  cases hdev : deviceOf (strcpyS maxChrLen s) with
  | none => simp only [hdev] at h; cases h
  | some nDev =>
    simp only [hdev] at h
    obtain ⟨off, -, h⟩ := of_bind_ok h
    cases fWriteReg with
    | false => cases h; exact ⟨rfl, nofun⟩
    | true =>
      obtain ⟨val, -, h⟩ := of_bind_ok h
      cases h
      exact ⟨rfl, nofun⟩

theorem parseHst_for (h : parseHst argv = .ok (some command)) : command.For .getHst := by
  unfold parseHst at h
  split at h
  case h_1 => cases h
  case h_2 =>
    dsimp only at h
    split at h
    · cases h
    · cases h; exact ⟨rfl, nofun⟩

/-- What an accepted register command can be. Only a voltage is compared with a bound. -/
theorem parseCfgReg_ok (h : parseCfgReg argv = .ok (some command)) :
    ∃ regOff charRegValue fRegValue, command = .setCfgReg regOff charRegValue fRegValue ∧
      regOff ∈ cfgRegs ∧ (fRegValue = true → atoi charRegValue ≤ 2500) := by
  obtain ⟨s, -, h⟩ := of_bind_ok h
  cases hreg : cfgRegOf (strcpyS maxChrLen s) with
  | none => simp only [hreg] at h; cases h
  | some regOff =>
    have hmem : regOff ∈ cfgRegs := mem_cfgRegs _ _ hreg
    simp only [hreg] at h
    obtain ⟨val, -, h⟩ := of_bind_ok h
    split at h
    · split at h
      · cases h
      case isFalse hle =>
        cases h
        exact ⟨_, _, _, rfl, hmem, fun _ => Int.not_lt.mp hle⟩
    · cases h
      exact ⟨_, _, _, rfl, hmem, fun heq => Bool.noConfusion heq⟩

theorem parseCfgReg_for (h : parseCfgReg argv = .ok (some command)) : command.For .setCfgReg := by
  obtain ⟨regOff, charRegValue, fRegValue, rfl, hmem, -⟩ := parseCfgReg_ok h
  refine ⟨rfl, fun _ _ _ heq => ?_⟩
  cases heq
  exact hmem

theorem parseFile_for (h : parseFile argv = .ok (some command)) : command.For .toFile := by
  unfold parseFile at h
  split at h
  case h_1 => cases h
  case h_2 => cases h; exact ⟨rfl, nofun⟩

/-- An accepted command belongs to the action that the command line names. -/
theorem parseParam_for (h : parseParam argv = .ok (some command)) :
    ∃ s a, argv[1]? = some s ∧ actionOf (strcpyS maxChrLen s) = some a ∧ command.For a := by
  unfold parseParam at h
  split at h
  · cases h
  · obtain ⟨s, hs, h⟩ := of_bind_ok h
    have harg : argv[1]? = some s := by
      unfold arg at hs
      split at hs
      case h_1 heq => rw [heq]; cases hs; rfl
      case h_2 => cases hs
    cases ha : actionOf (strcpyS maxChrLen s) with
    | none => simp only [ha] at h; cases h
    | some a =>
      refine ⟨s, a, harg, ha, ?_⟩
      simp only [ha] at h
      cases a with
      | readReg => exact parseReg_for h
      | writeReg => exact parseReg_for h
      | setCfgReg => exact parseCfgReg_for h
      | toFile => exact parseFile_for h
      | getHst => exact parseHst_for h
      | showVersion => cases h
      | getCfgStatus | toStdout | getPT | getGPS | initSystem | getXADC =>
        cases h
        exact ⟨rfl, nofun⟩

end Accepted

end LagoEcosystem.Acqua
