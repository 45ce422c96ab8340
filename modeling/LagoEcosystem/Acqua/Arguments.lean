import LagoEcosystem.Acqua.Commands

/-!
# Missing arguments

`parse_param` looks whether the argument of `-f` and `-m` is there. It takes those of `-r`,
`-w` and `-s` unseen, and uses the null pointer behind the arguments if they are missing.
Only an unknown name in front of a missing argument keeps it from that.
-/

namespace LagoEcosystem.Acqua

open CLib

/-- The arguments that an action needs. -/
def Action.needs : Action → ℕ
  | .writeReg => 3
  | .readReg | .setCfgReg => 2
  | .toFile | .getHst => 1
  | .getCfgStatus | .showVersion | .toStdout | .getPT | .getGPS | .initSystem | .getXADC => 0

/-- The action that the first parameter names. -/
def namedAction (argv : List CString) : Option Action :=
  argv[1]?.bind fun s => actionOf (strcpyS maxChrLen s)

/-- The action, or an argument that it needs, is missing. -/
def Lacks (argv : List CString) : Prop :=
  argv.length < 2 ∨ ∃ a, namedAction argv = some a ∧ argv.length < 2 + a.needs

/-- `parse_param` uses no null pointer and nothing behind it, and rejects what lacks an
argument. -/
structure ParsesSafely (argv : List CString) : Prop where
  defined : parseParam argv ≠ .error .undefined
  rejects : Lacks argv → parseParam argv = .ok none

/-- The names that the second parameter of an action can be. -/
def Action.knows : Action → CString → Bool
  | .readReg, charReg | .writeReg, charReg => (deviceOf charReg).isSome
  | .setCfgReg, charReg => (cfgRegOf charReg).isSome
  | _, _ => true

/-- The second parameter, if there is one, is a name that the action knows. -/
def KnownName (a : Action) (argv : List CString) : Prop :=
  ∀ s, argv[2]? = some s → a.knows (strcpyS maxChrLen s) = true

/-! ## The actions that take their arguments unseen -/

/-- How an action ends that looks at a name first, and then takes the arguments up to the
`n`-th. -/
structure Fetches (known : Prop) (n : ℕ) (argv : List CString)
    (result : Except Halt (Option Command)) : Prop where
  unknown : ¬ known → result = .ok none
  short : known → argv.length < n → result = .error .undefined
  long : known → n ≤ argv.length → result ≠ .error .undefined

section Fetches

theorem ok_bind {α β : Type} (a : α) (f : α → Except Halt β) : (Except.ok a >>= f) = f a := rfl

theorem error_bind {α β : Type} (e : Halt) (f : α → Except Halt β) :
    ((.error e : Except Halt α) >>= f) = .error e := rfl

variable (argv : List CString)

theorem arg_of_lt {i : ℕ} (h : i < argv.length) : arg argv i = .ok argv[i] := by
  simp [arg, h]

theorem arg_of_le {i : ℕ} (h : argv.length ≤ i) : arg argv i = .error .undefined := by
  simp [arg, h]

theorem knownName_of_le {a : Action} (h : argv.length ≤ 2) : KnownName a argv := by
  intro s hs
  rw [List.getElem?_eq_none h] at hs
  cases hs

theorem knownName_iff {a : Action} (h : 2 < argv.length) :
    KnownName a argv ↔ a.knows (strcpyS maxChrLen argv[2]) = true := by
  simp [KnownName, h]

/-- Without the name nothing else is looked at. -/
theorem fetches_of_le {a : Action} {n : ℕ} {result : Except Halt (Option Command)}
    (h : argv.length ≤ 2) (hn : 2 < n) (hresult : result = .error .undefined) :
    Fetches (KnownName a argv) n argv result where
  unknown hknown := absurd (knownName_of_le argv h) hknown
  short _ _ := hresult
  long _ hle := absurd h (by omega)

/-- A known name is followed by the arguments that are taken unseen. -/
theorem parseReg_known {nDev : Device} (hname : 2 < argv.length)
    (hdev : deviceOf (strcpyS maxChrLen argv[2]) = some nDev) (fWriteReg : Bool) :
    Fetches True (if fWriteReg then 5 else 4) argv (parseReg argv fWriteReg) := by
  refine ⟨fun hknown => absurd trivial hknown, fun _ hshort => ?_, fun _ hlong => ?_⟩
  · by_cases hoff : 3 < argv.length
    · cases fWriteReg with
      | false =>
        rw [if_neg Bool.false_ne_true] at hshort
        omega
      | true =>
        have hval : arg argv 4 = .error .undefined := by
          rw [if_pos rfl] at hshort
          exact arg_of_le argv (by omega)
        simp only [parseReg, arg_of_lt argv hname, ok_bind, hdev, arg_of_lt argv hoff, hval, if_true,
          error_bind]
    · simp only [parseReg, arg_of_lt argv hname, ok_bind, hdev,
        arg_of_le argv (Nat.le_of_not_lt hoff), error_bind]
  · cases fWriteReg with
    | false =>
      rw [if_neg Bool.false_ne_true] at hlong
      simp only [parseReg, arg_of_lt argv hname, ok_bind, hdev,
        arg_of_lt argv (show 3 < argv.length by omega)]
      nofun
    | true =>
      rw [if_pos rfl] at hlong
      simp only [parseReg, arg_of_lt argv hname, ok_bind, hdev,
        arg_of_lt argv (show 3 < argv.length by omega),
        arg_of_lt argv (show 4 < argv.length by omega)]
      nofun

theorem parseReg_fetches (fWriteReg : Bool) :
    Fetches (KnownName (if fWriteReg then .writeReg else .readReg) argv)
      (if fWriteReg then 5 else 4) argv (parseReg argv fWriteReg) := by
  by_cases hname : 2 < argv.length
  swap
  · refine fetches_of_le argv (by omega) (by split <;> omega) ?_
    rw [parseReg, arg_of_le argv (by omega), error_bind]
  have hknown : KnownName (if fWriteReg then .writeReg else .readReg) argv ↔
      (deviceOf (strcpyS maxChrLen argv[2])).isSome = true := by
    rw [knownName_iff argv hname]
    cases fWriteReg <;> rfl
  rw [hknown]
  cases hdev : deviceOf (strcpyS maxChrLen argv[2]) with
  | none =>
    refine ⟨fun _ => ?_, by simp, by simp⟩
    simp only [parseReg, arg_of_lt argv hname, ok_bind, hdev]
    rfl
  | some nDev => simpa using parseReg_known argv hname hdev fWriteReg

theorem parseCfgReg_fetches : Fetches (KnownName .setCfgReg argv) 4 argv (parseCfgReg argv) := by
  by_cases hname : 2 < argv.length
  swap
  · refine fetches_of_le argv (by omega) (by decide) ?_
    rw [parseCfgReg, arg_of_le argv (by omega), error_bind]
  have hknown : KnownName .setCfgReg argv ↔
      (cfgRegOf (strcpyS maxChrLen argv[2])).isSome = true := knownName_iff argv hname
  rw [hknown]
  cases hreg : cfgRegOf (strcpyS maxChrLen argv[2]) with
  | none =>
    refine ⟨fun _ => ?_, by simp, by simp⟩
    simp only [parseCfgReg, arg_of_lt argv hname, ok_bind, hreg]
    rfl
  | some regOff =>
    refine ⟨by simp, fun _ hshort => ?_, fun _ hlong => ?_⟩
    · simp only [parseCfgReg, arg_of_lt argv hname, ok_bind, hreg,
        arg_of_le argv (show argv.length ≤ 3 by omega), error_bind]
    · simp only [parseCfgReg, arg_of_lt argv hname, ok_bind, hreg,
        arg_of_lt argv (show 3 < argv.length by omega)]
      split_ifs <;> nofun

end Fetches

/-- The actions that take their arguments unseen. -/
def Action.fetches : Action → Bool
  | .readReg | .writeReg | .setCfgReg => true
  | _ => false

section Law

variable {argv : List CString} {a : Action}

theorem parseParam_of_named (h : 2 ≤ argv.length) (ha : namedAction argv = some a) :
    parseParam argv =
      match a with
      | .readReg => parseReg argv false
      | .writeReg => parseReg argv true
      | .setCfgReg => parseCfgReg argv
      | .toFile => parseFile argv
      | .getHst => parseHst argv
      | .showVersion => .ok none
      | .getCfgStatus => .ok (some .getCfgStatus)
      | .toStdout => .ok (some .toStdout)
      | .getPT => .ok (some .getPT)
      | .getGPS => .ok (some .getGPS)
      | .initSystem => .ok (some .initSystem)
      | .getXADC => .ok (some .getXADC) := by
  have hlen : ¬ argv.length < 2 := by omega
  have hlt : 1 < argv.length := by omega
  have hname : actionOf (strcpyS maxChrLen argv[1]) = some a := by
    simpa [namedAction, hlt] using ha
  simp only [parseParam, if_neg hlen, arg_of_lt argv hlt, ok_bind, hname]
  cases a <;> rfl

/-- An accepted command line names the action of its command. -/
theorem namedAction_of_parse {command : Command} (h : parseParam argv = .ok (some command)) :
    namedAction argv = some command.action := by
  obtain ⟨s, a, hs, ha, hfor⟩ := parseParam_for h
  rw [namedAction, hs, Option.bind_some, ha, hfor.action]

/-- The actions that take arguments unseen. -/
theorem fetches_of_named (h : 2 ≤ argv.length) (ha : namedAction argv = some a)
    (hfetch : a.fetches = true) :
    Fetches (KnownName a argv) (2 + a.needs) argv (parseParam argv) := by
  rw [parseParam_of_named h ha]
  cases a with
  | readReg => exact parseReg_fetches argv false
  | writeReg => exact parseReg_fetches argv true
  | setCfgReg => exact parseCfgReg_fetches argv
  | getCfgStatus | showVersion | toFile | toStdout | getPT | getGPS | initSystem | getXADC
  | getHst => cases hfetch

/-- The others look first. -/
theorem looks_first (h : 2 ≤ argv.length) (ha : namedAction argv = some a)
    (hfetch : a.fetches = false) :
    parseParam argv ≠ .error .undefined ∧
      (argv.length < 2 + a.needs → parseParam argv = .ok none) := by
  rw [parseParam_of_named h ha]
  cases a with
  | readReg | writeReg | setCfgReg => cases hfetch
  | toFile =>
    by_cases hfile : 2 < argv.length
    · simp [parseFile, hfile, Action.needs]
      omega
    · simp [parseFile, hfile]
  | getHst =>
    by_cases hsamples : 2 < argv.length
    · simp only [parseHst, List.getElem?_eq_getElem hsamples, Action.needs]
      refine ⟨by split_ifs <;> nofun, by omega⟩
    · simp [parseHst, hsamples]
  | showVersion => exact ⟨nofun, fun _ => rfl⟩
  | getCfgStatus | toStdout | getPT | getGPS | initSystem | getXADC =>
    exact ⟨nofun, fun hlt => absurd hlt (Nat.not_lt.mpr h)⟩

theorem parseParam_of_unnamed (h : 2 ≤ argv.length → namedAction argv = none) :
    parseParam argv = .ok none := by
  by_cases hlen : argv.length < 2
  · rw [parseParam, if_pos hlen]
    rfl
  · have hlt : 1 < argv.length := by omega
    have hname : actionOf (strcpyS maxChrLen argv[1]) = none := by
      simpa [namedAction, hlt] using h (by omega)
    simp only [parseParam, if_neg hlen, arg_of_lt argv hlt, ok_bind, hname]
    rfl

theorem two_le_of_named (ha : namedAction argv = some a) : 2 ≤ argv.length := by
  by_contra hlen
  have hnone : argv[1]? = none := List.getElem?_eq_none (by omega)
  rw [namedAction, hnone] at ha
  cases ha

end Law

/-- A command line is parsed safely if and only if it is not one of `-r`, `-w` and `-s` with
a known name, or with nothing, in front of a missing argument. -/
theorem parsesSafely_iff (argv : List CString) :
    ParsesSafely argv ↔ ∀ a, namedAction argv = some a → a.fetches = true →
      KnownName a argv → 2 + a.needs ≤ argv.length := by
  constructor
  · intro hsafe a ha hfetch hknown
    by_contra hshort
    have hspec := fetches_of_named (two_le_of_named ha) ha hfetch
    exact hsafe.defined (hspec.short hknown (by omega))
  · intro hcond
    cases ha : namedAction argv with
    | none =>
      have hnone := parseParam_of_unnamed fun _ => ha
      exact ⟨by rw [hnone]; nofun, fun _ => hnone⟩
    | some a =>
      have hlen := two_le_of_named ha
      have hlacks : Lacks argv → argv.length < 2 + a.needs := by
        rintro (hlt | ⟨a', ha', hlt⟩)
        · omega
        · rw [ha] at ha'
          cases ha'
          exact hlt
      cases hfetch : a.fetches with
      | false =>
        obtain ⟨hdefined, hrejects⟩ := looks_first hlen ha hfetch
        exact ⟨hdefined, fun h => hrejects (hlacks h)⟩
      | true =>
        have hspec := fetches_of_named hlen ha hfetch
        by_cases hknown : KnownName a argv
        · have hall := hcond a ha hfetch hknown
          exact ⟨hspec.long hknown hall, fun h => absurd (hlacks h) (by omega)⟩
        · have hnone := hspec.unknown hknown
          exact ⟨by rw [hnone]; nofun, fun _ => hnone⟩

/-- `lago -r`, and nothing to read, uses the null pointer behind the arguments. -/
theorem readReg_not_parsesSafely : ¬ ParsesSafely [text "lago", text "-r"] :=
  fun h => h.defined (by decide)

end LagoEcosystem.Acqua
