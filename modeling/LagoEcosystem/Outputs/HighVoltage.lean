import LagoEcosystem.Acqua.Voltage
import LagoEcosystem.Outputs.Ramp

/-!
# From the command line to the high voltage

`lago -s hv1 1500` leaves a code in a configuration register. Its lower half is the target of one
of the four ramp generators, whose PWM signal makes the voltage. However the registers were set
before, the level of the generator settles at the code, and from then on the signal is high in
as many of `2 ^ 16` cycles as the code says.
-/

namespace LagoEcosystem

namespace Ramp

variable {g : Generics} {dataI : ℕ → BitVec g.dataBits} {n₀ : ℕ} {c : BitVec g.dataBits}

/-! ## The time it takes -/

/-- A period has a tick. -/
theorem gap_period (hc : ∀ n ≥ n₀, dataI n = c) {m : ℕ} (hm : n₀ + 1 ≤ m) :
    gap dataI c (m + g.countMod) ≤ gap dataI c m - 1 := by
  have hlt := Nat.mod_lt m g.pos
  obtain ⟨t, hmt, htm, htick⟩ : ∃ t ≥ m, t + 1 ≤ m + g.countMod ∧ g.countMod ∣ t + 1 := by
    refine ⟨m + (g.countMod - 1 - m % g.countMod), by omega, by omega, m / g.countMod + 1, ?_⟩
    have hdiv := Nat.div_add_mod m g.countMod
    rw [Nat.mul_succ]
    omega
  have hstep := (gap_succ hc (hm.trans hmt)).2 htick
  have hbefore := gap_antitone hc hm hmt
  have hbehind := gap_antitone hc (by omega : n₀ + 1 ≤ t + 1) htm
  omega

theorem gap_periods (hc : ∀ n ≥ n₀, dataI n = c) {m : ℕ} (hm : n₀ + 1 ≤ m) (k : ℕ) :
    gap dataI c (m + g.countMod * k) ≤ gap dataI c m - k := by
  induction k with
  | zero => exact Nat.le_refl _
  | succ k ih =>
    have hnext := gap_period hc (hm.trans (Nat.le_add_right m (g.countMod * k)))
    rw [Nat.mul_succ, ← Nat.add_assoc]
    omega

/-- The level is at the target after one period for every step that was missing. -/
theorem level_settled (hc : ∀ n ≥ n₀, dataI n = c) {n : ℕ}
    (hn : n₀ + 1 + g.countMod * gap dataI c (n₀ + 1) ≤ n) : level dataI n = c.toNat := by
  have hall := gap_periods hc (Nat.le_refl (n₀ + 1)) (gap dataI c (n₀ + 1))
  have hanti := gap_antitone hc (Nat.le_add_right _ _) hn
  unfold gap at hall hanti
  omega

theorem gap_lt (n : ℕ) : gap dataI c n < 2 ^ g.dataBits := by
  have hlevel : level dataI n < 2 ^ g.dataBits := BitVec.isLt _
  have hc := c.isLt
  unfold gap
  omega

/-! ## The PWM signal -/

theorem r_regs (n : ℕ) : (regs dataI n).r.toNat = n % 2 ^ g.dataBits := by
  induction n with
  | zero => exact (Nat.zero_mod _).symm
  | succ n ih =>
    have hone : (1 : BitVec g.dataBits).toNat = 1 % 2 ^ g.dataBits := BitVec.toNat_ofNat _ _
    rw [regs_succ]
    show ((regs dataI n).r + 1).toNat = _
    rw [BitVec.toNat_add, ih, hone, ← Nat.add_mod]

theorem pwmO_regs_succ (n : ℕ) : (regs dataI (n + 1)).output.pwmO =
    decide (n % 2 ^ g.dataBits < level dataI n) := by
  rw [regs_succ]
  show decide ((regs dataI n).r.toNat < (regs dataI n).out.toNat) = _
  rw [r_regs]
  rfl

/-- While the level stays, the signal is high in so many of the cycles of a period. -/
theorem count_pwmO {n : ℕ} (hlevel : ∀ k ≥ n, level dataI k = c.toNat) :
    Nat.count (fun j => (regs dataI (n + 1 + j)).output.pwmO = true) (2 ^ g.dataBits) = c.toNat := by
  refine Eq.trans ?_ (Pulses.count_mod_lt c.isLt.le n)
  congr 1
  funext j
  have hplace : n + 1 + j = n + j + 1 := by omega
  rw [hplace, pwmO_regs_succ, hlevel _ (Nat.le_add_right n j), decide_eq_true_eq]

end Ramp

namespace HighVoltage

open Acqua CLib Clocked

/-! ## The block design -/

/-- The four instances `gen_0` to `gen_3`. -/
def gen : Ramp.Generics := ⟨20, 5000, 16, by decide, by decide⟩

/-- The register behind `cfg_dac_pwm_0` to `cfg_dac_pwm_3`, from word 16 on. -/
def dacPwmWord (k : Fin 4) : Fin 32 := ⟨16 + k, by omega⟩

/-- The port `data_i` of a generator takes the lower half of the slice. -/
def dataI (k : Fin 4) (cfg : Cfg) : BitVec gen.dataBits := (cfg (dacPwmWord k)).setWidth 16

/-- The inputs of a generator; `reset_3` is bit 3 of the first register. -/
def genIn (k : Fin 4) (cfg : Cfg) : Ramp.In gen :=
  ⟨(devRead cfg cfgResetGralOffset).getLsbD 3, dataI k cfg⟩

/-- The registers of generator `k` in cycle `n`, when the configuration registers hold `cfg m` in
cycle `m`. -/
def channel (k : Fin 4) (s : Ramp.St gen) (cfg : ℕ → Cfg) (n : ℕ) : Ramp.St gen :=
  trace Ramp.step s (fun m => genIn k (cfg m)) n

/-- In cycle 0 the generators are in reset, and from then on they are not. -/
structure Released (cfg : ℕ → Cfg) : Prop where
  reset : (devRead (cfg 0) cfgResetGralOffset).getLsbD 3 = false
  running : ∀ n, (devRead (cfg (n + 1)) cfgResetGralOffset).getLsbD 3 = true

theorem channel_succ {cfg : ℕ → Cfg} (h : Released cfg) (k : Fin 4) (s : Ramp.St gen) (n : ℕ) :
    channel k s cfg (n + 1) = Ramp.regs (fun m => dataI k (cfg (m + 1))) n := by
  have hreset : Ramp.step s (genIn k (cfg 0)) = .reset := Ramp.step_reset s h.reset
  have hinputs : (fun m => genIn k (cfg (1 + m))) =
      fun m => Ramp.In.running (dataI k (cfg (m + 1))) := by
    funext m
    rw [Nat.add_comm, genIn, h.running]
    rfl
  rw [channel, Nat.add_comm, trace_add, trace_succ, trace_zero, hreset, hinputs]
  rfl

/-! ## The registers of the voltages -/

/-- The offsets of the voltages, by the generator behind them. -/
def hvOffset (k : Fin 4) : ℕ := 0x40 + 4 * k

theorem word_hvOffset : ∀ k, word (hvOffset k) = dacPwmWord k := by decide

theorem forall_mem_ite_of {c : Prop} [Decidable c] {a : ℕ} {o : Option ℕ} {P : ℕ → Prop}
    (ha : c → P a) (ho : ∀ x ∈ o, P x) : ∀ x ∈ (if c then some a else o), P x := by
  split
  case isTrue hc => simpa using ha hc
  case isFalse => exact ho

theorem exists_hvOffset {charReg : CString}
    (hv : charReg.take 2 = text "hv" ∨ charReg.take 2 = text "ov") :
    ∀ regOff ∈ cfgRegOf charReg, ∃ k, regOff = hvOffset k := by
  have hother (s : CString) (hs : ¬(s.take 2 = text "hv" ∨ s.take 2 = text "ov")) {P : Prop}
      (heq : charReg = s) : P := absurd (heq ▸ hv) hs
  unfold cfgRegOf
  iterate 4 refine forall_mem_ite_of (hother _ (by decide)) ?_
  refine forall_mem_ite_of (fun _ => ⟨3, rfl⟩) ?_
  refine forall_mem_ite_of (fun _ => ⟨2, rfl⟩) ?_
  refine forall_mem_ite_of (fun _ => ⟨3, rfl⟩) ?_
  refine forall_mem_ite_of (fun _ => ⟨2, rfl⟩) ?_
  refine forall_mem_ite_of (fun _ => ⟨0, rfl⟩) ?_
  refine forall_mem_ite_of (fun _ => ⟨1, rfl⟩) ?_
  iterate 2 refine forall_mem_ite_of (hother _ (by decide)) ?_
  exact nofun

/-- A voltage that is accepted belongs to a generator. -/
theorem generator_of_parse {argv : List CString} {regOff : ℕ} {charRegValue : CString}
    (hparse : parseParam argv = .ok (some (.setCfgReg regOff charRegValue true))) :
    ∃ k, regOff = hvOffset k := by
  have hnamed : namedAction argv = some .setCfgReg := namedAction_of_parse hparse
  rw [parseParam_of_named (two_le_of_named hnamed) hnamed] at hparse
  obtain ⟨s, -, hparse⟩ := of_bind_ok hparse
  cases hreg : cfgRegOf (strcpyS maxChrLen s) with
  | none => simp only [hreg] at hparse; cases hparse
  | some off =>
    simp only [hreg] at hparse
    obtain ⟨val, -, hparse⟩ := of_bind_ok hparse
    split at hparse
    case isTrue hv =>
      split at hparse
      · cases hparse
      · cases hparse
        exact exists_hvOffset hv _ hreg
    case isFalse => cases hparse

/-! ## From the command to the signal -/

/-- What `lago -s` does with a voltage. -/
theorem main_voltage {argv : List CString} {regOff : ℕ} {charRegValue : CString}
    (hparse : parseParam argv = .ok (some (.setCfgReg regOff charRegValue true)))
    (h8 : 8 ≤ atoi charRegValue) (devSize : BitVec 32) (cfg : Cfg) :
    ∃ code : BitVec 32, code.toNat < 2 ^ 16 ∧
      |readBack code - atoi charRegValue| ≤ 1.1 ∧
      main devSize argv cfg = .ok (0, devWrite (startUp devSize cfg) regOff code) := by
  have haccepted : AcceptedVoltage (atoi charRegValue) := ⟨argv, regOff, charRegValue, hparse, rfl⟩
  have hright : SetRight regOff (atoi charRegValue) := setRight_of_le h8 haccepted.le
  obtain ⟨code, hset, hlt, hback, -, -⟩ := hright.code
  refine ⟨code, hlt, hback, ?_⟩
  have hperform : perform (.setCfgReg regOff charRegValue true) (startUp devSize cfg) =
      .ok (devWrite (startUp devSize cfg) regOff code) := hset _
  rw [main, hparse, ok_bind]
  dsimp only
  rw [hperform, ok_bind]
  rfl

/-- The generators keep their targets when another register is written. -/
theorem dataI_devWrite_of_ne {j k : Fin 4} (h : j ≠ k) (cfg : Cfg) (code : BitVec 32) :
    dataI j (devWrite cfg (hvOffset k) code) = dataI j cfg := by
  have hne : dacPwmWord j ≠ word (hvOffset k) := by
    rw [word_hvOffset]
    exact fun heq => h (Fin.ext (Nat.add_left_cancel (congrArg Fin.val heq)))
  rw [dataI, dataI, devWrite, Function.update_of_ne hne]

theorem toNat_dataI_devWrite_self (k : Fin 4) (cfg : Cfg) {code : BitVec 32}
    (h : code.toNat < 2 ^ 16) : (dataI k (devWrite cfg (hvOffset k) code)).toNat = code.toNat := by
  have hword : devWrite cfg (hvOffset k) code (dacPwmWord k) = code := by
    rw [devWrite, word_hvOffset, Function.update_self]
  have hlow : (dataI k (devWrite cfg (hvOffset k) code)).toNat =
      (devWrite cfg (hvOffset k) code (dacPwmWord k)).toNat % 2 ^ 16 := BitVec.toNat_setWidth _ _
  rw [hlow, hword, Nat.mod_eq_of_lt h]

/-- What becomes of a voltage `v`: a code in the register of generator `k`, which stands for `v` up
to 1.1 mV. Once the register has kept it for a period of the counter for every level there is, the
level is the code, and of any `2 ^ 16` cycles the signal is high in as many as the code says. -/
structure Supplied (v : ℤ) (k : Fin 4) (cfg₀ cfg₁ : Cfg) : Prop where
  others : ∀ j ≠ k, dataI j cfg₁ = dataI j cfg₀
  code : |calibA * (dataI k cfg₁).toNat + calibB - v| ≤ 1.1
  signal : ∀ (s : Ramp.St gen) (cfg : ℕ → Cfg) (n₀ : ℕ), Released cfg →
    (∀ n ≥ n₀, cfg n (dacPwmWord k) = cfg₁ (dacPwmWord k)) →
    ∀ n ≥ n₀ + 2 + 5000 * 2 ^ 16,
      (channel k s cfg n).output.dataO = dataI k cfg₁ ∧
        Nat.count (fun j => (channel k s cfg (n + j)).output.pwmO = true) (2 ^ 16) =
          (dataI k cfg₁).toNat

theorem signal_of_settled {k : Fin 4} {cfg : ℕ → Cfg} (s : Ramp.St gen) (h : Released cfg)
    {n₀ : ℕ} {c : BitVec gen.dataBits} (hc : ∀ n ≥ n₀, dataI k (cfg n) = c) {n : ℕ}
    (hn : n₀ + 2 + 5000 * 2 ^ 16 ≤ n) :
    (channel k s cfg n).output.dataO = c ∧
      Nat.count (fun j => (channel k s cfg (n + j)).output.pwmO = true) (2 ^ 16) = c.toNat := by
  obtain ⟨m, rfl⟩ : ∃ m, n = m + 1 + 1 := ⟨n - 2, by omega⟩
  have hc' : ∀ j ≥ n₀, dataI k (cfg (j + 1)) = c := fun j hj => hc (j + 1) (by omega)
  have hgap : Ramp.gap (fun j => dataI k (cfg (j + 1))) c (n₀ + 1) < 2 ^ gen.dataBits :=
    Ramp.gap_lt (n₀ + 1)
  have hlevel : ∀ j ≥ m, Ramp.level (fun j => dataI k (cfg (j + 1))) j = c.toNat := by
    intro j hj
    refine Ramp.level_settled hc' (Nat.le_trans ?_ hj)
    have hle := Nat.mul_le_mul_left 5000 (Nat.le_sub_one_of_lt hgap)
    have hbits : gen.dataBits = 16 := rfl
    have hmod : gen.countMod = 5000 := rfl
    rw [hbits] at hle
    rw [hmod]
    omega
  constructor
  · rw [channel_succ h]
    exact BitVec.eq_of_toNat_eq (hlevel (m + 1) (Nat.le_succ m))
  · refine Eq.trans ?_ (Ramp.count_pwmO hlevel)
    congr 1
    funext j
    have hplace : m + 1 + 1 + j = m + 1 + j + 1 := by omega
    rw [hplace, channel_succ h]

/-- A voltage of 8 mV or more that the command line accepts is supplied. -/
theorem supplied {argv : List CString} {regOff : ℕ} {charRegValue : CString}
    (hparse : parseParam argv = .ok (some (.setCfgReg regOff charRegValue true)))
    (h8 : 8 ≤ atoi charRegValue) (devSize : BitVec 32) (cfg : Cfg) :
    ∃ k cfg₁, regOff = hvOffset k ∧ main devSize argv cfg = .ok (0, cfg₁) ∧
      Supplied (atoi charRegValue) k (startUp devSize cfg) cfg₁ := by
  obtain ⟨k, rfl⟩ := generator_of_parse hparse
  obtain ⟨code, hlt, hback, hmain⟩ := main_voltage hparse h8 devSize cfg
  refine ⟨k, _, rfl, hmain, fun j hj => dataI_devWrite_of_ne hj _ _, ?_, ?_⟩
  · rw [toNat_dataI_devWrite_self k _ hlt]
    exact hback
  · intro s cfg' n₀ hreleased hkept n hn
    exact signal_of_settled s hreleased (fun m hm => congrArg (BitVec.setWidth 16) (hkept m hm)) hn

theorem supplied_1500 : ∃ k cfg₁, cfgHv1Offset = hvOffset k ∧
    main 0x1E000000 (["lago", "-s", "hv1", "1500"].map text) (fun _ => 0) = .ok (0, cfg₁) ∧
      Supplied (atoi (text "1500")) k (startUp 0x1E000000 fun _ => 0) cfg₁ :=
  supplied
    (show parseParam (["lago", "-s", "hv1", "1500"].map text) = .ok (some _) from by decide)
    (by decide) 0x1E000000 fun _ => 0

end HighVoltage

end LagoEcosystem
