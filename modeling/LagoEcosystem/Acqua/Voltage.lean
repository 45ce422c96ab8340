import LagoEcosystem.Acqua.Arguments
import LagoEcosystem.Acqua.Main
import Mathlib.Tactic.FieldSimp

/-!
# High voltages

`set_voltage` subtracts the offset of the calibration, converts the difference and divides.
From 8 mV on the difference is positive, and the code is right to within the truncation.
Below, the difference is negative and its conversion is undefined or off by the offset;
`parse_param` looks at the upper end of the range only.
-/

namespace LagoEcosystem.Acqua

open CLib FixedPoint

/-- The calibration `y = a * x + b` of `set_voltage` and `rd_cfg_status`. -/
def calibA : ℚ := 0.0882006
def calibB : ℚ := 7.73516

/-- What `rd_cfg_status` prints for a code. -/
def readBack (code : BitVec 32) : ℚ := calibA * code.toNat + calibB

/-- The value that `set_voltage` writes. -/
def dacVal (value : ℤ) : Except Halt (BitVec 32) := do
  let operand ← toUInt32 (value - calibB)
  toUInt32 (operand.toNat / calibA)

theorem setVoltage_of_dacVal {value : ℤ} {code : BitVec 32} (h : dacVal value = .ok code)
    (offset : ℕ) (cfg : Cfg) :
    setVoltage offset value cfg = .ok (devWrite cfg offset code) := by
  simp only [dacVal, calibA, calibB] at h
  simp only [setVoltage]
  cases hoperand : toUInt32 ((value : ℚ) - 7.73516) with
  | error e =>
    rw [hoperand, error_bind] at h
    cases h
  | ok operand =>
    rw [hoperand, ok_bind] at h
    rw [ok_bind, h, ok_bind]
    rfl

/-- A voltage that the command line can ask for. -/
def AcceptedVoltage (value : ℤ) : Prop :=
  ∃ argv regOff charRegValue,
    parseParam argv = .ok (some (.setCfgReg regOff charRegValue true)) ∧ atoi charRegValue = value

/-- The voltage is set as asked for. -/
structure SetRight (offset : ℕ) (value : ℤ) : Prop where
  operand : 0 ≤ (value : ℚ) - calibB
  code : ∃ code, (∀ cfg, setVoltage offset value cfg = .ok (devWrite cfg offset code)) ∧
    code.toNat < 2 ^ 16 ∧ |readBack code - value| ≤ 1.1 ∧
    (∀ full, dacVal 2500 = .ok full → code ≤ full) ∧
    ∀ value', AcceptedVoltage value' → value ≤ value' →
      ∃ code', dacVal value' = .ok code' ∧ code ≤ code'

/-! ## The code of a voltage -/

/-- The code of `n` millivolts above 8 mV. -/
def codeOf (n : ℕ) : ℕ := n * 10000000 / 882006

theorem codeOf_mono {m n : ℕ} (h : m ≤ n) : codeOf m ≤ codeOf n :=
  Nat.div_le_div_right (Nat.mul_le_mul_right _ h)

theorem codeOf_lt {n : ℕ} (h : n ≤ 2492) : codeOf n < 2 ^ 16 :=
  (codeOf_mono h).trans_lt (by decide)

theorem toUInt32_natCast_add {n : ℕ} (hn : n + 1 < 2 ^ 32) {f : ℚ} (h0 : 0 ≤ f) (h1 : f < 1) :
    toUInt32 (n + f) = .ok (BitVec.ofNat 32 n) := by
  have hlt : ((n : ℚ) + 1) < 2 ^ 32 := by exact_mod_cast hn
  have hnonneg : (0 : ℚ) ≤ n := by positivity
  rw [toUInt32, if_pos ⟨by linarith, by linarith⟩, truncate_natCast_add h0 h1, BitVec.ofInt_natCast]

/-- The quotient as a whole number and a rest. -/
theorem div_calibA (n : ℕ) :
    (n : ℚ) / calibA = codeOf n + ((n * 10000000 % 882006 : ℕ) : ℚ) / 882006 := by
  have hdiv : ((882006 * codeOf n + n * 10000000 % 882006 : ℕ) : ℚ) = (n * 10000000 : ℕ) := by
    exact_mod_cast Nat.div_add_mod (n * 10000000) 882006
  push_cast at hdiv
  rw [calibA]
  field_simp
  linarith

theorem dacVal_eq {n : ℕ} (h : n ≤ 2492) : dacVal (n + 8) = .ok (BitVec.ofNat 32 (codeOf n)) := by
  have hoperand : (((n + 8 : ℤ)) : ℚ) - calibB = (n : ℚ) + 0.26484 := by
    rw [calibB]
    push_cast
    norm_num
    ring
  have hrest : n * 10000000 % 882006 < 882006 := Nat.mod_lt _ (by decide)
  have hrest' : ((n * 10000000 % 882006 : ℕ) : ℚ) < 882006 := by exact_mod_cast hrest
  have hcode := codeOf_lt h
  rw [dacVal, hoperand, toUInt32_natCast_add (by omega) (by norm_num) (by norm_num), ok_bind,
    BitVec.toNat_ofNat, Nat.mod_eq_of_lt (by omega), div_calibA]
  exact toUInt32_natCast_add (by omega) (by positivity) ((div_lt_one (by norm_num)).mpr hrest')

/-- What is read back lies below the voltage, by less than 0.36 mV. -/
theorem abs_readBack_sub {n : ℕ} (h : n ≤ 2492) :
    |readBack (BitVec.ofNat 32 (codeOf n)) - (n + 8)| ≤ 1.1 := by
  have hcode := codeOf_lt h
  have hrest : ((n * 10000000 % 882006 : ℕ) : ℚ) ≤ 882006 := by
    exact_mod_cast (Nat.mod_lt (n * 10000000) (by decide : 882006 > 0)).le
  have hrest0 : (0 : ℚ) ≤ ((n * 10000000 % 882006 : ℕ) : ℚ) := Nat.cast_nonneg _
  have hquot : (n : ℚ) =
      (codeOf n + ((n * 10000000 % 882006 : ℕ) : ℚ) / 882006) * calibA := by
    rw [← div_calibA, div_mul_cancel₀ _ (by norm_num [calibA])]
  generalize ((n * 10000000 % 882006 : ℕ) : ℚ) = rest at *
  rw [readBack, BitVec.toNat_ofNat, Nat.mod_eq_of_lt (by omega)]
  rw [calibA] at hquot ⊢
  rw [calibB, abs_le]
  constructor <;> norm_num at hquot ⊢ <;> linarith

/-! ## What is accepted -/

theorem parseCfgReg_le {argv : List CString} {regOff : ℕ} {charRegValue : CString}
    (h : parseCfgReg argv = .ok (some (.setCfgReg regOff charRegValue true))) :
    atoi charRegValue ≤ 2500 := by
  obtain ⟨_, _, _, heq, -, hle⟩ := parseCfgReg_ok h
  cases heq
  exact hle rfl

/-- The upper end of the range is the only one that is looked at. -/
theorem AcceptedVoltage.le {value : ℤ} (h : AcceptedVoltage value) : value ≤ 2500 := by
  obtain ⟨argv, regOff, charRegValue, hparse, rfl⟩ := h
  have hnamed : namedAction argv = some .setCfgReg := namedAction_of_parse hparse
  rw [parseParam_of_named (two_le_of_named hnamed) hnamed] at hparse
  exact parseCfgReg_le hparse

theorem exists_add_eight {value : ℤ} (h8 : 8 ≤ value) (h : value ≤ 2500) :
    ∃ n : ℕ, n ≤ 2492 ∧ value = n + 8 :=
  ⟨(value - 8).toNat, by omega, by omega⟩

theorem ofNat_codeOf_le {m n : ℕ} (h : m ≤ n) (hn : n ≤ 2492) :
    BitVec.ofNat 32 (codeOf m) ≤ BitVec.ofNat 32 (codeOf n) := by
  have hmono := codeOf_mono h
  have hlt := codeOf_lt hn
  rw [BitVec.le_def, BitVec.toNat_ofNat, BitVec.toNat_ofNat, Nat.mod_eq_of_lt (by omega),
    Nat.mod_eq_of_lt (by omega)]
  exact hmono

theorem setRight_of_le {offset : ℕ} {value : ℤ} (h8 : 8 ≤ value) (h : value ≤ 2500) :
    SetRight offset value := by
  have h8' : (8 : ℚ) ≤ value := by exact_mod_cast h8
  obtain ⟨n, hn, rfl⟩ := exists_add_eight h8 h
  have hcode := dacVal_eq hn
  refine ⟨by rw [calibB]; linarith, BitVec.ofNat 32 (codeOf n), setVoltage_of_dacVal hcode offset,
    ?_, ?_, ?_, ?_⟩
  · have hlt := codeOf_lt hn
    rw [BitVec.toNat_ofNat, Nat.mod_eq_of_lt (by omega)]
    exact hlt
  · push_cast
    exact abs_readBack_sub hn
  · intro full hfull
    have hfull' : dacVal 2500 = .ok (BitVec.ofNat 32 (codeOf 2492)) := dacVal_eq le_rfl
    rw [hfull'] at hfull
    cases hfull
    exact ofNat_codeOf_le hn le_rfl
  · intro value' haccepted hle
    obtain ⟨n', hn', rfl⟩ := exists_add_eight (h8.trans hle) haccepted.le
    exact ⟨_, dacVal_eq hn', ofNat_codeOf_le (by omega) hn'⟩

/-- A voltage that the command line accepts is set right if and only if it is 8 mV or more. -/
theorem setRight_iff {argv : List CString} {regOff : ℕ} {charRegValue : CString}
    (hparse : parseParam argv = .ok (some (.setCfgReg regOff charRegValue true))) :
    SetRight regOff (atoi charRegValue) ↔ 8 ≤ atoi charRegValue := by
  have haccepted : AcceptedVoltage (atoi charRegValue) := ⟨argv, regOff, charRegValue, hparse, rfl⟩
  constructor
  · intro h
    have hoperand := h.operand
    rw [calibB] at hoperand
    have hlt : (7 : ℚ) < atoi charRegValue := by linarith
    have hlt' : 7 < atoi charRegValue := by exact_mod_cast hlt
    omega
  · exact fun h8 => setRight_of_le h8 haccepted.le

theorem setRight_1500 : SetRight cfgHv1Offset (atoi (text "1500")) ↔ 8 ≤ atoi (text "1500") :=
  setRight_iff
    (show parseParam (["lago", "-s", "hv1", "1500"].map text) = _ from by decide)

/-- `lago -s hv1 0` is accepted, and asks for the conversion of a negative number. -/
theorem zero_undefined :
    parseParam (["lago", "-s", "hv1", "0"].map text) =
        .ok (some (.setCfgReg cfgHv1Offset (text "0") true)) ∧
      setVoltage cfgHv1Offset (atoi (text "0")) (fun _ => 0) = .error .undefined ∧
      ¬ SetRight cfgHv1Offset (atoi (text "0")) := by
  have hzero : atoi (text "0") = 0 := by decide
  have hundefined : setVoltage cfgHv1Offset 0 (fun _ => 0) = .error .undefined := by
    have hoperand : toUInt32 (((0 : ℤ) : ℚ) - 7.73516) = .error .undefined := by
      rw [toUInt32, if_neg (by norm_num)]
    simp only [setVoltage]
    rw [hoperand, error_bind]
  rw [hzero]
  refine ⟨by decide, hundefined, fun h => ?_⟩
  obtain ⟨code, hcode, -⟩ := h.code
  cases hundefined.symm.trans (hcode fun _ => 0)

end LagoEcosystem.Acqua
