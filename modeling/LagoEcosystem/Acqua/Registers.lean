import Mathlib.Data.Nat.Notation
import Mathlib.Logic.Function.Basic

/-!
# The configuration registers

The words of `axi_cfg_register` as `dev_read` and `dev_write` reach them through the
mapping of `cfg_init`. The core decodes bits 2 to 6 of the address only, so its 32 words
repeat over the mapped page.
-/

namespace LagoEcosystem.Acqua

/-- The words of `axi_cfg_register`. -/
abbrev Cfg := Fin 32 → BitVec 32

def cfgResetGralOffset : ℕ := 0x0
def cfgNsamplesOffset : ℕ := 0x4
def cfgTrlvl1Offset : ℕ := 0x8
def cfgTrlvl2Offset : ℕ := 0xC
def cfgStrlvl1Offset : ℕ := 0x10
def cfgStrlvl2Offset : ℕ := 0x14
def cfgTemperatureOffset : ℕ := 0x18
def cfgPressureOffset : ℕ := 0x1C
def cfgTimeOffset : ℕ := 0x20
def cfgDateOffset : ℕ := 0x24
def cfgLatitudeOffset : ℕ := 0x28
def cfgLongitudeOffset : ℕ := 0x2C
def cfgAltitudeOffset : ℕ := 0x30
def cfgSatelliteOffset : ℕ := 0x34
def cfgTrScalAOffset : ℕ := 0x38
def cfgTrScalBOffset : ℕ := 0x3C
def cfgHv1Offset : ℕ := 0x4C
def cfgHv2Offset : ℕ := 0x48
def cfgHv3Offset : ℕ := 0x40
def cfgHv4Offset : ℕ := 0x44
def cfgHst0Offset : ℕ := 0x50
def cfgHst1Offset : ℕ := 0x54
def cfgWrAddrOffset : ℕ := 0x58

/-- The word an address selects. -/
def word (off : ℕ) : Fin 32 := ⟨off / 4 % 32, Nat.mod_lt _ (by decide)⟩

/-- `dev_read(cfg_ptr, off)`. -/
def devRead (cfg : Cfg) (off : ℕ) : BitVec 32 := cfg (word off)

/-- `dev_write(cfg_ptr, off, value)`. -/
def devWrite (cfg : Cfg) (off : ℕ) (value : BitVec 32) : Cfg :=
  Function.update cfg (word off) value

@[simp] theorem devRead_devWrite_self (cfg : Cfg) (off : ℕ) (value : BitVec 32) :
    devRead (devWrite cfg off value) off = value := by
  simp [devRead, devWrite]

theorem devRead_devWrite_of_ne {cfg : Cfg} {off off' : ℕ} {value : BitVec 32}
    (h : word off' ≠ word off) : devRead (devWrite cfg off value) off' = devRead cfg off' := by
  simp [devRead, devWrite, h]

end LagoEcosystem.Acqua
