import LagoEcosystem.Library.BitFields
import Mathlib.Data.Rat.Defs
import Mathlib.Tactic.Ring

/-!
# The words `read_buffer` understands

The tests of `read_buffer` (v1_5) on one 32-bit word, in the order of the source, and the
values each branch takes out of the word. What the branches then do with these values
does not influence the tests, so it is kept apart.
-/

namespace LagoEcosystem.Reader

open BitFields

/-- The branches of `read_buffer`, with the values they use. -/
inductive Record where
  /-- `%5hd %5hd` -/
  | sample (ch0 ch1 : ℤ)
  /-- `# t` -/
  | trigger (mask clk : ℕ)
  /-- `# c` -/
  | counter (cnt : ℕ)
  /-- `# x f` -/
  | frequency (clk : ℕ)
  /-- `# x t`; the printed value is measured by the host -/
  | temperature
  /-- `# x p`; the printed value is measured by the host -/
  | pressure
  /-- `# x h`, with the three bytes of the word and the bits it prints last -/
  | time (hour min sec raw : ℕ)
  | latitude (deg : ℚ)
  | longitude (deg : ℚ)
  /-- `# x g` -/
  | altitude (metres : ℚ)
  /-- the `default` of the GPS words, which does nothing -/
  | otherGps
  /-- `# r1` -/
  | rate1 (cnt : ℕ)
  /-- `# r2` -/
  | rate2 (cnt : ℕ)
  /-- `# E 3 - unknown word from FPGA` -/
  | unknown (tag : ℕ)
  deriving DecidableEq

/-- The halves of a word as `int16_t` in memory order. -/
def ch0 (wo : BitVec 32) : BitVec 16 := wo.extractLsb' 0 16
def ch1 (wo : BitVec 32) : BitVec 16 := wo.extractLsb' 16 16

/-- `%hd` of `((ch>>13)<<14) + ((ch>>13)<<15) + ch`, which rebuilds the sign of a sample of
fourteen bits. -/
def printedSample (ch : BitVec 16) : ℤ :=
  let c : BitVec 32 := ch.signExtend 32
  let sign := c.sshiftRight 13
  ((sign <<< 14 + sign <<< 15 + c).setWidth 16).toInt

/-- `((int32_t)(wo&0xFFFFFF)<<8>>8)/65536.0`. -/
def gpsValue (wo : BitVec 32) : ℚ := (((wo &&& 0xFFFFFF#32) <<< 8).sshiftRight 8).toInt / 65536

/-- The branches of `switch(((wo)>>24) & 0x7)`. -/
def gpsRecord (sub : ℕ) (value : ℚ) : Record :=
  match sub with
  | 0 => .latitude value
  | 1 => .longitude value
  | 2 => .altitude value
  | _ => .otherGps

/-- The GPS words. -/
def decodeGps (wo : BitVec 32) : Record := gpsRecord (wo >>> 24 &&& 0x7#32).toNat (gpsValue wo)

/-- The `switch(wo>>27)`. -/
def decodeMetadata (wo : BitVec 32) : Record :=
  match (wo >>> 27).toNat with
  | 0x18 => .frequency (wo &&& 0x07FFFFFF#32).toNat
  | 0x19 => .temperature
  | 0x1A => .pressure
  | 0x1B =>
    .time (wo >>> 16 &&& 0xFF#32).toNat (wo >>> 8 &&& 0xFF#32).toNat (wo &&& 0xFF#32).toNat
      (wo &&& 0x03FFFFFF#32).toNat
  | 0x1C => decodeGps wo
  | 0x1D => .rate1 (wo &&& 0x00FFFFFF#32).toNat
  | 0x1E => .rate2 (wo &&& 0x00FFFFFF#32).toNat
  | tag => .unknown tag

/-- The branch one word takes. -/
def decode (wo : BitVec 32) : Record :=
  match (wo >>> 30).toNat with
  | 0 => .sample (printedSample (ch0 wo)) (printedSample (ch1 wo))
  | 1 => .trigger (wo >>> 27 &&& 0x7#32).toNat (wo &&& 0x7FFFFFF#32).toNat
  | 2 => .counter (wo &&& 0x3FFFFFFF#32).toNat
  | _ => decodeMetadata wo

/-! ## Values -/

/-- Fourteen bits with two zeros in front are printed as a signed number. -/
theorem printedSample_eq {ch : BitVec 16} {x : BitVec 14} (h : ch.toNat = x.toNat) :
    printedSample ch = x.toInt := by
  have hx := x.isLt
  have hmsb : ch.msb = false := by
    rw [BitVec.msb_eq_decide, h, decide_eq_false_iff_not]
    omega
  have hc : (ch.signExtend 32).toNat = x.toNat := by
    rw [BitVec.signExtend_eq_setWidth_of_msb_false hmsb, BitVec.toNat_setWidth, h]
    omega
  have hmsb' : (ch.signExtend 32).msb = false := by
    rw [BitVec.msb_eq_decide, hc, decide_eq_false_iff_not]
    omega
  have hsign : ((ch.signExtend 32).sshiftRight 13).toNat = x.toNat / 2 ^ 13 := by
    rw [BitVec.sshiftRight_eq_of_msb_false hmsb', toNat_ushiftRight, hc]
  simp only [printedSample, BitVec.toInt_eq_toNat_cond, BitVec.toNat_setWidth, BitVec.toNat_add,
    BitVec.toNat_shiftLeft, hsign, hc, Nat.shiftLeft_eq]
  split <;> split <;> omega

/-- Twenty-four bits behind any tag are read as a signed number. -/
theorem gpsValue_eq {wo : BitVec 32} (tag : ℕ) {x : BitVec 24}
    (h : wo.toNat = tag * 2 ^ 24 + x.toNat) : gpsValue wo = x.toInt / 65536 := by
  have hx := x.isLt
  have hlow : ((wo &&& 0xFFFFFF#32) <<< 8).toNat = x.toNat * 2 ^ 8 := by
    rw [BitVec.toNat_shiftLeft, toNat_and_mask wo (k := 24) rfl, h, Nat.shiftLeft_eq]
    omega
  have hval : (((wo &&& 0xFFFFFF#32) <<< 8).sshiftRight 8).toInt = x.toInt := by
    rw [BitVec.toInt_sshiftRight, Int.shiftRight_eq_div_pow]
    simp only [BitVec.toInt_eq_toNat_cond, hlow]
    split <;> split <;> omega
  rw [gpsValue, hval]

/-! ## Tags -/

theorem decode_sample {wo : BitVec 32} {x y : BitVec 14}
    (h : wo.toNat = y.toNat * 2 ^ 16 + x.toNat) : decode wo = .sample x.toInt y.toInt := by
  have hx := x.isLt
  have hy := y.isLt
  have htag : (wo >>> 30).toNat = 0 := by rw [toNat_ushiftRight, h]; omega
  have h0 : (ch0 wo).toNat = x.toNat := by
    rw [ch0, BitVec.extractLsb'_toNat, Nat.shiftRight_eq_div_pow, h]
    omega
  have h1 : (ch1 wo).toNat = y.toNat := by
    rw [ch1, BitVec.extractLsb'_toNat, Nat.shiftRight_eq_div_pow, h]
    omega
  simp only [decode, htag, printedSample_eq h0, printedSample_eq h1]

theorem decode_trigger {wo : BitVec 32} {mask clk : ℕ} (h : wo.toNat = 2 ^ 30 + mask * 2 ^ 27 + clk)
    (hmask : mask < 8) (hclk : clk < 2 ^ 27) : decode wo = .trigger mask clk := by
  have htag : (wo >>> 30).toNat = 1 := by rw [toNat_ushiftRight, h]; omega
  have hm : (wo >>> 27 &&& 0x7#32).toNat = mask := by
    rw [toNat_and_mask _ (k := 3) rfl, toNat_ushiftRight, h]
    omega
  have hc : (wo &&& 0x7FFFFFF#32).toNat = clk := by
    rw [toNat_and_mask _ (k := 27) rfl, h]
    omega
  simp only [decode, htag, hm, hc]

theorem decode_counter {wo : BitVec 32} {cnt : ℕ} (h : wo.toNat = 2 ^ 31 + cnt)
    (hcnt : cnt < 2 ^ 30) : decode wo = .counter cnt := by
  have htag : (wo >>> 30).toNat = 2 := by rw [toNat_ushiftRight, h]; omega
  have hc : (wo &&& 0x3FFFFFFF#32).toNat = cnt := by
    rw [toNat_and_mask _ (k := 30) rfl, h]
    omega
  simp only [decode, htag, hc]

/-- A word whose two top bits are ones reaches `switch(wo>>27)`. -/
theorem decode_metadata {wo : BitVec 32} (h : 3 * 2 ^ 30 ≤ wo.toNat) :
    decode wo = decodeMetadata wo := by
  have hwo := wo.isLt
  have htag : (wo >>> 30).toNat = 3 := by rw [toNat_ushiftRight]; omega
  simp only [decode, htag]

section Tagged

variable {wo : BitVec 32} {tag sub : ℕ} {x : BitVec 24}
  (h : wo.toNat = 2 ^ 31 + tag * 2 ^ 27 + sub * 2 ^ 24 + x.toNat) (hsub : sub < 8)
include h hsub

theorem tag_of_tagged : (wo >>> 27).toNat = 16 + tag := by
  have hx := x.isLt
  rw [toNat_ushiftRight, h]
  omega

theorem subTag_of_tagged : (wo >>> 24 &&& 0x7#32).toNat = sub := by
  have hx := x.isLt
  rw [toNat_and_mask _ (k := 3) rfl, toNat_ushiftRight, h]
  omega

omit hsub in
theorem value_of_tagged : (wo &&& 0x00FFFFFF#32).toNat = x.toNat := by
  have hx := x.isLt
  rw [toNat_and_mask _ (k := 24) rfl, h]
  omega

omit hsub in
theorem gpsValue_of_tagged : gpsValue wo = x.toInt / 65536 :=
  gpsValue_eq (2 ^ 7 + tag * 2 ^ 3 + sub) (by rw [h]; ring)

end Tagged

end LagoEcosystem.Reader
