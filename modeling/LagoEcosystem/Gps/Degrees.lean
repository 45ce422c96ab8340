import LagoEcosystem.Gps.Location

/-!
# From degrees and minutes to degrees

NMEA writes an angle as `100 * degrees + minutes`. `gps_deg_dec` takes the degrees and the
whole minutes out by truncation and rounds three terms to millionths before it adds them.
All of this is odd, so that the hemispheres mirror each other.
-/

namespace LagoEcosystem.Gps

open CLib FixedPoint

/-- A latitude or a longitude as NMEA has it: `ddmm.mmmm` or `dddmm.mmmm`. -/
structure DegMin where
  deg : ℕ
  min : ℚ
  deg_lt : deg < 1000
  min_nonneg : 0 ≤ min
  min_lt : min < 60

/-- The number in the field. -/
def DegMin.value (c : DegMin) : ℚ := 100 * c.deg + c.min

/-- The angle in degrees. -/
def DegMin.angle (c : DegMin) : ℚ := c.deg + c.min / 60

inductive Axis where
  | latitude
  | longitude

def Axis.positive : Axis → Char
  | latitude => 'N'
  | longitude => 'E'

def Axis.negative : Axis → Char
  | latitude => 'S'
  | longitude => 'W'

theorem Axis.letters_ne (axis : Axis) : byte axis.negative ≠ byte axis.positive := by
  cases axis <;> decide

/-! ## The three parts -/

/-- `deg`, `min` and `sec` of `gps_deg_dec`. -/
def degPart (degPoint : ℚ) : ℤ := truncate ((truncate degPoint : ℚ) / 100)
def minPart (degPoint : ℚ) : ℤ := truncate (degPoint - ((degPart degPoint * 100 : ℤ) : ℚ))
def secPart (degPoint : ℚ) : ℚ := (degPoint - truncate degPoint) * 60

/-- The sum before it is rounded, in millionths of a degree. -/
def partSum (degPoint : ℚ) : ℚ :=
  roundAway (degPart degPoint * 1000000) + roundAway (minPart degPoint * 1000000) / 60 +
    roundAway (secPart degPoint * 1000000) / 3600

theorem gpsDegDec_eq (degPoint : ℚ) : gpsDegDec degPoint = roundAway (partSum degPoint) / 1000000 :=
  rfl

section Mirror

variable (degPoint : ℚ)

theorem degPart_neg : degPart (-degPoint) = -degPart degPoint := by
  rw [degPart, degPart, truncate_neg, Int.cast_neg, neg_div, truncate_neg]

theorem minPart_neg : minPart (-degPoint) = -minPart degPoint := by
  rw [minPart, minPart, degPart_neg, ← truncate_neg]
  push_cast
  congr 1
  ring

theorem secPart_neg : secPart (-degPoint) = -secPart degPoint := by
  rw [secPart, secPart, truncate_neg]
  push_cast
  ring

theorem partSum_neg : partSum (-degPoint) = -partSum degPoint := by
  rw [partSum, degPart_neg, minPart_neg, secPart_neg]
  simp only [Int.cast_neg, neg_mul, roundAway_neg]
  rw [partSum]
  ring

theorem gpsDegDec_neg : gpsDegDec (-degPoint) = -gpsDegDec degPoint := by
  rw [gpsDegDec_eq, gpsDegDec_eq, partSum_neg, roundAway_neg, Int.cast_neg, neg_div]

end Mirror

namespace DegMin

variable (c : DegMin)

theorem floor_min_mem : 0 ≤ ⌊c.min⌋ ∧ ⌊c.min⌋ < 60 := by
  refine ⟨Int.floor_nonneg.mpr c.min_nonneg, ?_⟩
  exact Int.floor_lt.mpr (by exact_mod_cast c.min_lt)

theorem truncate_value : truncate c.value = 100 * c.deg + ⌊c.min⌋ := by
  have hnonneg : 0 ≤ c.value := by
    have := c.min_nonneg
    rw [value]
    positivity
  have hfloor : ⌊(100 : ℚ) * c.deg + c.min⌋ = 100 * c.deg + ⌊c.min⌋ := by
    exact_mod_cast Int.floor_intCast_add (100 * c.deg) c.min
  rw [truncate, if_pos hnonneg, value, hfloor]

/-- Less than sixty minutes never reach the degrees. -/
theorem degPart_value : degPart c.value = c.deg := by
  obtain ⟨hlo, hhi⟩ := c.floor_min_mem
  have hlo' : (0 : ℚ) ≤ ⌊c.min⌋ := by exact_mod_cast hlo
  have hhi' : (⌊c.min⌋ : ℚ) < 60 := by exact_mod_cast hhi
  have hquot : (((100 * c.deg + ⌊c.min⌋ : ℤ) : ℚ)) / 100 = (c.deg : ℕ) + (⌊c.min⌋ : ℚ) / 100 := by
    push_cast
    ring
  rw [degPart, truncate_value, hquot]
  exact truncate_natCast_add (by positivity) (by linarith)

theorem minPart_value : minPart c.value = ⌊c.min⌋ := by
  have hrest : c.value - ((degPart c.value * 100 : ℤ) : ℚ) = c.min := by
    rw [degPart_value, value]
    push_cast
    ring
  rw [minPart, hrest, truncate, if_pos c.min_nonneg]

theorem secPart_value : secPart c.value = (c.min - ⌊c.min⌋) * 60 := by
  rw [secPart, truncate_value, value]
  push_cast
  ring

/-- Only the seconds are rounded. -/
theorem abs_partSum_sub : |partSum c.value - c.angle * 1000000| ≤ 1 / 7200 := by
  have hround := abs_roundAway_sub (secPart c.value * 1000000)
  have hdeg : (roundAway (degPart c.value * 1000000) : ℚ) = c.deg * 1000000 := by
    rw [degPart_value]
    exact_mod_cast congrArg (Int.cast (R := ℚ)) (roundAway_intCast (c.deg * 1000000))
  have hmin : (roundAway (minPart c.value * 1000000) : ℚ) = ⌊c.min⌋ * 1000000 := by
    rw [minPart_value]
    exact_mod_cast congrArg (Int.cast (R := ℚ)) (roundAway_intCast (⌊c.min⌋ * 1000000))
  have hsplit : partSum c.value - c.angle * 1000000 =
      (roundAway (secPart c.value * 1000000) - secPart c.value * 1000000) / 3600 := by
    rw [partSum, hdeg, hmin, secPart_value, angle]
    ring
  rw [hsplit, abs_div, abs_of_pos (by norm_num : (0 : ℚ) < 3600), div_le_iff₀ (by norm_num)]
  linarith

theorem abs_gpsDegDec_sub : |gpsDegDec c.value - c.angle| ≤ 1 / 10 ^ 6 := by
  have hsum := abs_le.mp c.abs_partSum_sub
  have hround := abs_le.mp (abs_roundAway_sub (partSum c.value))
  rw [gpsDegDec_eq, abs_le]
  constructor <;> linarith [hsum.1, hsum.2, hround.1, hround.2]

end DegMin

/-- Both hemispheres are converted to within a millionth of a degree, as mirror images. -/
theorem gpsConvertDegToDec_mirrored (axis : Axis) (c : DegMin) :
    |gpsConvertDegToDec c.value (byte axis.positive) axis.positive - c.angle| ≤ 1 / 10 ^ 6 ∧
      |gpsConvertDegToDec c.value (byte axis.negative) axis.positive - -c.angle| ≤ 1 / 10 ^ 6 ∧
      gpsConvertDegToDec c.value (byte axis.negative) axis.positive =
        -gpsConvertDegToDec c.value (byte axis.positive) axis.positive := by
  have hpos : gpsConvertDegToDec c.value (byte axis.positive) axis.positive =
      gpsDegDec c.value := by
    rw [gpsConvertDegToDec, if_pos rfl]
  have hneg : gpsConvertDegToDec c.value (byte axis.negative) axis.positive =
      -gpsDegDec c.value := by
    rw [gpsConvertDegToDec, if_neg axis.letters_ne, neg_one_mul, gpsDegDec_neg]
  have hwithin := c.abs_gpsDegDec_sub
  rw [hpos, hneg]
  refine ⟨hwithin, ?_, rfl⟩
  rwa [sub_neg_eq_add, neg_add_eq_sub, abs_sub_comm]

end LagoEcosystem.Gps
