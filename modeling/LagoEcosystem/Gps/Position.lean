import LagoEcosystem.Gps.Location
import LagoEcosystem.Reader.Language

/-!
# The position of a fix, end to end

`thread_isr` writes a coordinate with sixteen fractional bits into a register of 32 bits.
The metadata word has room for 24 of them, and the reader rebuilds the sign from bit 23.
That leaves seven bits before the point: enough for every latitude, not for every
longitude and not for the altitude of a mountain site.
-/

namespace LagoEcosystem.Gps

open FixedPoint Reader

/-- The position of a detector site, altitude in metres. -/
structure Position where
  latitude : ℚ
  longitude : ℚ
  altitude : ℚ
  latitude_le : |latitude| ≤ 90
  longitude_le : |longitude| ≤ 180
  le_altitude : -500 ≤ altitude
  altitude_le : altitude ≤ 9000

/-- The location that `thread_isr` reads, with the position in it. -/
def Loc.at (gData : Loc) (p : Position) : Loc :=
  { gData with latitude := p.latitude, longitude := p.longitude, altitude := p.altitude }

/-- The reader takes `wo` for a coordinate of the right kind, within 2⁻¹⁶ of `x`. -/
def Recovers (kind : ℚ → Record) (wo : BitVec 32) (x : ℚ) : Prop :=
  ∃ v, decode wo = kind v ∧ |v - x| ≤ 1 / 2 ^ 16

/-- What 24 bits can hold. -/
def Fits (x : ℚ) : Prop := -128 - 1 / 2 ^ 16 < x ∧ x < 128

/-- A coordinate that reaches the reader as a slice of the register is recovered exactly
when it fits. -/
theorem recovers_iff {kind : ℚ → Record} (hkind : Function.Injective kind) {wo : BitVec 32}
    {x : ℚ} (h : decode wo = kind (((toInt32 (x * 65536)).setWidth 24).toInt / 65536)) :
    Recovers kind wo x ↔ Fits x := by
  have hscale : ∀ n : ℤ, |(n : ℚ) / 65536 - x| ≤ 1 / 2 ^ 16 ↔ |(n : ℚ) - x * 65536| ≤ 1 := by
    intro n
    rw [show (n : ℚ) / 65536 - x = (n - x * 65536) / 65536 by ring, abs_div,
      abs_of_pos (by norm_num : (0 : ℚ) < 65536), div_le_iff₀ (by norm_num)]
    norm_num
  have hfits : Fits x ↔ -2 ^ (24 - 1) - 1 < x * 65536 ∧ x * 65536 < 2 ^ (24 - 1) := by
    rw [Fits]
    constructor <;> rintro ⟨hlo, hhi⟩ <;> constructor <;> norm_num at * <;> linarith
  rw [hfits, ← within_iff (by decide), ← hscale]
  rw [toInt32_setWidth] at h
  constructor
  · rintro ⟨v, hv, hclose⟩
    rwa [hkind (hv.symm.trans h)] at hclose
  · exact fun hclose => ⟨_, h, hclose⟩

section Recovered

variable {g : Trigger.Generics} (s : Trigger.St g) (i : Trigger.In) (cfg : Acqua.Cfg)
  (gData : Loc) (p : Position)

theorem latitude_recovered :
    Recovers .latitude ((captured s i cfg (gData.at p)).word 6) p.latitude := by
  refine (recovers_iff (fun _ _ h => Record.latitude.inj h) ?_).mpr ?_
  · exact decode_metadata_word _ 6 _ rfl
  · have hle := abs_le.mp p.latitude_le
    constructor <;> norm_num <;> linarith

/-- The three coordinates are recovered if and only if longitude and altitude fit. -/
theorem position_recovered_iff :
    (Recovers .latitude ((captured s i cfg (gData.at p)).word 6) p.latitude ∧
      Recovers .longitude ((captured s i cfg (gData.at p)).word 5) p.longitude ∧
      Recovers .altitude ((captured s i cfg (gData.at p)).word 4) p.altitude) ↔
    Fits p.longitude ∧ Fits p.altitude := by
  have hlon := recovers_iff (x := p.longitude) (fun _ _ h => Record.longitude.inj h)
    (decode_metadata_word (captured s i cfg (gData.at p)) 5 _ rfl)
  have halt := recovers_iff (x := p.altitude) (fun _ _ h => Record.altitude.inj h)
    (decode_metadata_word (captured s i cfg (gData.at p)) 4 _ rfl)
  rw [hlon, halt]
  exact and_iff_right (latitude_recovered s i cfg gData p)

end Recovered

/-- A site 200 m above the sea. -/
def site : Position := ⟨0, 0, 200, by norm_num, by norm_num, by norm_num, by norm_num⟩

/-- The reader puts it 56 m below the sea. -/
theorem site_not_recovered :
    ¬ Recovers .altitude
      ((captured (Trigger.St.reset .blockDesign) .quiet (fun _ => 0)
        (Loc.at ⟨0, 0, 0, 0, 0, 0, 0, 0⟩ site)).word 4) site.altitude := by
  rintro ⟨v, hv, hclose⟩
  have hread : decode ((captured (Trigger.St.reset .blockDesign) .quiet (fun _ => 0)
      (Loc.at ⟨0, 0, 0, 0, 0, 0, 0, 0⟩ site)).word 4) = .altitude (-56) := by
    decide +kernel
  obtain rfl := Record.altitude.inj (hv.symm.trans hread)
  norm_num [site, abs_le] at hclose

end LagoEcosystem.Gps
