import LagoEcosystem.Acqua.Registers
import LagoEcosystem.Gps.Nmea
import LagoEcosystem.Library.FixedPoint
import LagoEcosystem.Trigger.Core

/-!
# From a fix to the metadata

A GGA line updates the location, `thread_isr` writes the location into the configuration
registers, and the block design wires these registers to the trigger core, which puts
them into the metadata of the next second.
-/

namespace LagoEcosystem.Gps

open Acqua CLib FixedPoint

/-! ## The location -/

/-- `loc_t`. -/
structure Loc where
  times : ℚ
  date : ℚ
  latitude : ℚ
  longitude : ℚ
  speed : ℚ
  altitude : ℚ
  course : ℚ
  satellites : ℚ

/-- `gps_deg_dec`. -/
def gpsDegDec (degPoint : ℚ) : ℚ :=
  let ddeg := truncate degPoint
  let sec := (degPoint - ddeg) * 60
  let deg := truncate ((ddeg : ℚ) / 100)
  let min := truncate (degPoint - ((deg * 100 : ℤ) : ℚ))
  let absdlat : ℚ := roundAway (deg * 1000000)
  let absmlat : ℚ := roundAway (min * 1000000)
  let absslat : ℚ := roundAway (sec * 1000000)
  roundAway (absdlat + absmlat / 60 + absslat / 3600) / 1000000

/-- `gps_convert_deg_to_dec`, for one coordinate and the letter of its positive half. -/
def gpsConvertDegToDec (value : ℚ) (letter : Byte) (positive : Char) : ℚ :=
  gpsDegDec (if letter = byte positive then value else -1 * value)

/-- The `NMEA_GPGGA` case of `gps_location`. -/
def Loc.gga (coord : Loc) (gpgga : Gpgga) : Loc :=
  { coord with
    times := gpgga.times
    latitude := gpsConvertDegToDec gpgga.latitude gpgga.lat 'N'
    longitude := gpsConvertDegToDec gpgga.longitude gpgga.lon 'E'
    altitude := gpgga.altitude
    satellites := gpgga.satellites.toNat }

/-! ## The registers -/

/-- `(int32_t)` of a `double`. The conversion is undefined where the truncated number does
not fit; no value of a location comes near that. -/
def toInt32 (q : ℚ) : BitVec 32 := BitVec.ofInt 32 (truncate q)

/-- What `thread_isr` writes. -/
def threadIsr (cfg : Cfg) (gData : Loc) : Cfg :=
  let gTim := toInt32 gData.times
  let gDat := toInt32 gData.date
  let gLat := toInt32 (gData.latitude * 65536)
  let gLon := toInt32 (gData.longitude * 65536)
  let gAlt := toInt32 (gData.altitude * 65536)
  let gSat := toInt32 gData.satellites
  let cfg := devWrite cfg cfgTimeOffset gTim
  let cfg := devWrite cfg cfgDateOffset gDat
  let cfg := devWrite cfg cfgLatitudeOffset gLat
  let cfg := devWrite cfg cfgLongitudeOffset gLon
  let cfg := devWrite cfg cfgAltitudeOffset gAlt
  devWrite cfg cfgSatelliteOffset gSat

/-! ## The block design -/

/-- The registers at the inputs of the trigger core. A port takes the low bits of the word
it is connected to. -/
def wired (cfg : Cfg) (i : Trigger.In) : Trigger.In :=
  { i with
    trigLvlAI := (devRead cfg cfgTrlvl1Offset).setWidth 16
    trigLvlBI := (devRead cfg cfgTrlvl2Offset).setWidth 16
    subtrigLvlAI := (devRead cfg cfgStrlvl1Offset).setWidth 16
    subtrigLvlBI := (devRead cfg cfgStrlvl2Offset).setWidth 16
    tempI := (devRead cfg cfgTemperatureOffset).setWidth 24
    pressureI := (devRead cfg cfgPressureOffset).setWidth 24
    timeI := (devRead cfg cfgTimeOffset).setWidth 24
    dateI := (devRead cfg cfgDateOffset).setWidth 24
    latitudeI := (devRead cfg cfgLatitudeOffset).setWidth 24
    longitudeI := (devRead cfg cfgLongitudeOffset).setWidth 24
    altitudeI := (devRead cfg cfgAltitudeOffset).setWidth 24
    satellitesI := (devRead cfg cfgSatelliteOffset).setWidth 24
    scalerAI := devRead cfg cfgTrScalAOffset
    scalerBI := devRead cfg cfgTrScalBOffset }

/-- The metadata a pulse captures after `thread_isr` wrote a location, whatever the state
of the core and its other inputs. -/
def captured {g : Trigger.Generics} (s : Trigger.St g) (i : Trigger.In) (cfg : Cfg)
    (gData : Loc) : Trigger.Metadata := s.metadata (wired (threadIsr cfg gData) i)

/-- The slice of a register keeps the low bits of the truncated number. -/
theorem toInt32_setWidth (q : ℚ) : (toInt32 q).setWidth 24 = BitVec.ofInt 24 (truncate q) := by
  apply BitVec.eq_of_toNat_eq
  rw [toInt32, BitVec.toNat_setWidth, BitVec.toNat_ofInt, BitVec.toNat_ofInt]
  omega

end LagoEcosystem.Gps
