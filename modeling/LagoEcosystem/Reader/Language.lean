import LagoEcosystem.Reader.Decode
import LagoEcosystem.Trigger.Frames
import Mathlib.Tactic.IntervalCases

/-!
# Encoder and decoder agree

The trigger core packs an item into a word and `read_buffer` takes the word apart.
`Item.record` is what the reader is to find in the item; the end marker and the
sub-trigger words, which have no branch of their own in the reader, are left out.
-/

namespace LagoEcosystem

open Clocked BitFields

namespace Trigger

open Reader (Record)

/-- Three bytes of the time field, from hours to seconds, as the reader takes them. -/
def timeByte (time : BitVec 24) (k : Fin 3) : ℕ := (time.extractLsb' (8 * k) 8).toNat

/-- What the reader is to find in a metadata word. -/
def Metadata.record (m : Metadata) : Fin 12 → Option Record
  | 11 => none
  | 10 => some (.frequency m.clkCntPps.toNat)
  | 9 => some .temperature
  | 8 => some .pressure
  | 7 =>
    some (.time (timeByte m.time 2) (timeByte m.time 1) (timeByte m.time 0) m.time.toNat)
  | 6 => some (.latitude (m.latitude.toInt / 65536))
  | 5 => some (.longitude (m.longitude.toInt / 65536))
  | 4 => some (.altitude (m.altitude.toInt / 65536))
  | 3 | 2 => some .otherGps
  | 1 => some (.rate1 m.rateA.toNat)
  | 0 => some (.rate2 m.rateB.toNat)

/-- What the reader is to find in a word. -/
def Item.record : Item → Option Record
  | .sample a b => some (.sample a.toInt b.toInt)
  | .trStatus tr2 tr1 clkCntPps =>
    some (.trigger (2 * tr2.toNat + tr1.toNat) clkCntPps.toNat)
  | .cntStatus trigCnt => some (.counter trigCnt.toNat)
  | .metadata k m => m.record k
  | .subtrig _ _ => none

end Trigger

namespace Reader

open Trigger (Metadata Item Tracked In Generics)

theorem decode_time {wo : BitVec 32} {x : BitVec 24}
    (h : wo.toNat = 2 ^ 31 + 11 * 2 ^ 27 + 0 * 2 ^ 24 + x.toNat) :
    decodeMetadata wo = .time (Trigger.timeByte x 2) (Trigger.timeByte x 1)
      (Trigger.timeByte x 0) x.toNat := by
  have hx := x.isLt
  have hbyte (k : ℕ) (hk : k < 3) :
      (wo >>> (8 * k) &&& 0xFF#32).toNat = (x.extractLsb' (8 * k) 8).toNat := by
    rw [toNat_and_mask _ (k := 8) rfl, toNat_ushiftRight, BitVec.extractLsb'_toNat,
      Nat.shiftRight_eq_div_pow, h]
    interval_cases k <;> omega
  have hraw : (wo &&& 0x03FFFFFF#32).toNat = x.toNat := by
    rw [toNat_and_mask _ (k := 26) rfl, h]
    omega
  have h0 := hbyte 0 (by decide)
  have h1 := hbyte 1 (by decide)
  have h2 := hbyte 2 (by decide)
  simp only [Nat.mul_zero, BitVec.ushiftRight_zero] at h0
  simp only [decodeMetadata, tag_of_tagged h (by decide), hraw, h0, h1, h2]
  rfl

theorem decode_gps {wo : BitVec 32} {x : BitVec 24} (sub : ℕ) (hsub : sub < 8)
    (h : wo.toNat = 2 ^ 31 + 12 * 2 ^ 27 + sub * 2 ^ 24 + x.toNat) :
    decodeMetadata wo = gpsRecord sub (x.toInt / 65536) := by
  have hgps : decodeMetadata wo = decodeGps wo := by
    simp only [decodeMetadata, tag_of_tagged h hsub]
  rw [hgps, decodeGps, subTag_of_tagged h hsub, gpsValue_of_tagged h]

theorem decode_metadata_word (m : Metadata) (k : Fin 12) (r : Record) (h : m.record k = some r) :
    decode (m.word k) = r := by
  rw [decode_metadata (m.le_word k)]
  match k with
  | 11 => simp [Metadata.record] at h
  | 10 =>
    obtain rfl := Option.some.inj h
    have hw := m.toNat_word_clkCntPps
    have hclk := m.clkCntPps.isLt
    have htag : (m.word 10 >>> 27).toNat = 0x18 := by rw [toNat_ushiftRight, hw]; omega
    have hval : (m.word 10 &&& 0x07FFFFFF#32).toNat = m.clkCntPps.toNat := by
      rw [toNat_and_mask _ (k := 27) rfl, hw]
      omega
    simp only [decodeMetadata, htag, hval]
  | 9 =>
    obtain rfl := Option.some.inj h
    have htag : (m.word 9 >>> 27).toNat = 0x19 :=
      tag_of_tagged (Trigger.toNat_tagged _ _ _) (by decide)
    simp only [decodeMetadata, htag]
  | 8 =>
    obtain rfl := Option.some.inj h
    have htag : (m.word 8 >>> 27).toNat = 0x1A :=
      tag_of_tagged (Trigger.toNat_tagged _ _ _) (by decide)
    simp only [decodeMetadata, htag]
  | 7 =>
    obtain rfl := Option.some.inj h
    exact decode_time (Trigger.toNat_tagged _ _ _)
  | 6 =>
    obtain rfl := Option.some.inj h
    exact decode_gps 0 (by decide) (Trigger.toNat_tagged _ _ _)
  | 5 =>
    obtain rfl := Option.some.inj h
    exact decode_gps 1 (by decide) (Trigger.toNat_tagged _ _ _)
  | 4 =>
    obtain rfl := Option.some.inj h
    exact decode_gps 2 (by decide) (Trigger.toNat_tagged _ _ _)
  | 3 =>
    obtain rfl := Option.some.inj h
    exact decode_gps 3 (by decide) (Trigger.toNat_tagged _ _ _)
  | 2 =>
    obtain rfl := Option.some.inj h
    exact decode_gps 4 (by decide) (Trigger.toNat_tagged _ _ _)
  | 1 =>
    obtain rfl := Option.some.inj h
    have hw : (m.word 1).toNat = 2 ^ 31 + 13 * 2 ^ 27 + 0 * 2 ^ 24 + m.rateA.toNat :=
      Trigger.toNat_tagged _ _ _
    simp only [decodeMetadata, tag_of_tagged hw (by decide), value_of_tagged hw]
  | 0 =>
    obtain rfl := Option.some.inj h
    have hw : (m.word 0).toNat = 2 ^ 31 + 14 * 2 ^ 27 + 0 * 2 ^ 24 + m.rateB.toNat :=
      Trigger.toNat_tagged _ _ _
    simp only [decodeMetadata, tag_of_tagged hw (by decide), value_of_tagged hw]

/-- One word: the reader finds what the core put in. -/
theorem decode_word {it : Item} {r : Record} (h : it.record = some r) : decode it.word = r := by
  cases it with
  | sample a b =>
    obtain rfl := Option.some.inj h
    exact decode_sample (Trigger.toNat_sampleWord b a)
  | trStatus tr2 tr1 clkCntPps =>
    obtain rfl := Option.some.inj h
    refine decode_trigger ?_ (by cases tr2 <;> cases tr1 <;> decide) clkCntPps.isLt
    rw [Item.word, Trigger.toNat_trStatusWord]
    ring
  | cntStatus trigCnt =>
    obtain rfl := Option.some.inj h
    exact decode_counter (Trigger.toNat_cntStatusWord trigCnt) trigCnt.isLt
  | metadata k m => exact decode_metadata_word m k r h
  | subtrig k s => simp [Item.record] at h

/-- Without backpressure the transferred words are the encodings of what the core put into
its stream, in order, and the reader finds it in every one of them. -/
theorem transferred_decoded (g : Generics) (is : List In) (h : ∀ i ∈ is, i.Ready) :
    ∃ its, its <+: collect Tracked.step Tracked.put (Tracked.reset g) is ∧
      List.Forall₂ (fun wo it => wo = it.word ∧ ∀ r ∈ it.record, decode wo = r)
        (Trigger.transferred (Trigger.St.reset g) is) its := by
  have hrun : Along Trigger.step Trigger.Harmless (Trigger.St.reset g) is :=
    (along_of_forall _ _ h).mono fun s _ hi => hi.harmless s
  obtain ⟨rest, hrest⟩ := Trigger.transferred_isPrefix hrun
  rw [Trigger.loaded_eq] at hrest
  obtain ⟨its, after, hits, hwords, -⟩ := List.map_eq_append_iff.mp hrest.symm
  refine ⟨its, ⟨after, hits.symm⟩, ?_⟩
  rw [← hwords, List.forall₂_map_left_iff, List.forall₂_same]
  exact fun it _ => ⟨rfl, fun r hr => decode_word hr⟩

theorem transferred_decoded_pulse :
    (∃ its, its <+: collect Tracked.step Tracked.put (Tracked.reset .blockDesign)
        (Trigger.pulse :: List.replicate 13 .quiet) ∧
      List.Forall₂ (fun wo it => wo = it.word ∧ ∀ r ∈ it.record, decode wo = r)
        (Trigger.transferred (Trigger.St.reset .blockDesign)
          (Trigger.pulse :: List.replicate 13 .quiet)) its) ∧
    Trigger.transferred (Trigger.St.reset .blockDesign)
        (Trigger.pulse :: List.replicate 13 .quiet) =
      [0xF0000000, 0xE8000000, 0xE4000000, 0xE3000000, 0xE2000000, 0xE1000000, 0xE0000000,
        0xD8000000, 0xD0000000, 0xC8000000, 0xC0000000, 0xFFFFFFFF] :=
  ⟨transferred_decoded .blockDesign _ (by
    simp [Trigger.In.Ready, Trigger.pulse, Trigger.In.quiet]), by decide +kernel⟩

end Reader
end LagoEcosystem
