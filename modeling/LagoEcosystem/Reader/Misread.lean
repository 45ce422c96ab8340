import LagoEcosystem.Reader.Language

/-!
# Words the reader takes for something else

The sub-trigger words have no branch of their own in `read_buffer` (v1_5), and the end marker
of a metadata block has none either. The word with the maxima of a sub-trigger is packed
without the gap between the halves that the reader expects, and the five ones at the top of
the end marker are what the reader calls an unknown word. No other word with these five bits
is ever sent; but the reader looks at no padding, and takes many words that are never sent.
-/

namespace LagoEcosystem.Reader

open BitFields Clocked
open Trigger (Item Generics St In Tracked Subtrig Metadata)

/-! ## The maxima of a sub-trigger -/

/-- The shifts move the sign by multiples of three quarters of the range. -/
theorem printedSample_emod (ch : BitVec 16) :
    printedSample ch % 65536 = (ch.toNat + 49152 * (ch.toNat / 8192)) % 65536 := by
  have hch := ch.isLt
  have hint : ((ch.signExtend 32).sshiftRight 13).toInt = ch.toInt / 2 ^ 13 := by
    rw [BitVec.toInt_sshiftRight, BitVec.toInt_signExtend_of_le (by decide),
      Int.shiftRight_eq_div_pow]
    rfl
  have hext : (ch.signExtend 32).toInt = ch.toInt := BitVec.toInt_signExtend_of_le (by decide)
  rw [BitVec.toInt_eq_toNat_cond, BitVec.toInt_eq_toNat_cond] at hint hext
  rw [printedSample, BitVec.toInt_eq_toNat_cond]
  simp only [BitVec.toNat_setWidth, BitVec.toNat_add, BitVec.toNat_shiftLeft, Nat.shiftLeft_eq]
  generalize ((ch.signExtend 32).sshiftRight 13).toNat = sign at *
  generalize (ch.signExtend 32).toNat = c at *
  by_cases hneg : 2 * ch.toNat < 2 ^ 16
  case pos =>
    rw [if_pos hneg] at hint hext
    omega
  case neg =>
    rw [if_neg hneg] at hint hext
    omega

theorem toInt_emod (x : BitVec 14) : x.toInt % 16384 = x.toNat := by
  have hx := x.isLt
  rw [BitVec.toInt_eq_toNat_cond]
  omega

/-- Halves that agree agree in their fourteen low bits. -/
theorem low_bits {v x : ℤ} (h : v % 65536 = x % 65536) : v % 16384 = x % 16384 := by
  have hdvd : (16384 : ℤ) ∣ 65536 := by decide
  rw [← Int.emod_emod_of_dvd v hdvd, h, Int.emod_emod_of_dvd x hdvd]

/-- Two bits as the sign of a half print a number that ends in them only if they are zero. -/
theorem low_half_zero {q r v : ℤ} (hq : 0 ≤ q ∧ q < 4096) (hr : 0 ≤ r)
    (hv : v % 65536 = (r * 16384 + q + 49152 * (2 * r)) % 65536)
    (ha : v % 16384 = 4 * q + r) : q = 0 ∧ r = 0 := by
  -- the sign moves nothing into the fourteen bits below it
  have hlow : (r * 16384 + q + 49152 * (2 * r)) % 16384 = q := by
    clear hv
    omega
  rw [low_bits hv, hlow] at ha
  clear hv hlow
  omega

/-- The fourteen bits `4 * q + r` are printed as `v` out of a half that holds `r` above the
fourteen bits `b`, and these as `w` out of a half that holds `q`. -/
theorem halves_zero {q r b v w : ℤ} (hq : 0 ≤ q ∧ q < 4096) (hr : 0 ≤ r)
    (hv : v % 65536 = (r * 16384 + b + 49152 * ((r * 16384 + b) / 8192)) % 65536)
    (ha : v % 16384 = 4 * q + r)
    (hw : w % 65536 = (q + 49152 * (q / 8192)) % 65536)
    (hb : w % 16384 = b) : q = 0 ∧ r = 0 ∧ b = 0 := by
  -- the upper half has no sign
  have hsign : q / 8192 = 0 := by omega
  have hbq : b = q := by
    have hlow := low_bits hw
    omega
  rw [hbq] at hv
  have hlow : (r * 16384 + q) / 8192 = 2 * r := by omega
  rw [hlow] at hv
  obtain ⟨hq0, hr0⟩ := low_half_zero hq hr hv ha
  exact ⟨hq0, hr0, hbq.trans hq0⟩

theorem toNat_word_peaks (r : Subtrig) :
    (r.word 0).toNat = r.peakA.toNat * 2 ^ 14 + r.peakB.toNat := by
  unfold Subtrig.word
  rw [toNat_append, toNat_append]
  simp

/-- The halves of the word: the lower one takes two bits of the first maximum. -/
theorem toNat_halves_peaks (r : Subtrig) :
    (ch0 (r.word 0)).toNat = r.peakA.toNat % 4 * 16384 + r.peakB.toNat ∧
      (ch1 (r.word 0)).toNat = r.peakA.toNat / 4 := by
  have ha := r.peakA.isLt
  have hb := r.peakB.isLt
  rw [ch0, ch1, BitVec.extractLsb'_toNat, BitVec.extractLsb'_toNat, Nat.shiftRight_eq_div_pow,
    Nat.shiftRight_eq_div_pow, toNat_word_peaks]
  omega

theorem decode_peaks (r : Subtrig) :
    decode (r.word 0) =
      .sample (printedSample (ch0 (r.word 0))) (printedSample (ch1 (r.word 0))) := by
  have ha := r.peakA.isLt
  have hb := r.peakB.isLt
  have htag : (r.word 0 >>> 30).toNat = 0 := by
    rw [toNat_ushiftRight, toNat_word_peaks]
    omega
  simp only [decode, htag]

/-- The word with the maxima is decoded to them only when both are zero. -/
theorem decode_peaks_iff (r : Subtrig) :
    decode (r.word 0) = .sample r.peakA.toInt r.peakB.toInt ↔ r.peakA = 0 ∧ r.peakB = 0 := by
  rw [decode_peaks]
  constructor
  · intro h
    obtain ⟨hlow, hhigh⟩ := Record.sample.inj h
    obtain ⟨h0, h1⟩ := toNat_halves_peaks r
    have ha := toInt_emod r.peakA
    have hlt := r.peakA.isLt
    have hsplit : r.peakA.toInt % 16384 = 4 * (r.peakA.toNat / 4) + r.peakA.toNat % 4 := by omega
    have hb := toInt_emod r.peakB
    have hprint0 := printedSample_emod (ch0 (r.word 0))
    have hprint1 := printedSample_emod (ch1 (r.word 0))
    rw [hlow, h0] at hprint0
    rw [hhigh, h1] at hprint1
    push_cast at hprint0 hprint1
    obtain ⟨hq, hr, hzb⟩ :=
      halves_zero (by omega) (by omega) hprint0 hsplit hprint1 hb
    have hza' : r.peakA.toNat = 0 := by omega
    have hzb' : r.peakB.toNat = 0 := by omega
    exact ⟨BitVec.eq_of_toNat_eq hza', BitVec.eq_of_toNat_eq hzb'⟩
  · rintro ⟨hza, hzb⟩
    have hzero : r.word 0 = 0 := by
      apply BitVec.eq_of_toNat_eq
      rw [toNat_word_peaks, hza, hzb]
      rfl
    rw [hzero, hza, hzb]
    decide

/-- Maxima of 4 and 0 are read as 0 and 1. -/
theorem decode_peaks_four :
    decode ((Subtrig.mk false true 0 0 0 4 0).word 0) = .sample 0 1 ∧
      decode ((Subtrig.mk false true 0 0 0 4 0).word 0) ≠ .sample 4 0 := by
  decide +kernel

/-! ## Unknown words -/

/-- The reader reports the error E 3. -/
def Rejected (wo : BitVec 32) : Prop := ∃ tag, decode wo = .unknown tag

theorem gpsRecord_ne_unknown (sub : ℕ) (value : ℚ) (tag : ℕ) :
    gpsRecord sub value ≠ .unknown tag := by
  unfold gpsRecord
  split <;> simp

theorem decodeMetadata_unknown {wo : BitVec 32} {tag : ℕ} (h : decodeMetadata wo = .unknown tag)
    (hwo : 3 * 2 ^ 30 ≤ wo.toNat) : 31 * 2 ^ 27 ≤ wo.toNat := by
  have htag := toNat_ushiftRight wo 27
  unfold decodeMetadata at h
  split at h
  case h_5 => exact absurd h (gpsRecord_ne_unknown _ _ _)
  case h_8 =>
    simp only [imp_false] at *
    omega
  all_goals cases h

/-- A word is unknown when its five top bits are ones. -/
theorem rejected_iff (wo : BitVec 32) : Rejected wo ↔ 31 * 2 ^ 27 ≤ wo.toNat := by
  have hwo := wo.isLt
  constructor
  · rintro ⟨tag, h⟩
    have htop := toNat_ushiftRight wo 30
    match hbits : (wo >>> 30).toNat with
    | 0 | 1 | 2 =>
      simp only [decode, hbits] at h
      cases h
    | n + 3 =>
      have h3 : 3 * 2 ^ 30 ≤ wo.toNat := by omega
      rw [decode_metadata h3] at h
      exact decodeMetadata_unknown h h3
  · intro h
    have htag : (wo >>> 27).toNat = 31 := by
      rw [toNat_ushiftRight]
      omega
    refine ⟨31, ?_⟩
    rw [decode_metadata (by omega)]
    simp only [decodeMetadata, htag]

theorem metadata_range (m : Metadata) (k : Fin 12) :
    (2 ^ 31 ≤ (m.word k).toNat ∧ (m.word k).toNat < 31 * 2 ^ 27) ∨ m.word k = 0xFFFFFFFF#32 := by
  match k with
  | 11 => exact .inr rfl
  | 10 =>
    have hclk := m.clkCntPps.isLt
    left
    rw [m.toNat_word_clkCntPps]
    omega
  | 9 | 8 | 7 | 6 | 5 | 4 | 3 | 2 | 1 | 0 =>
    left
    rw [Metadata.word, Trigger.toNat_tagged]
    simp only [BitVec.toNat_ofNat]
    constructor <;> omega

/-- The words that the core builds leave out the trigger words with a third bit in the mask,
and of the words with five ones at the top they use the end marker only. -/
theorem word_ranges (it : Item) :
    it.word.toNat < 3 * 2 ^ 29 ∨ (2 ^ 31 ≤ it.word.toNat ∧ it.word.toNat < 31 * 2 ^ 27) ∨
      it.word = 0xFFFFFFFF#32 := by
  cases it with
  | sample a b =>
    have h := Trigger.sampleWord_lt b a
    left
    rw [Item.word]
    omega
  | trStatus tr2 tr1 clkCntPps => exact .inl (Trigger.trStatusWord_lt tr2 tr1 clkCntPps)
  | cntStatus trigCnt =>
    have h := Trigger.cntStatusWord_bounds trigCnt
    right; left
    rw [Item.word]
    omega
  | metadata k m => exact .inr (metadata_range m k)
  | subtrig k r => exact .inl (r.word_lt k)

/-- The reader rejects exactly the words that no run of the core puts into its stream. -/
def RejectsExactly : Prop :=
  ∀ wo, Rejected wo ↔ ∀ (g : Generics) (is : List In), wo ∉ Trigger.transferred (St.reset g) is

/-- Five ones at the top make a word unknown, and apart from the end marker no such word is
put into the stream by any run. -/
theorem rejected_not_sent (wo : BitVec 32) (hend : wo ≠ 0xFFFFFFFF#32) :
    (Rejected wo ↔ 31 * 2 ^ 27 ≤ wo.toNat) ∧
      (Rejected wo →
        ∀ (g : Generics) (is : List In), wo ∉ Trigger.transferred (St.reset g) is) := by
  refine ⟨rejected_iff wo, fun hrej g is hmem => ?_⟩
  obtain ⟨it, rfl⟩ := Trigger.transferred_encode hmem
  have hhigh := (rejected_iff _).mp hrej
  rcases word_ranges it with hlow | ⟨-, hlow⟩ | hmarker
  · omega
  · omega
  · exact hend hmarker

theorem rejected_not_sent_f8 :
    Rejected 0xF8000000#32 ∧ 0xF8000000#32 ∉
      Trigger.transferred (St.reset .blockDesign) (Trigger.pulse :: List.replicate 12 .quiet) := by
  obtain ⟨hiff, hnot⟩ := rejected_not_sent 0xF8000000#32 (by decide)
  have hrej : Rejected 0xF8000000#32 := hiff.mpr (by decide)
  exact ⟨hrej, hnot hrej _ _⟩

/-- A trigger word with a mask of four is never sent and yet accepted. -/
theorem not_rejectsExactly : ¬ RejectsExactly := by
  intro h
  have haccepted : ¬ Rejected 0x60000000#32 := by
    rw [rejected_iff]
    decide
  refine haccepted ((h _).mpr fun g is hmem => ?_)
  obtain ⟨it, hit⟩ := Trigger.transferred_encode hmem
  have hranges := word_ranges it
  rw [← hit] at hranges
  revert hranges
  decide

end LagoEcosystem.Reader
