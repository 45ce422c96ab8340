import LagoEcosystem.Library.ShiftRegister
import LagoEcosystem.Trigger.Core
import Mathlib.Data.BitVec

/-!
# The trigger decision

Both channels run the same equations on registers and ports of their own. `Channel` names
the two sets, so that what follows is stated once.

A channel compares slices of fifteen bits as signed numbers. Level and samples are sign
extensions of fourteen bits, so these comparisons are exact, but the sample at position 10
must also have the sign of the level.
-/

namespace LagoEcosystem.Trigger

open Clocked ShiftRegister

variable {g : Generics}

/-- The eleven positions of a delay line that the comparisons use are not empty. -/
theorem positions_neZero : NeZero 11 := ⟨by decide⟩

attribute [local instance] positions_neZero

/-! ## The two channels -/

inductive Channel where
  | a | b
  deriving DecidableEq, Repr

instance Channel.decidableForall {P : Channel → Prop} [DecidablePred P] : Decidable (∀ ch, P ch) :=
  decidable_of_iff (P .a ∧ P .b)
    ⟨fun h ch => match ch with | .a => h.1 | .b => h.2, fun h => ⟨h .a, h .b⟩⟩

namespace Channel

def lvlI : Channel → In → BitVec 16
  | .a, i => i.trigLvlAI
  | .b, i => i.trigLvlBI

def scalerI : Channel → In → BitVec 32
  | .a, i => i.scalerAI
  | .b, i => i.scalerBI

/-- The fourteen bits of an input word that belong to the channel. -/
def half : Channel → BitVec 32 → BitVec 14
  | .a, w => w.extractLsb' 0 14
  | .b, w => w.extractLsb' 16 14

def adcReg : Channel → St g → BitVec 16
  | .a, s => s.adcRegA
  | .b, s => s.adcRegB

def adcDatReg : Channel → St g → Fin g.dataArrayLength → BitVec 16
  | .a, s => s.adcDatAReg
  | .b, s => s.adcDatBReg

def rateCntReg : Channel → St g → BitVec 24
  | .a, s => s.rateACntReg
  | .b, s => s.rateBCntReg

def scalerCntReg : Channel → St g → BitVec 32
  | .a, s => s.scalerACntReg
  | .b, s => s.scalerBCntReg

def trDlyReg : Channel → St g → Bool
  | .a, s => s.tr11SDlyReg
  | .b, s => s.tr21SDlyReg

def chargeReg : Channel → St g → BitVec 14
  | .a, s => s.charge1Reg
  | .b, s => s.charge2Reg

/-- `tr1_s`, `tr2_s`. -/
def tr : Channel → St g → In → Bool
  | .a, s, i => s.tr1S i
  | .b, s, i => s.tr2S i

/-- `scaler_a_max_tick`, `scaler_b_max_tick`. -/
def maxTick (ch : Channel) (s : St g) (i : In) : Bool :=
  scalerMaxTick (ch.scalerCntReg s) (ch.scalerI i)

/-- The handshake of the slave side. -/
def takes (s : St g) (i : In) : Bool := s.fsm.axisTreadyReg && i.sAxisTvalid

section Next

variable (ch : Channel) (s : St g) (i : In)

theorem tr_eq : ch.tr s i = fires (ch.adcDatReg s) (level (ch.lvlI i)) := by cases ch <;> rfl

theorem adcReg_next : ch.adcReg (s.next i) =
    if takes s i then extend (ch.half i.sAxisTdata) else ch.adcReg s := by cases ch <;> rfl

theorem adcDatReg_next : ch.adcDatReg (s.next i) = shift (ch.adcReg s) (ch.adcDatReg s) := by
  cases ch <;> rfl

theorem rateCntReg_next : ch.rateCntReg (s.next i) =
    rateCntNext (ch.maxTick s i) i.ppsI (ch.rateCntReg s) := by cases ch <;> rfl

theorem scalerCntReg_next : ch.scalerCntReg (s.next i) =
    scalerCntNext (ch.tr s i) (ch.scalerCntReg s) (ch.scalerI i) := by cases ch <;> rfl

theorem trDlyReg_next : ch.trDlyReg (s.next i) = ch.tr s i := by cases ch <;> rfl

theorem chargeReg_next : ch.chargeReg (s.next i) = chargeNext g (ch.chargeReg s) := by
  cases ch <;> rfl

end Next

end Channel

/-! ## Sign extension -/

theorem extend_eq (x : BitVec 14) : extend x = x.signExtend 16 := by
  apply BitVec.eq_of_getLsbD_eq
  intro k hk
  rw [extend, BitVec.getLsbD_append, BitVec.getLsbD_replicate, BitVec.getLsbD_signExtend]
  by_cases hlow : k < 14
  · simp [hlow, hk]
  · have hbit : (k - 14) % 1 = 0 := Nat.mod_one _
    have hpad : k - 14 < 1 * 2 := by omega
    rw [BitVec.getLsbD_extractLsb', hbit, if_neg hlow, BitVec.msb_eq_getLsbD_last]
    simp [hlow, hk, hpad]

theorem extend_extractLsb (x : BitVec 14) : (extend x).extractLsb' 0 14 = x := by
  apply BitVec.eq_of_getLsbD_eq
  intro k hk
  simp [extend_eq, BitVec.getLsbD_signExtend, hk]
  omega

theorem msb_extend (x : BitVec 14) : (extend x).msb = decide (x.toInt < 0) := by
  rw [extend_eq, BitVec.msb_signExtend]
  simp [BitVec.msb_eq_toInt]

/-- The slice of fifteen bits still has the sign bit. -/
theorem toInt_magnitude (x : BitVec 14) : (magnitude (extend x)).toInt = x.toInt := by
  have hslice : magnitude (extend x) = x.signExtend 15 := by
    apply BitVec.eq_of_getLsbD_eq
    intro k hk
    have hk16 : k < 16 := by omega
    simp [magnitude, extend_eq, BitVec.getElem_signExtend, hk, hk16]
  rw [hslice, BitVec.toInt_signExtend_of_le (by decide)]

/-! ## What the comparison decides -/

/-- Samples rise through a threshold: the one at position 10 has reached it, the nine older
ones are below. -/
def Crosses (threshold : ℤ) (sample : Fin 11 → ℤ) : Prop :=
  threshold ≤ sample 10 ∧ ∀ k : Fin 11, 1 ≤ k.val → k.val ≤ 9 → sample k < threshold

instance (threshold : ℤ) (sample : Fin 11 → ℤ) : Decidable (Crosses threshold sample) := by
  unfold Crosses; infer_instance

theorem fires_iff {dat : Fin g.dataArrayLength → BitVec 16} {x : Fin 11 → BitVec 14}
    (hdat : ∀ k, dat (g.bin k) = extend (x k)) (t : BitVec 14) :
    fires dat (extend t) = true ↔
      ((x 10).toInt < 0 ↔ t.toInt < 0) ∧ Crosses t.toInt fun k => (x k).toInt := by
  have holder : (∀ k : Fin 11, 1 ≤ k.val → k.val ≤ 9 → (x k).toInt < t.toInt) ↔
      ∀ k ∈ ([9, 8, 7, 6, 5, 4, 3, 2, 1] : List (Fin 11)), (x k).toInt < t.toInt := by
    have hmem : ∀ k : Fin 11, 1 ≤ k.val ∧ k.val ≤ 9 ↔
        k ∈ ([9, 8, 7, 6, 5, 4, 3, 2, 1] : List (Fin 11)) := by decide
    exact forall_congr' fun k => by rw [← hmem, and_imp]
  rw [Crosses, holder]
  simp only [fires, hdat, msb_extend, Bool.and_eq_true, beq_iff_eq, decide_eq_decide,
    BitVec.sle_iff_toInt_le, toInt_magnitude, List.all_eq_true, BitVec.slt_iff_toInt_lt, and_assoc]

/-! ## Every sample in a delay line is sign-extended -/

/-- The registers of a channel hold sign extensions. -/
def St.Extended (s : St g) : Prop :=
  ∀ ch : Channel, (∃ x, ch.adcReg s = extend x) ∧ ∀ k, ∃ x, ch.adcDatReg s k = extend x

theorem St.extended_reset (g : Generics) : (St.reset g).Extended := by
  intro ch
  refine ⟨⟨0, ?_⟩, fun k => ⟨0, ?_⟩⟩ <;> cases ch <;> rfl

theorem St.Extended.step {s : St g} (h : s.Extended) (i : In) : (Trigger.step s i).Extended := by
  unfold Trigger.step
  split
  · intro ch
    refine ⟨?_, ?_⟩
    · rw [ch.adcReg_next]
      split
      · exact ⟨_, rfl⟩
      · exact (h ch).1
    · rw [ch.adcDatReg_next]
      exact shift_forall (P := fun y => ∃ x, y = extend x) (h ch).2 (h ch).1
  · exact St.extended_reset g

theorem St.extended_run (is : List In) : (run step (St.reset g) is).Extended :=
  (along_of_forall step _ fun _ _ => trivial).invariant (C := fun _ _ => True)
    (St.extended_reset g) fun _ i h _ => h.step i

/-! ## The decision in a run -/

/-- The sample at a position of the delay line. -/
def Channel.sample (ch : Channel) (s : St g) (k : Fin 11) : ℤ :=
  ((ch.adcDatReg s (g.bin k)).extractLsb' 0 14).toInt

def Channel.threshold (ch : Channel) (i : In) : ℤ := ((ch.lvlI i).extractLsb' 0 14).toInt

/-- The flag is up exactly when the samples rise through the threshold and the newest of
them has its sign. -/
theorem tr_iff (is : List In) (i : In) (ch : Channel) :
    ch.tr (run step (St.reset g) is) i = true ↔
      (ch.sample (run step (St.reset g) is) 10 < 0 ↔ ch.threshold i < 0) ∧
        Crosses (ch.threshold i) (ch.sample (run step (St.reset g) is)) := by
  set s := run step (St.reset g) is
  have hext : s.Extended := St.extended_run is
  have hdat : ∀ k, ch.adcDatReg s (g.bin k) =
      extend ((ch.adcDatReg s (g.bin k)).extractLsb' 0 14) := by
    intro k
    obtain ⟨x, hx⟩ := (hext ch).2 (g.bin k)
    rw [hx, extend_extractLsb]
  rw [ch.tr_eq]
  exact fires_iff hdat _

/-- Samples of channel A: eleven of -10, then 3. -/
def rise (n : ℕ) : In :=
  { In.quiet with
    trigLvlAI := BitVec.ofInt 16 (-5)
    sAxisTdata := (if n < 12 then BitVec.ofInt 32 (-10) else 3#32)
    sAxisTvalid := true }

/-- A negative threshold that the samples jump over: no flag. -/
theorem not_tr_of_signs :
    ¬ (Channel.a.tr (run step (St.reset .blockDesign) ((List.range 35).map rise)) (rise 35) = true ↔
      Crosses (Channel.a.threshold (rise 35))
        (Channel.a.sample (run step (St.reset .blockDesign) ((List.range 35).map rise)))) := by
  decide +kernel

/-- Channel A above its level in the cycles `ns`, and its scaler. -/
def spikes (ns : List ℕ) (scaler : BitVec 32) (n : ℕ) : In :=
  { In.quiet with
    trigLvlAI := 5
    scalerAI := scaler
    sAxisTdata := if n ∈ ns then 8#32 else 0#32
    sAxisTvalid := true }

end LagoEcosystem.Trigger
