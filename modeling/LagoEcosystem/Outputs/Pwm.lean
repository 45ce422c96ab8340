import LagoEcosystem.Library.Pulses
import LagoEcosystem.Library.BitFields
import Mathlib.Data.Nat.Count

/-!
# The dithered PWM

`pwm_rp`. A frame has `MAX_CNT + 1` cycles and a block has 16 frames. The coarse value and
the dither pattern are loaded at the start of a block; the pattern is shifted at the end of
a frame, and its lowest bit makes the frame one cycle longer. The compare value follows one
cycle behind the pattern.
-/

namespace LagoEcosystem.Pwm

open Clocked

/-- The generics. The configuration holds the coarse value above the pattern. -/
structure Generics where
  dataWidth : ℕ
  maxCnt : ℕ
  fits : maxCnt < 255

/-- The default values of the source. -/
def Generics.default : Generics := ⟨24, 156, by decide⟩

/-- The cycles of a frame. -/
def Generics.frame (g : Generics) : ℕ := g.maxCnt + 1

/-- The cycles of a block. -/
def Generics.block (g : Generics) : ℕ := 16 * g.frame

theorem Generics.frame_pos (g : Generics) : 0 < g.frame := Nat.succ_pos _

variable (g : Generics)

/-- The input ports. -/
structure In where
  aresetn : Bool
  cfgI : BitVec g.dataWidth

variable {g}

/-- A cycle outside the reset. -/
def In.running (cfgI : BitVec g.dataWidth) : In g := ⟨true, cfgI⟩

def coarse (cfgI : BitVec g.dataWidth) : BitVec 8 := cfgI.extractLsb' 16 8

def dither (cfgI : BitVec g.dataWidth) : BitVec 16 := cfgI.extractLsb' 0 16

structure St where
  bcnt : BitVec 4
  b : BitVec 16
  vcnt : BitVec 8
  v : BitVec 8
  vR : BitVec 8

/-- The end of a frame. -/
def St.frameEnd (g : Generics) (s : St) : Bool := decide (s.vcnt.toNat = g.maxCnt)

def St.vcntNext (g : Generics) (s : St) : BitVec 8 := if s.frameEnd g then 0 else s.vcnt + 1

def St.bcntNext (g : Generics) (s : St) : BitVec 4 := if s.frameEnd g then s.bcnt + 1 else s.bcnt

def St.bNext (s : St) (i : In g) : BitVec 16 :=
  if s.frameEnd g && s.bcnt == 15#4 then dither i.cfgI
  else if s.frameEnd g && s.bcnt != 15#4 then s.b >>> 1
  else s.b

def St.vNext (s : St) (i : In g) : BitVec 8 :=
  if s.frameEnd g && s.bcnt == 15#4 then coarse i.cfgI else s.v

def St.vRNext (s : St) : BitVec 8 := if s.b.getLsbD 0 then s.v + 1 else s.v

/-- The registers after a clock edge with `aresetn` low. -/
def St.reset : St := ⟨0, 0, 0, 0, 0⟩

def step (s : St) (i : In g) : St :=
  if i.aresetn then
    { bcnt := s.bcntNext g, b := s.bNext i, vcnt := s.vcntNext g, v := s.vNext i, vR := s.vRNext }
  else .reset

def St.pwmO (s : St) : Bool := decide (s.vcnt.toNat ≤ s.vR.toNat)

theorem step_reset (s : St) {i : In g} (h : i.aresetn = false) : step s i = .reset := by
  simp [step, h]

/-! ## The clock edge at the three kinds of places in a block -/

theorem step_inside {s : St} (h : s.vcnt.toNat < g.maxCnt) (cfgI : BitVec g.dataWidth) :
    step s (.running cfgI) = ⟨s.bcnt, s.b, s.vcnt + 1, s.v, s.vRNext⟩ := by
  have hne : s.vcnt.toNat ≠ g.maxCnt := Nat.ne_of_lt h
  simp [step, In.running, St.bcntNext, St.bNext, St.vcntNext, St.vNext, St.frameEnd, hne]

theorem step_frameEnd {s : St} (h : s.vcnt.toNat = g.maxCnt) (hb : s.bcnt ≠ 15#4)
    (cfgI : BitVec g.dataWidth) :
    step s (.running cfgI) = ⟨s.bcnt + 1, s.b >>> 1, 0, s.v, s.vRNext⟩ := by
  simp [step, In.running, St.bcntNext, St.bNext, St.vcntNext, St.vNext, St.frameEnd, h, hb]

theorem step_blockEnd {s : St} (h : s.vcnt.toNat = g.maxCnt) (hb : s.bcnt = 15#4)
    (cfgI : BitVec g.dataWidth) :
    step s (.running cfgI) = ⟨0, dither cfgI, 0, coarse cfgI, s.vRNext⟩ := by
  simp [step, In.running, St.bcntNext, St.bNext, St.vcntNext, St.vNext, St.frameEnd, h, hb]

/-! ## A block -/

/-- The registers in cycle `j` of frame `f` of a block that started with `v` and `b`. The
compare value is stale in the first cycle. -/
structure At (v : BitVec 8) (b : BitVec 16) (f j : ℕ) (s : St) : Prop where
  bcnt : s.bcnt.toNat = f
  vcnt : s.vcnt.toNat = j
  v_eq : s.v = v
  b_eq : s.b = b >>> f
  vR : 0 < j → s.vR = if b.getLsbD f then v + 1 else v

variable {v : BitVec 8} {b : BitVec 16} {f j : ℕ} {s : St}

theorem At.vRNext (h : At v b f j s) : s.vRNext = if b.getLsbD f then v + 1 else v := by
  rw [St.vRNext, h.v_eq, h.b_eq, BitVec.getLsbD_ushiftRight, Nat.add_zero]

theorem At.inside (h : At v b f j s) (hj : j < g.maxCnt) (cfgI : BitVec g.dataWidth) :
    At v b f (j + 1) (step s (.running cfgI)) := by
  have hfits := g.fits
  have hvcnt := h.vcnt
  rw [step_inside (by omega)]
  exact ⟨h.bcnt, by rw [BitFields.toNat_add_one (by omega), hvcnt], h.v_eq, h.b_eq,
    fun _ => h.vRNext⟩

theorem At.frameEnd (h : At v b f g.maxCnt s) (hf : f < 15) (cfgI : BitVec g.dataWidth) :
    At v b (f + 1) 0 (step s (.running cfgI)) := by
  have hbcnt := h.bcnt
  have hne : s.bcnt ≠ 15#4 := by
    rintro heq
    rw [heq] at hbcnt
    exact Nat.ne_of_lt hf hbcnt.symm
  rw [step_frameEnd h.vcnt hne]
  refine ⟨?_, rfl, h.v_eq, ?_, fun hpos => absurd hpos (Nat.lt_irrefl 0)⟩
  · rw [BitFields.toNat_add_one (by omega), hbcnt]
  · rw [h.b_eq, ← BitVec.shiftRight_add]

section Block

variable (cfgI : ℕ → BitVec g.dataWidth)

/-- The registers in cycle `n` after `s`. -/
def regs (s : St) (cfgI : ℕ → BitVec g.dataWidth) (n : ℕ) : St :=
  trace step s (fun k => .running (cfgI k)) n

theorem regs_succ (s : St) (n : ℕ) :
    regs s cfgI (n + 1) = step (regs s cfgI n) (.running (cfgI n)) := trace_succ _ _ _ n

theorem At.run {n : ℕ} (h : At v b f 0 (regs s cfgI n)) (hj : j ≤ g.maxCnt) :
    At v b f j (regs s cfgI (n + j)) := by
  induction j with
  | zero => exact h
  | succ j ih =>
    rw [← Nat.add_assoc, regs_succ]
    exact (ih (by omega)).inside (by omega) _

/-- The registers in every cycle of a block. -/
theorem at_block (h : At v b 0 0 s) (hf : f < 16) (hj : j ≤ g.maxCnt) :
    At v b f j (regs s cfgI (g.frame * f + j)) := by
  refine At.run cfgI ?_ hj
  induction f with
  | zero => exact h
  | succ f ih =>
    have hlast := (ih (by omega)).run cfgI (Nat.le_refl g.maxCnt)
    have hnext : g.frame * (f + 1) = g.frame * f + g.maxCnt + 1 := by
      rw [Nat.mul_succ, Generics.frame, Nat.add_assoc]
    rw [hnext, regs_succ]
    exact hlast.frameEnd (by omega) _

/-- The output is high up to the compare value. In the first cycle it is high whatever the
stale value is. -/
theorem At.pwmO_iff (h : At v b f j s) (hv : v.toNat < 255) :
    s.pwmO = true ↔ j ≤ v.toNat + (b.getLsbD f).toNat := by
  have hvcnt := h.vcnt
  rw [St.pwmO, decide_eq_true_iff, hvcnt]
  rcases Nat.eq_zero_or_pos j with rfl | hj
  · exact iff_of_true (Nat.zero_le _) (Nat.zero_le _)
  · rw [h.vR hj]
    cases b.getLsbD f with
    | false => rfl
    | true => rw [if_pos rfl, BitFields.toNat_add_one (by omega), Bool.toNat_true]

/-- The number of ones. -/
def popcount (b : BitVec 16) : ℕ := Nat.count (fun k => b.getLsbD k = true) 16

theorem count_le_eq {p : ℕ → Prop} [DecidablePred p] {c n : ℕ} (h : ∀ k < n, p k ↔ k ≤ c) :
    Nat.count p n = min n (c + 1) := by
  induction n with
  | zero => simp
  | succ n ih =>
    rw [Nat.count_succ, ih fun k hk => h k (by omega)]
    by_cases hn : n ≤ c
    · rw [if_pos ((h n (by omega)).mpr hn)]
      omega
    · rw [if_neg fun hp => hn ((h n (by omega)).mp hp)]
      omega

/-- The high cycles of a frame. -/
theorem count_frame (h : At v b 0 0 s) (hv : v.toNat < g.maxCnt) (hf : f < 16) :
    Nat.count (fun j => (regs s cfgI (g.frame * f + j)).pwmO = true) g.frame =
      v.toNat + 1 + (b.getLsbD f).toNat := by
  have hfits := g.fits
  have hle : (b.getLsbD f).toNat ≤ 1 := Bool.toNat_le _
  rw [count_le_eq (c := v.toNat + (b.getLsbD f).toNat)]
  · rw [Generics.frame]
    omega
  · intro j hj
    exact (at_block cfgI h hf (Nat.le_of_lt_succ hj)).pwmO_iff (by omega)

/-- The high cycles of the first frames of a block. -/
theorem count_frames (h : At v b 0 0 s) (hv : v.toNat < g.maxCnt) (hf : f ≤ 16) :
    Nat.count (fun n => (regs s cfgI n).pwmO = true) (g.frame * f) =
      f * (v.toNat + 1) + Nat.count (fun k => b.getLsbD k = true) f := by
  induction f with
  | zero => simp
  | succ f ih =>
    have hbit : (if b.getLsbD f = true then 1 else 0) = (b.getLsbD f).toNat := by
      cases b.getLsbD f <;> rfl
    rw [Nat.mul_succ, Nat.count_add, ih (by omega), count_frame cfgI h hv (by omega),
      Nat.count_succ, hbit, Nat.succ_mul]
    omega

end Block

/-- The last cycle of a block. -/
def AtEnd (g : Generics) (s : St) : Prop := s.vcnt.toNat = g.maxCnt ∧ s.bcnt = 15#4

/-- The clock edge at the end of a block starts the next one. -/
theorem at_blockStart (h : AtEnd g s) (cfgI : BitVec g.dataWidth) :
    At (coarse cfgI) (dither cfgI) 0 0 (step s (.running cfgI)) := by
  rw [step_blockEnd h.1 h.2]
  exact ⟨rfl, rfl, rfl, rfl, fun hpos => absurd hpos (Nat.lt_irrefl 0)⟩

/-- A block ends where the next load is due. -/
theorem At.blockEnd (h : At v b 0 0 s) (cfgI : ℕ → BitVec g.dataWidth) :
    AtEnd g (regs s cfgI (g.block - 1)) := by
  have hlast := at_block cfgI h (f := 15) (by decide) (Nat.le_refl g.maxCnt)
  have hblock : g.block - 1 = g.frame * 15 + g.maxCnt := by
    simp only [Generics.block, Generics.frame]
    omega
  rw [hblock]
  exact ⟨hlast.vcnt, BitVec.eq_of_toNat_eq hlast.bcnt⟩

/-- After the reset the loads come once in a block. -/
theorem atEnd_regs (cfgI : ℕ → BitVec g.dataWidth) (k : ℕ) :
    AtEnd g (regs .reset cfgI (k * g.block + (g.block - 1))) := by
  have hpos : 0 < g.block := Nat.mul_pos (by decide) g.frame_pos
  suffices hstart : ∃ v b, At v b 0 0 (regs .reset cfgI (k * g.block)) by
    obtain ⟨v, b, hat⟩ := hstart
    rw [regs, trace_add]
    exact hat.blockEnd fun n => cfgI (k * g.block + n)
  induction k with
  | zero =>
    rw [Nat.zero_mul]
    exact ⟨0, 0, rfl, rfl, rfl, rfl, fun hlt => absurd hlt (Nat.lt_irrefl 0)⟩
  | succ k ih =>
    obtain ⟨v, b, hat⟩ := ih
    have hend := hat.blockEnd fun n => cfgI (k * g.block + n)
    have hnext : (k + 1) * g.block = k * g.block + (g.block - 1) + 1 := by
      rw [Nat.succ_mul]
      omega
    rw [hnext, regs_succ]
    refine ⟨_, _, at_blockStart ?_ _⟩
    rw [regs, trace_add]
    exact hend

/-- The law of the dithered PWM: the block behind a load has its exact number of high
cycles, whatever is configured meanwhile, and the next load follows it. -/
theorem pwm_law (s : St) (hs : AtEnd g s) (cfg : BitVec g.dataWidth)
    (hv : (coarse cfg).toNat < g.maxCnt) (cfgI : ℕ → BitVec g.dataWidth) :
    Nat.count (fun n => (regs (step s (.running cfg)) cfgI n).pwmO = true) g.block =
        16 * ((coarse cfg).toNat + 1) + popcount (dither cfg) ∧
      AtEnd g (regs (step s (.running cfg)) cfgI (g.block - 1)) := by
  have hstart := at_blockStart hs cfg
  refine ⟨?_, hstart.blockEnd cfgI⟩
  rw [Generics.block, Nat.mul_comm, count_frames cfgI hstart hv (Nat.le_refl 16)]
  rfl

/-- Coarse value 1 and three ones in the pattern, in frames of four cycles. -/
theorem pwm_law_short :
    AtEnd ⟨24, 3, by decide⟩ ⟨15, 0, 3, 0, 0⟩ ∧
      (coarse (g := ⟨24, 3, by decide⟩) 0x018005).toNat < 3 ∧
      Nat.count (fun n => (regs (g := ⟨24, 3, by decide⟩)
        (step (g := ⟨24, 3, by decide⟩) ⟨15, 0, 3, 0, 0⟩ (.running 0x018005))
          (fun _ => 0) n).pwmO = true) 64 = 35 :=
  ⟨⟨rfl, rfl⟩, by decide,
    (pwm_law (g := ⟨24, 3, by decide⟩) ⟨15, 0, 3, 0, 0⟩ ⟨rfl, rfl⟩ 0x018005 (by decide)
      fun _ => 0).1.trans (by decide)⟩

end LagoEcosystem.Pwm
