import LagoEcosystem.Library.Pulses
import LagoEcosystem.Library.BitFields
import Mathlib.Order.Basic

/-!
# The ramp generator

`ramp_gen`, which moves the level of the high voltage towards the requested one. The level
takes a step at the end of every period of the counter. A free running comparison makes a
PWM signal of the level.
-/

namespace LagoEcosystem.Ramp

open Clocked

/-- The generics. The last value of the counter fits it. -/
structure Generics where
  countNbits : ℕ
  countMod : ℕ
  dataBits : ℕ
  two_le : 2 ≤ countMod
  fits : countMod ≤ 2 ^ countNbits

/-- The default values of the source. -/
def Generics.default : Generics := ⟨18, 200000, 12, by decide, by decide⟩

theorem Generics.pos (g : Generics) : 0 < g.countMod := by
  have := g.two_le
  omega

variable (g : Generics)

/-- The input ports. -/
structure In where
  aresetn : Bool
  dataI : BitVec g.dataBits

variable {g}

/-- A cycle outside the reset. -/
def In.running (dataI : BitVec g.dataBits) : In g := ⟨true, dataI⟩

variable (g)

structure St where
  cnt : BitVec g.countNbits
  inReg : BitVec g.dataBits
  r : BitVec g.dataBits
  out : BitVec g.dataBits
  buff : Bool

/-- The output ports. -/
structure Out where
  dataO : BitVec g.dataBits
  pwmO : Bool
  ledO : Bool

variable {g}

def St.maxTick (s : St g) : Bool := decide (s.cnt.toNat = g.countMod - 1)

def St.cntNext (s : St g) : BitVec g.countNbits :=
  if s.cnt.toNat = g.countMod - 1 then 0 else s.cnt + 1

def St.buffNext (s : St g) : Bool := decide (s.r.toNat < s.out.toNat)

def St.outNext (s : St g) : BitVec g.dataBits :=
  if s.maxTick then
    if s.out.toNat < s.inReg.toNat then s.out + 1
    else if s.inReg.toNat < s.out.toNat then s.out - 1
    else s.out
  else s.out

/-- The registers after a clock edge with `aresetn` low. -/
def St.reset : St g := ⟨0, 0, 0, 0, false⟩

def step (s : St g) (i : In g) : St g :=
  if i.aresetn then
    { cnt := s.cntNext, inReg := i.dataI, r := s.r + 1, out := s.outNext, buff := s.buffNext }
  else .reset

def St.output (s : St g) : Out g where
  dataO := s.out
  pwmO := s.buff
  ledO := decide (s.out.toNat ≠ 0)

theorem step_reset (s : St g) {i : In g} (h : i.aresetn = false) : step s i = .reset := by
  simp [step, h]

@[simp] theorem step_cnt (s : St g) (d : BitVec g.dataBits) :
    (step s (.running d)).cnt = s.cntNext := rfl
@[simp] theorem step_inReg (s : St g) (d : BitVec g.dataBits) :
    (step s (.running d)).inReg = d := rfl

/-! ## One step of the level -/

/-- What a clock edge does to the level. It moves at a tick only, by one, towards the target
and not beyond it. -/
inductive Moves (tick : Bool) (target : ℕ) (old new : ℕ) : Prop
  | hold (h : new = old) (why : tick = false ∨ old = target)
  | up (htick : tick = true) (hlt : old < target) (h : new = old + 1)
  | down (htick : tick = true) (hlt : target < old) (h : new + 1 = old)

theorem St.outNext_moves (s : St g) :
    Moves s.maxTick s.inReg.toNat s.out.toNat s.outNext.toNat := by
  unfold outNext
  split_ifs with htick hup hdown
  · have hfit : s.out.toNat + 1 < 2 ^ g.dataBits := by have := s.inReg.isLt; omega
    exact .up htick hup (BitFields.toNat_add_one hfit)
  · refine .down htick hdown ?_
    rw [BitFields.toNat_sub_one (by omega)]
    omega
  · exact .hold rfl (.inr (by omega))
  · exact .hold rfl (.inl (by simpa using htick))

/-! ## A run -/

/-- The registers in cycle `n` after the reset. -/
def regs (dataI : ℕ → BitVec g.dataBits) (n : ℕ) : St g :=
  trace step .reset (fun k => .running (dataI k)) n

/-- The level in cycle `n`. -/
def level (dataI : ℕ → BitVec g.dataBits) (n : ℕ) : ℕ := (regs dataI n).output.dataO.toNat

/-- The registered target in cycle `n`. -/
def target (dataI : ℕ → BitVec g.dataBits) (n : ℕ) : ℕ := (regs dataI n).inReg.toNat

variable (dataI : ℕ → BitVec g.dataBits)

theorem regs_succ (n : ℕ) : regs dataI (n + 1) = step (regs dataI n) (.running (dataI n)) := by
  rw [regs, trace_succ]
  rfl

theorem target_succ (n : ℕ) : target dataI (n + 1) = (dataI n).toNat := by
  rw [target, regs_succ, step_inReg]

/-- The counter counts the cycles modulo `COUNT_MOD`. -/
theorem cnt_regs (n : ℕ) : (regs dataI n).cnt.toNat = n % g.countMod := by
  induction n with
  | zero => exact (Nat.zero_mod _).symm
  | succ n ih =>
    have hlt : n % g.countMod < g.countMod := Nat.mod_lt n g.pos
    have hfits := g.fits
    rw [regs_succ, step_cnt, St.cntNext, ih, Pulses.succ_mod_eq g.pos]
    split_ifs with hend
    · rfl
    · rw [BitFields.toNat_add_one (by omega), ih]

theorem maxTick_regs (n : ℕ) : (regs dataI n).maxTick = decide (g.countMod ∣ n + 1) := by
  rw [St.maxTick, cnt_regs, decide_eq_decide]
  exact (Pulses.dvd_succ_iff g.pos n).symm

theorem level_moves (n : ℕ) :
    Moves (decide (g.countMod ∣ n + 1)) (target dataI n) (level dataI n)
      (level dataI (n + 1)) := by
  have hmoves := (regs dataI n).outNext_moves
  rw [maxTick_regs] at hmoves
  rwa [level, level, regs_succ]

/-- Two changes of the level are a whole number of periods apart. -/
theorem period_le_of_changes {m n : ℕ} (hmn : m < n)
    (hm : level dataI (m + 1) ≠ level dataI m) (hn : level dataI (n + 1) ≠ level dataI n) :
    g.countMod ≤ n - m := by
  have htick : ∀ k, level dataI (k + 1) ≠ level dataI k → g.countMod ∣ k + 1 := by
    intro k hk
    cases level_moves dataI k with
    | hold h => exact absurd h hk
    | up h => exact of_decide_eq_true h
    | down h => exact of_decide_eq_true h
  have hdvd : g.countMod ∣ n + 1 - (m + 1) := Nat.dvd_sub (htick n hn) (htick m hm)
  rw [Nat.add_sub_add_right] at hdvd
  exact Nat.le_of_dvd (by omega) hdvd

/-- The level stays in the interval from zero to the largest target. -/
theorem level_le (n : ℕ) : level dataI n = 0 ∨ ∃ k < n, level dataI n ≤ (dataI k).toNat := by
  induction n with
  | zero => exact .inl rfl
  | succ n ih =>
    have hold : level dataI (n + 1) ≤ level dataI n →
        level dataI (n + 1) = 0 ∨ ∃ k < n + 1, level dataI (n + 1) ≤ (dataI k).toNat := by
      intro hle
      rcases ih with hzero | ⟨k, hk, hlevel⟩
      · exact .inl (by omega)
      · exact .inr ⟨k, Nat.lt_succ_of_lt hk, hle.trans hlevel⟩
    cases level_moves dataI n with
    | hold h => exact hold (by omega)
    | down _ _ h => exact hold (by omega)
    | up _ hlt h =>
      cases n with
      | zero => exact absurd hlt (Nat.not_lt_zero _)
      | succ n =>
        rw [target_succ] at hlt
        exact .inr ⟨n, by omega, by omega⟩

/-! ## A constant target -/

section Constant

variable {dataI} {n₀ : ℕ} {c : BitVec g.dataBits}

/-- The distance of the level from `c`. -/
def gap (dataI : ℕ → BitVec g.dataBits) (c : BitVec g.dataBits) (n : ℕ) : ℕ :=
  (level dataI n - c.toNat) + (c.toNat - level dataI n)

/-- The distance does not grow, and at a tick it shrinks. -/
theorem gap_succ (hc : ∀ n ≥ n₀, dataI n = c) {n : ℕ} (hn : n₀ + 1 ≤ n) :
    gap dataI c (n + 1) ≤ gap dataI c n ∧
      (g.countMod ∣ n + 1 → gap dataI c (n + 1) = gap dataI c n - 1) := by
  have htarget : target dataI n = c.toNat := by
    cases n with
    | zero => omega
    | succ n => rw [target_succ, hc n (by omega)]
  unfold gap
  cases level_moves dataI n with
  | hold h why =>
    refine ⟨by omega, fun htick => ?_⟩
    have hreached : level dataI n = target dataI n := by simpa [htick] using why
    omega
  | up _ hlt h => exact ⟨by omega, fun _ => by omega⟩
  | down _ hlt h => exact ⟨by omega, fun _ => by omega⟩

theorem gap_antitone (hc : ∀ n ≥ n₀, dataI n = c) {m n : ℕ} (hm : n₀ + 1 ≤ m) (hmn : m ≤ n) :
    gap dataI c n ≤ gap dataI c m := by
  induction n, hmn using Nat.le_induction with
  | base => exact Nat.le_refl _
  | succ n hmn ih => exact (gap_succ hc (hm.trans hmn)).1.trans ih

/-- The target is reached after as many periods as steps are missing. -/
theorem exists_gap_eq_zero (hc : ∀ n ≥ n₀, dataI n = c) (d : ℕ) {m : ℕ} (hm : n₀ + 1 ≤ m)
    (hd : gap dataI c m ≤ d) : ∃ N ≥ m, gap dataI c N = 0 := by
  induction d generalizing m with
  | zero => exact ⟨m, Nat.le_refl m, by omega⟩
  | succ d ih =>
    -- the end of the period in which `m` lies
    obtain ⟨t, hmt, htick⟩ : ∃ t ≥ m, g.countMod ∣ t + 1 := by
      have hpos := g.pos
      refine ⟨(m + 1) * g.countMod - 1, ?_, ?_⟩
      · have hle : m + 1 ≤ (m + 1) * g.countMod := Nat.le_mul_of_pos_right _ hpos
        omega
      · rw [Nat.sub_add_cancel (Nat.mul_pos (Nat.succ_pos m) hpos)]
        exact Nat.dvd_mul_left _ _
    have hstep := (gap_succ hc (hm.trans hmt)).2 htick
    have hanti := gap_antitone hc hm hmt
    obtain ⟨N, hN, hzero⟩ := ih (m := t + 1) (by omega) (by omega)
    exact ⟨N, by omega, hzero⟩

theorem level_settles (hc : ∀ n ≥ n₀, dataI n = c) :
    ∃ N, ∀ n ≥ N, level dataI n = c.toNat := by
  obtain ⟨N, hN, hzero⟩ := exists_gap_eq_zero hc _ (Nat.le_refl (n₀ + 1)) (Nat.le_refl _)
  refine ⟨N, fun n hn => ?_⟩
  have hanti := gap_antitone hc hN hn
  unfold gap at hanti hzero
  omega

end Constant

/-- The law of the ramp. -/
theorem ramp_law (dataI : ℕ → BitVec g.dataBits) :
    (∀ n, level dataI (n + 1) = level dataI n ∨
      level dataI n < target dataI n ∧ level dataI (n + 1) = level dataI n + 1 ∨
      target dataI n < level dataI n ∧ level dataI (n + 1) + 1 = level dataI n) ∧
    (∀ m n, m < n → level dataI (m + 1) ≠ level dataI m → level dataI (n + 1) ≠ level dataI n →
      g.countMod ≤ n - m) ∧
    (∀ n, level dataI n = 0 ∨ ∃ k < n, level dataI n ≤ (dataI k).toNat) ∧
    (∀ n₀ c, (∀ n ≥ n₀, dataI n = c) → ∃ N, ∀ n ≥ N, level dataI n = c.toNat) := by
  refine ⟨fun n => ?_, fun m n => period_le_of_changes dataI, level_le dataI,
    fun n₀ c => level_settles⟩
  cases level_moves dataI n with
  | hold h => exact .inl h
  | up _ hlt h => exact .inr (.inl ⟨hlt, h⟩)
  | down _ hlt h => exact .inr (.inr ⟨hlt, h⟩)

end LagoEcosystem.Ramp
