import LagoEcosystem.Pps.Core
import LagoEcosystem.Reader.Language

/-!
# Pulses and counts

The pulses of the generator after a reset, for every external signal and every selection
of the source. Each rising edge of the selected signal makes one pulse, in the cycle after
it. The internal signal rises every `CLK_FREQ` cycles, once it was low at the reset. The
count is cleared at the end of the cycle of a pulse and counts from zero in the next one,
so that it is always one less than the distance from the last pulse.
-/

namespace LagoEcosystem.Pps

open Clocked Pulses

/-- A run after a reset: what `false_pps` was left at, and the inputs of every cycle. -/
structure Run where
  falsePps : Bool
  ppsI : ℕ → Bool
  gpsenI : ℕ → Bool

namespace Run

variable (g : Generics) (r : Run)

def input (n : ℕ) : In := .running (r.ppsI n) (r.gpsenI n)

/-- The registers in cycle `n`. -/
def regs (n : ℕ) : St := trace (step g) (.reset r.falsePps) r.input n

def out (n : ℕ) : Out := (r.regs g n).out (r.input n)

/-- The signal behind the multiplexer as the clock samples it in cycle `n`. -/
def selected (n : ℕ) : Bool := (r.regs g n).pps (r.input n)

/-- The internal signal, in terms of the cycle alone: at first as the reset left it, then
high in the first fifth of every second. -/
def internal : ℕ → Bool
  | 0 => r.falsePps
  | n + 1 => decide (n % g.clkFreq < g.clkFreq / 5)

/-- The selected source in terms of the inputs. -/
def source (n : ℕ) : Bool := if r.gpsenI n then r.internal g n else r.ppsI n

def Pulse (n : ℕ) : Prop := (r.out g n).ppsO = true

instance : DecidablePred (r.Pulse g) := fun n =>
  inferInstanceAs (Decidable ((r.out g n).ppsO = true))

/-- What is expected of the first `N` cycles of a run. -/
structure PulseLaw (N : ℕ) : Prop where
  once : ∀ n, n ≤ N → (r.Pulse g n ↔ ∃ k, n = k + 1 ∧ Rising (r.selected g) k)
  period : (∀ n, n < N → r.gpsenI n = true) →
    ∀ m n, n ≤ N → Consecutive (r.Pulse g) m n → n = m + g.clkFreq
  count : ∀ m n, n ≤ N → Consecutive (r.Pulse g) m n →
    (r.out g n).clkCntPpsO = BitVec.ofNat 27 (n - m)

variable {g r} {m n N : ℕ}

@[simp] theorem regs_zero : r.regs g 0 = .reset r.falsePps := rfl

theorem regs_succ (n : ℕ) :
    r.regs g (n + 1) =
      ⟨(r.regs g n).oneSecCntNext g, (r.regs g n).clkCntPpsNext, (r.regs g n).falsePpsNext g,
        (r.regs g n).ppsStReg.next (r.selected g n)⟩ := by
  rw [regs, trace_succ]
  exact step_running g _ _ _

/-! ## One pulse for each rising edge -/

theorem pulse_iff_edge (n : ℕ) : r.Pulse g n ↔ (r.regs g n).ppsStReg = .edge :=
  PpsStT.oneClkPps_iff _

theorem not_pulse_zero : ¬r.Pulse g 0 := by
  rw [pulse_iff_edge, regs_zero]
  exact nofun

/-- Every rising edge makes a pulse in the cycle after it, and nothing else does. -/
theorem pulse_succ_iff (n : ℕ) : r.Pulse g (n + 1) ↔ Rising (r.selected g) n := by
  rw [pulse_iff_edge, regs_succ, PpsStT.next_eq_edge_iff]
  cases n with
  | zero => simp [Rising, St.reset]
  | succ n => rw [regs_succ, PpsStT.next_eq_zero_iff, Rising]

theorem pulse_iff (n : ℕ) : r.Pulse g n ↔ ∃ k, n = k + 1 ∧ Rising (r.selected g) k := by
  cases n with
  | zero => simp [not_pulse_zero]
  | succ n => simp [pulse_succ_iff]

/-! ## The count -/

/-- The count misses the cycle in which it is cleared. -/
theorem count_at_pulse (h : Consecutive (r.Pulse g) m n) :
    (r.out g n).clkCntPpsO = BitVec.ofNat 27 (n - m - 1) := by
  have hclear (k : ℕ) (hk : r.Pulse g k) : (r.regs g (k + 1)).clkCntPps = 0 := by
    rw [regs_succ]
    exact if_pos hk
  have hup (k : ℕ) (hk : ¬r.Pulse g k) :
      (r.regs g (k + 1)).clkCntPps = (r.regs g k).clkCntPps + 1 := by
    rw [regs_succ]
    exact if_neg hk
  exact h.count_eq (c := fun k => (r.regs g k).clkCntPps) hclear hup

theorem count_ne (h : m < n) : BitVec.ofNat 27 (n - m - 1) ≠ BitVec.ofNat 27 (n - m) := by
  intro heq
  have hmod := congrArg BitVec.toNat heq
  rw [BitVec.toNat_ofNat, BitVec.toNat_ofNat] at hmod
  omega

/-! ## The sources -/

/-- The divider counts the cycles of a second. -/
theorem oneSecCnt_eq (n : ℕ) : (r.regs g n).oneSecCnt.toNat = n % g.clkFreq := by
  induction n with
  | zero => rw [regs_zero, Nat.zero_mod]; rfl
  | succ n ih =>
    have hlt : n % g.clkFreq < g.clkFreq := Nat.mod_lt n g.pos
    have hfits := g.fits
    rw [regs_succ, succ_mod_eq g.pos]
    dsimp only [St.oneSecCntNext]
    rw [ih]
    split_ifs with h
    · rfl
    · have hone : (1 : BitVec 27).toNat = 1 := rfl
      rw [BitVec.toNat_add, ih, hone, Nat.mod_eq_of_lt (by omega)]

theorem falsePps_eq (n : ℕ) : (r.regs g n).falsePps = r.internal g n := by
  cases n with
  | zero => rfl
  | succ n => rw [regs_succ, internal, ← oneSecCnt_eq (r := r) n, St.falsePpsNext]

theorem selected_eq_source : r.selected g = r.source g := by
  funext n
  rw [selected, St.pps, falsePps_eq, source]
  rfl

/-! ## The internal source -/

section Internal

variable (hg : ∀ n, r.gpsenI n = true)
include hg

theorem selected_internal (n : ℕ) : r.selected g n = r.internal g n := by
  rw [selected_eq_source, source, if_pos (hg n)]

/-- The first pulse comes one cycle earlier when the reset met the internal signal high. -/
theorem pulse_one_or_two_iff :
    (r.Pulse g 1 ↔ r.falsePps = true) ∧ (r.Pulse g 2 ↔ r.falsePps = false) := by
  have hhigh : r.internal g 1 = true := by
    rw [internal, Nat.zero_mod]
    exact decide_eq_true g.fifth_pos
  rw [pulse_succ_iff, pulse_succ_iff, Rising, Rising, selected_internal hg, selected_internal hg,
    hhigh, internal]
  simp

/-- Every other pulse ends the second cycle of a second. -/
theorem pulse_add_three_iff (n : ℕ) : r.Pulse g (n + 3) ↔ g.clkFreq ∣ n + 1 := by
  rw [pulse_succ_iff, Rising, selected_internal hg, selected_internal hg, internal, internal,
    decide_eq_false_iff_not, decide_eq_true_iff]
  exact high_again_iff g.fifth_pos g.fifth_lt

/-- Pulses of the internal source are `CLK_FREQ` cycles apart if the reset met its signal
low. -/
theorem internal_period (hlow : r.falsePps = false) (h : Consecutive (r.Pulse g) m n) :
    n = m + g.clkFreq := by
  obtain ⟨hone, htwo⟩ := pulse_one_or_two_iff hg
  have hfrom (k : ℕ) (hk : r.Pulse g k) : 2 ≤ k := by
    rcases k with _ | _ | k
    · exact absurd hk not_pulse_zero
    · rw [hone, hlow] at hk
      contradiction
    · omega
  have hshift (k : ℕ) : r.Pulse g (k + 2) ↔ g.clkFreq ∣ k := by
    cases k with
    | zero => simp [htwo, hlow]
    | succ k => exact pulse_add_three_iff hg k
  obtain ⟨m, rfl⟩ := Nat.exists_eq_add_of_le' (hfrom m h.first)
  obtain ⟨n, rfl⟩ := Nat.exists_eq_add_of_le' (hfrom n h.second)
  have heq := (h.shift hshift).eq_add_of_dvd g.pos
  omega

/-- The first interval is a cycle too long if the reset met the signal high. -/
theorem internal_first_interval (hhigh : r.falsePps = true) :
    Consecutive (r.Pulse g) 1 (g.clkFreq + 2) := by
  obtain ⟨hone, htwo⟩ := pulse_one_or_two_iff hg
  have hpos := g.pos
  have hlast : g.clkFreq + 2 = g.clkFreq - 1 + 3 := by omega
  refine ⟨hone.mpr hhigh, ?_, by omega, ?_⟩
  · rw [hlast, pulse_add_three_iff hg, Nat.sub_add_cancel hpos]
  · intro k hk hkF hpulse
    rcases k with _ | _ | _ | k
    · omega
    · omega
    · rw [htwo, hhigh] at hpulse
      contradiction
    · rw [pulse_add_three_iff hg] at hpulse
      have hle := Nat.le_of_dvd (Nat.succ_pos k) hpulse
      omega

end Internal

/-! ## The law -/

/-- The count is wrong at every pulse but the first, so that the law holds exactly as long
as the selected source has risen no more than once. -/
theorem pulseLaw_iff (g : Generics) (r : Run) (N : ℕ) :
    r.PulseLaw g N ↔ ∀ m n, m < N → n < N → Rising (r.source g) m → Rising (r.source g) n →
      m = n := by
  rw [← selected_eq_source]
  constructor
  · intro law
    have hle (m n : ℕ) (hm : Rising (r.selected g) m) (hn : Rising (r.selected g) n)
        (hN : n < N) : ¬m < n := by
      intro hlt
      obtain ⟨k, hk, hnext⟩ := exists_consecutive ((pulse_succ_iff m).mpr hm)
        ((pulse_succ_iff n).mpr hn) (Nat.succ_lt_succ hlt)
      have hcount := law.count _ k (by omega) hnext
      rw [count_at_pulse hnext] at hcount
      exact count_ne hnext.lt hcount
    intro m n hmN hnN hm hn
    have hmn := hle m n hm hn hnN
    have hnm := hle n m hn hm hmN
    omega
  · intro hone
    have hnone (m n : ℕ) (hN : n ≤ N) : ¬Consecutive (r.Pulse g) m n := by
      rintro ⟨hm, hn, hlt, -⟩
      obtain ⟨j, rfl, hj⟩ := (pulse_iff m).mp hm
      obtain ⟨k, rfl, hk⟩ := (pulse_iff n).mp hn
      have hjk := hone j k (by omega) (by omega) hj hk
      omega
    exact ⟨fun n _ => pulse_iff n, fun _ m n hN h => absurd h (hnone m n hN),
      fun m n hN h => absurd h (hnone m n hN)⟩

/-- With a clock of exactly 125 MHz and the internal source, the second pulse comes with
124999999. -/
theorem internal_not_pulseLaw :
    ¬Run.PulseLaw .default ⟨false, fun _ => false, fun _ => true⟩ 125000002 := by
  intro law
  have hfirst := (pulse_one_or_two_iff (g := .default)
    (r := ⟨false, fun _ => false, fun _ => true⟩) (fun _ => rfl)).2.mpr rfl
  have hsecond := (pulse_add_three_iff (g := .default)
    (r := ⟨false, fun _ => false, fun _ => true⟩) (fun _ => rfl) 124999999).mpr (by decide)
  obtain ⟨k, hk, hnext⟩ := exists_consecutive hfirst hsecond (by decide)
  have hcount := law.count 2 k hk hnext
  rw [count_at_pulse hnext] at hcount
  exact count_ne hnext.lt hcount

end Run

/-! ## The frequency word -/

/-- What the reader prints as the frequency when the trigger is fed by the generator. -/
theorem frequency_printed {g : Generics} {r : Run} {m n : ℕ} {t : Trigger.Generics}
    (s : Trigger.St t) {i : Trigger.In} (hreset : i.aresetn = true)
    (hpps : i.ppsI = (r.out g n).ppsO) (hcnt : i.clkCntPpsI = (r.out g n).clkCntPpsO)
    (h : Consecutive (r.Pulse g) m n) :
    Reader.decode ((Trigger.step s i).arrayPpsReg 10) =
      .frequency ((n - m - 1) % 2 ^ 27) := by
  have hpulse : i.ppsI = true := hpps.trans h.second
  have hword : (Trigger.step s i).arrayPpsReg 10 = (s.metadata i).word 10 := by
    simp [Trigger.step, Trigger.St.next, hreset, hpulse]
  rw [hword, Reader.decode_metadata_word (s.metadata i) 10 _ rfl]
  congr 1
  rw [Trigger.St.metadata, hcnt, Run.count_at_pulse h, BitVec.toNat_ofNat]

end LagoEcosystem.Pps
