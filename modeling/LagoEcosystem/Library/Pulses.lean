import LagoEcosystem.Library.Clocked
import Mathlib.Data.Nat.Cast.Defs
import Mathlib.Data.Nat.Count
import Mathlib.Data.Nat.Find

/-!
# Pulses

Signals of a design whose inputs never end, indexed by the clock cycle. A signal rises,
two cycles of a set are neighbours, and a counter that every pulse clears holds one less
than the distance from the last pulse when the next one comes.
-/

namespace LagoEcosystem

namespace Clocked

variable {σ ι : Type*} (step : σ → ι → σ) (s : σ) (i : ℕ → ι)

/-- The registers in cycle `n`. -/
def trace (n : ℕ) : σ := run step s ((List.range n).map i)

@[simp] theorem trace_zero : trace step s i 0 = s := rfl

@[simp] theorem trace_succ (n : ℕ) :
    trace step s i (n + 1) = step (trace step s i n) (i n) := by
  simp [trace, List.range_succ]

/-- A run that is looked at from cycle `m` on. -/
theorem trace_add (m n : ℕ) :
    trace step s i (m + n) = trace step (trace step s i m) (fun k => i (m + k)) n := by
  induction n with
  | zero => rfl
  | succ n ih => rw [← Nat.add_assoc, trace_succ, trace_succ, ih]

/-- A part of the registers that follows its own transition function. -/
theorem map_trace {τ κ : Type*} {step : σ → ι → σ} {step' : τ → κ → τ} (f : σ → τ) (i : ℕ → ι)
    (j : ℕ → κ) (hf : ∀ s k, f (step s (i k)) = step' (f s) (j k)) (s : σ) (n : ℕ) :
    f (trace step s i n) = trace step' (f s) j n := by
  induction n with
  | zero => rfl
  | succ n ih => rw [trace_succ, trace_succ, hf, ih]

end Clocked

namespace Pulses

/-- `x` rises in cycle `n`. It was low before cycle 0. -/
def Rising (x : ℕ → Bool) : ℕ → Prop
  | 0 => x 0 = true
  | n + 1 => x n = false ∧ x (n + 1) = true

instance decidableRising (x : ℕ → Bool) : DecidablePred (Rising x)
  | 0 => inferInstanceAs (Decidable (x 0 = true))
  | n + 1 => inferInstanceAs (Decidable (x n = false ∧ x (n + 1) = true))

/-- `m` and `n` are cycles of `P`, and no cycle between them is. -/
structure Consecutive (P : ℕ → Prop) (m n : ℕ) : Prop where
  first : P m
  second : P n
  lt : m < n
  none_between : ∀ k, m < k → k < n → ¬P k

variable {P Q : ℕ → Prop} {m n : ℕ}

/-- The first cycle of `P` after `m`. -/
theorem exists_consecutive (hm : P m) (hn : P n) (h : m < n) :
    ∃ k, k ≤ n ∧ Consecutive P m k := by
  classical
  have hex : ∃ k, m < k ∧ P k := ⟨n, h, hn⟩
  obtain ⟨hlt, hP⟩ := Nat.find_spec hex
  refine ⟨Nat.find hex, Nat.find_min' hex ⟨h, hn⟩, hm, hP, hlt, ?_⟩
  intro k hmk hk hPk
  exact Nat.find_min hex hk ⟨hmk, hPk⟩

/-- Neighbours stay neighbours when the set is moved. -/
theorem Consecutive.shift {d : ℕ} (hPQ : ∀ k, P (k + d) ↔ Q k)
    (h : Consecutive P (m + d) (n + d)) : Consecutive Q m n where
  first := (hPQ m).mp h.first
  second := (hPQ n).mp h.second
  lt := by have := h.lt; omega
  none_between k hmk hk hQ := h.none_between (k + d) (by omega) (by omega) ((hPQ k).mpr hQ)

/-! ### Counters -/

section Counter

variable {α : Type*} [AddMonoidWithOne α] {c : ℕ → α}

/-- A counter that every cycle of `P` clears, in the cycles after one. -/
theorem count_after (hclear : ∀ k, P k → c (k + 1) = 0) (hup : ∀ k, ¬P k → c (k + 1) = c k + 1)
    (hm : P m) (d : ℕ) (hnone : ∀ k, m < k → k < m + 1 + d → ¬P k) : c (m + 1 + d) = d := by
  induction d with
  | zero => rw [Nat.cast_zero, Nat.add_zero, hclear m hm]
  | succ d ih =>
    have hd : c (m + 1 + d) = d := ih fun k hk hkd => hnone k hk (by omega)
    rw [← Nat.add_assoc, hup _ (hnone _ (by omega) (by omega)), hd, Nat.cast_succ]

/-- At the next cycle of `P` the counter misses one of the cycles that have passed. -/
theorem Consecutive.count_eq (h : Consecutive P m n) (hclear : ∀ k, P k → c (k + 1) = 0)
    (hup : ∀ k, ¬P k → c (k + 1) = c k + 1) : c n = ((n - m - 1 : ℕ) : α) := by
  have hlt := h.lt
  have hn : n = m + 1 + (n - m - 1) := by omega
  have hcount := count_after hclear hup h.first (n - m - 1)
    fun k hk hkn => h.none_between k hk (by omega)
  rwa [← hn] at hcount

end Counter

/-! ### Periods -/

/-- A counter of `F` values. -/
theorem succ_mod_eq {F : ℕ} (hF : 0 < F) (n : ℕ) :
    (n + 1) % F = if n % F = F - 1 then 0 else n % F + 1 := by
  have hlt : n % F < F := Nat.mod_lt n hF
  split_ifs with h
  · rw [← Nat.mod_add_mod, h, Nat.sub_add_cancel hF, Nat.mod_self]
  · rw [← Nat.mod_add_mod, Nat.mod_eq_of_lt (by omega)]

/-- The last of `F` values ends a period. -/
theorem dvd_succ_iff {F : ℕ} (hF : 0 < F) (n : ℕ) : F ∣ n + 1 ↔ n % F = F - 1 := by
  rw [Nat.dvd_iff_mod_eq_zero, succ_mod_eq hF]
  split <;> omega

/-- A signal that is high in the first `d` cycles of every period rises where a period
begins. -/
theorem high_again_iff {F d n : ℕ} (hd : 0 < d) (hdF : d < F) :
    ¬n % F < d ∧ (n + 1) % F < d ↔ F ∣ n + 1 := by
  have hlt : n % F < F := Nat.mod_lt n (by omega)
  rw [Nat.dvd_iff_mod_eq_zero, succ_mod_eq (by omega)]
  split_ifs with h
  · have hnd : ¬n % F < d := by omega
    exact iff_of_true ⟨hnd, hd⟩ rfl
  · have hnot : ¬(¬n % F < d ∧ n % F + 1 < d) := fun ⟨hn, hn'⟩ => hn (by omega)
    exact iff_of_false hnot not_false

/-- A counter of `F` values is below `c` in `c` of any `F` cycles that follow one another. -/
theorem count_mod_lt {F c : ℕ} (hc : c ≤ F) (n : ℕ) : Nat.count (fun j => (n + j) % F < c) F = c := by
  have hfirst : Nat.count (fun j => j % F < c) F = c := by
    have hlow : Nat.count (fun j => j % F < c) c = c :=
      Nat.count_iff_forall.mpr fun j hj => by rwa [Nat.mod_eq_of_lt (by omega)]
    have hhigh : Nat.count (fun j => (c + j) % F < c) (F - c) = 0 :=
      Nat.count_iff_forall_not.mpr fun j hj => by rw [Nat.mod_eq_of_lt (by omega)]; omega
    have hsplit := Nat.count_add (fun j => j % F < c) c (F - c)
    rwa [Nat.add_sub_cancel' hc, hlow, hhigh] at hsplit
  have hbefore := Nat.count_add (fun j => j % F < c) n F
  have hbehind := Nat.count_add (fun j => j % F < c) F n
  simp only [Nat.add_mod_left] at hbehind
  rw [Nat.add_comm F n, hfirst] at hbehind
  omega

/-- Neighbours among the multiples of `F` are `F` apart. -/
theorem Consecutive.eq_add_of_dvd {F : ℕ} (hF : 0 < F) (h : Consecutive (F ∣ ·) m n) :
    n = m + F := by
  have hlt := h.lt
  have hdiff : F ∣ n - m := Nat.dvd_sub h.second h.first
  have hle : F ≤ n - m := Nat.le_of_dvd (by omega) hdiff
  have hnot : ¬m + F < n := fun hk =>
    h.none_between (m + F) (by omega) hk (Nat.dvd_add h.first (Nat.dvd_refl F))
  omega

end Pulses

end LagoEcosystem
