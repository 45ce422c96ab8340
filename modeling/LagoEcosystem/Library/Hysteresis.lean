import LagoEcosystem.Library.Pulses

/-!
# Hysteresis

A detector tells on which of two sides a signal is. It switches to a side only when the
signal leaves that side's flag armed, and a flag is armed by a sample that lies clearly
beyond the threshold. A sample in between, however often it changes sides, arms nothing.
-/

namespace LagoEcosystem.Hysteresis

open Clocked

variable {α : Type*}

/-- The two sides of a signal. A sample that is beyond the threshold of a side is on it. -/
structure Rule (α : Type*) where
  side : α → Bool
  beyond : Bool → α → Bool
  beyond_side : ∀ p x, beyond p x = true → side x = p

/-- The side of the last sample, a flag for each side and the output. -/
@[ext] structure St where
  side : Bool
  armed : Bool → Bool
  out : Bool

/-- The signal leaves the side `p`, whose flag is armed. -/
def St.leaves (R : Rule α) (s : St) (p : Bool) (x : α) : Bool :=
  s.side == p && R.side x != p && s.armed p

def St.next (R : Rule α) (s : St) (x : α) : St where
  side := R.side x
  armed p := R.beyond p x || (s.armed p && !s.leaves R p x)
  out := if s.leaves R true x then true else if s.leaves R false x then false else s.out

variable {R : Rule α} {s : St} {x : ℕ → α} {p : Bool} {n : ℕ}

/-- The output changes to `p` only if the signal leaves the side `p`. -/
theorem St.leaves_of_change {y : α} (hout : s.out ≠ p) (hnext : (s.next R y).out = p) :
    s.leaves R p y = true := by
  cases p <;> cases ht : s.leaves R true y <;> cases hf : s.leaves R false y <;>
    simp_all [next]

/-- A flag that is armed means that the signal is on its side. -/
def Sided (s : St) : Prop := ∀ p, s.armed p = true → s.side = p

theorem Sided.next (hs : Sided s) (y : α) : Sided (s.next R y) := by
  intro p hp
  by_cases hb : R.beyond p y = true
  case pos => exact R.beyond_side p y hb
  case neg =>
    obtain ⟨harm, hstay⟩ : s.armed p = true ∧ s.leaves R p y = false := by
      simpa [St.next, hb] using hp
    have hsame : R.side y = p := by simpa [St.leaves, harm, hs p harm] using hstay
    exact hsame

theorem sided_trace (hs : ∀ p, s.armed p = false) (n : ℕ) : Sided (trace (St.next R) s x n) := by
  induction n with
  | zero =>
    intro p hp
    simp [hs p] at hp
  | succ n ih =>
    rw [trace_succ]
    exact ih.next _

/-- While the signal stays on its side the output does not move. -/
theorem out_of_stay {y : α} (hs : s.side = R.side y) : (s.next R y).out = s.out := by
  have hnot : ∀ q, s.leaves R q y = false := fun q => by
    cases q <;> cases hy : R.side y <;> simp [St.leaves, hs, hy]
  simp [St.next, hnot]

/-- An armed flag was armed by a sample beyond its threshold, and the output has not moved
since the next one. -/
theorem armed_since (hs : ∀ p, s.armed p = false)
    (h : (trace (St.next R) s x n).armed p = true) :
    ∃ m < n, R.beyond p (x m) = true ∧
      ∀ k, m < k → k < n →
        (trace (St.next R) s x (k + 1)).out = (trace (St.next R) s x k).out := by
  induction n with
  | zero => simp [hs p] at h
  | succ n ih =>
    rw [trace_succ] at h
    by_cases hb : R.beyond p (x n) = true
    case pos =>
      refine ⟨n, Nat.lt_succ_self n, hb, ?_⟩
      intro k hnk hkn
      omega
    case neg =>
      obtain ⟨harm, hstay⟩ : (trace (St.next R) s x n).armed p = true ∧
          (trace (St.next R) s x n).leaves R p (x n) = false := by
        simpa [St.next, hb] using h
      have hside : (trace (St.next R) s x n).side = p := sided_trace hs n p harm
      have hsame : R.side (x n) = p := by simpa [St.leaves, harm, hside] using hstay
      obtain ⟨m, hmn, hm, hnone⟩ := ih harm
      refine ⟨m, Nat.lt_succ_of_lt hmn, hm, ?_⟩
      intro k hmk hkn
      rcases Nat.lt_succ_iff_lt_or_eq.mp hkn with hk | rfl
      · exact hnone k hmk hk
      · rw [trace_succ]
        exact out_of_stay (hside.trans hsame.symm)

/-- The law of the detector: a change to `p` follows a sample beyond the threshold of `p`,
with no other change after that sample. -/
theorem change_since (hs : ∀ p, s.armed p = false)
    (hout : (trace (St.next R) s x n).out ≠ p)
    (hnext : (trace (St.next R) s x (n + 1)).out = p) :
    ∃ m < n, R.beyond p (x m) = true ∧
      ∀ k, m < k → k < n →
        (trace (St.next R) s x (k + 1)).out = (trace (St.next R) s x k).out := by
  rw [trace_succ] at hnext
  have hleaves := St.leaves_of_change hout hnext
  have harm : (trace (St.next R) s x n).armed p = true := by
    simp only [St.leaves, Bool.and_eq_true] at hleaves
    exact hleaves.2
  exact armed_since hs harm

/-- A signal between the thresholds never moves the output. -/
theorem out_of_between (hs : ∀ p, s.armed p = false)
    (h : ∀ k < n, ∀ p, R.beyond p (x k) = false) : (trace (St.next R) s x n).out = s.out := by
  induction n with
  | zero => rfl
  | succ n ih =>
    rw [← ih fun k hk => h k (Nat.lt_succ_of_lt hk)]
    by_contra hne
    obtain ⟨m, hm, hb, -⟩ := change_since hs (Ne.symm hne) rfl
    rw [h m (Nat.lt_succ_of_lt hm)] at hb
    exact Bool.false_ne_true hb

end LagoEcosystem.Hysteresis
