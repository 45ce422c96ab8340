import Mathlib.Data.Nat.ModEq

/-!
# Lagging counters

Two counters run in different clock domains. Each domain sees the other counter late: the
values that have left a counter pass two registers before they are seen. `Safe` says that
the reader never passes what it has seen of the writer, and the writer never runs more
than `depth` ahead of what it has seen of the reader. It holds whatever the order of the
clock edges is, and it bounds the true distance of the two counters.
-/

namespace LagoEcosystem.LaggedCounters

/-- A counter and the two registers behind it. -/
structure Lag where
  now : ℕ
  mid : ℕ
  seen : ℕ

/-- A clock edge, at which the counter counts or not. -/
def Lag.tick (l : Lag) (go : Bool) : Lag := ⟨l.now + go.toNat, l.now, l.mid⟩

/-- A clock edge that the guard `blocked` admits, or none. -/
def Lag.Moves (l l' : Lag) (blocked : Prop) : Prop :=
  l' = l ∨ ∃ go : Bool, l' = l.tick go ∧ (go = true → ¬ blocked)

/-- The order of a writing and a reading counter and their copies. -/
structure Safe (depth : ℕ) (w r : Lag) : Prop where
  readMid : r.seen ≤ r.mid
  readNow : r.mid ≤ r.now
  read : r.now ≤ w.seen
  writtenMid : w.seen ≤ w.mid
  writtenNow : w.mid ≤ w.now
  written : w.now ≤ r.seen + depth

section Safe

variable {depth : ℕ} {w r w' r' : Lag}

theorem safe_zero (depth : ℕ) : Safe depth ⟨0, 0, 0⟩ ⟨0, 0, 0⟩ := by
  constructor <;> simp

/-- Both sides may move at once, each guarded by what it saw before. -/
theorem Safe.move (h : Safe depth w r) (hw : w.Moves w' (w.now = r.seen + depth))
    (hr : r.Moves r' (r.now = w.seen)) : Safe depth w' r' := by
  obtain ⟨h1, h2, h3, h4, h5, h6⟩ := h
  have hwrite : ∀ go : Bool, (go = true → w.now ≠ r.seen + depth) →
      w.now + go.toNat ≤ r.seen + depth := by
    intro go hgo
    cases go with
    | false => exact h6
    | true => exact Nat.lt_of_le_of_ne h6 (hgo rfl)
  have hread : ∀ go : Bool, (go = true → r.now ≠ w.seen) → r.now + go.toNat ≤ w.seen := by
    intro go hgo
    cases go with
    | false => exact h3
    | true => exact Nat.lt_of_le_of_ne h3 (hgo rfl)
  rcases hw with rfl | ⟨go, rfl, hgo⟩ <;> rcases hr with rfl | ⟨go', rfl, hgo'⟩
  · exact ⟨h1, h2, h3, h4, h5, h6⟩
  · have hnow := hread go' hgo'
    exact ⟨h2, Nat.le_add_right _ _, hnow, h4, h5, h6.trans (Nat.add_le_add_right h1 depth)⟩
  · have hnow := hwrite go hgo
    exact ⟨h1, h2, h3.trans h4, h5, Nat.le_add_right _ _, hnow⟩
  · have hwnow := hwrite go hgo
    have hrnow := hread go' hgo'
    exact ⟨h2, Nat.le_add_right _ _, hrnow.trans h4, h5, Nat.le_add_right _ _,
      hwnow.trans (Nat.add_le_add_right h1 depth)⟩

/-- What the other side has seen of a counter lies behind it. -/
theorem Safe.writtenSeen (h : Safe depth w r) : w.seen ≤ w.now := h.writtenMid.trans h.writtenNow
theorem Safe.readSeen (h : Safe depth w r) : r.seen ≤ r.now := h.readMid.trans h.readNow

theorem Safe.read_le_written (h : Safe depth w r) : r.now ≤ w.now := h.read.trans h.writtenSeen

theorem Safe.written_le (h : Safe depth w r) : w.now ≤ r.now + depth :=
  h.written.trans (Nat.add_le_add_right h.readSeen depth)

/-- A queue that is truly full looks full to the writer. -/
theorem Safe.full (h : Safe depth w r) (hfull : w.now = r.now + depth) :
    w.now = r.seen + depth := by
  have := h.written
  have := h.readSeen
  omega

/-- A queue that is truly empty looks empty to the reader. -/
theorem Safe.empty (h : Safe depth w r) (hempty : w.now = r.now) : r.now = w.seen := by
  have := h.read
  have := h.writtenSeen
  omega

end Safe

/-! ## Counters of bounded width -/

/-- Counters that differ by less than the modulus agree if their remainders do. -/
theorem eq_of_mod_eq {a b m : ℕ} (hab : a ≤ b) (hlt : b < a + m) (h : a % m = b % m) : a = b := by
  have hdvd : m ∣ b - a := (Nat.modEq_iff_dvd' hab).mp h
  have hzero : b - a = 0 := Nat.eq_zero_of_dvd_of_lt hdvd (by omega)
  omega

/-- The test of the reader: equal remainders modulo twice the depth. -/
theorem Safe.empty_iff {depth : ℕ} {w r : Lag} (h : Safe depth w r) (hd : 0 < depth) :
    w.seen % (2 * depth) = r.now % (2 * depth) ↔ r.now = w.seen := by
  have := h.written
  have := h.writtenSeen
  have := h.readSeen
  exact ⟨fun hmod => eq_of_mod_eq h.read (by omega) hmod.symm, fun heq => by rw [heq]⟩

/-- The test of the writer: remainders that differ modulo twice the depth and agree modulo
the depth. -/
theorem Safe.full_iff {depth : ℕ} {w r : Lag} (h : Safe depth w r) (hd : 0 < depth) :
    (r.seen % depth = w.now % depth ∧ r.seen % (2 * depth) ≠ w.now % (2 * depth)) ↔
      w.now = r.seen + depth := by
  have hle : r.seen ≤ w.now := h.readSeen.trans h.read_le_written
  have hlt := h.written
  constructor
  · rintro ⟨heq, hne⟩
    by_contra hnot
    exact hne (by rw [eq_of_mod_eq hle (by omega) heq])
  · intro heq
    refine ⟨by rw [heq, Nat.add_mod_right], fun hmod => ?_⟩
    have := eq_of_mod_eq hle (by omega) hmod
    omega

end LagoEcosystem.LaggedCounters
