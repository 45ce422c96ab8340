import Mathlib.Data.List.Chain
import Mathlib.Order.Interval.Finset.Nat

/-!
# Gaps in a sequence of numbers

Numbers that were received in increasing order, out of a sequence that counts up by one. The
numbers in between that were not received are counted gap by gap. A count that finds at most
what is missing in every gap is right as a whole exactly if it is right for every gap.
-/

namespace LagoEcosystem.SequenceGaps

/-! ## Sums over gaps -/

section GapSum

variable {α β : Type*}

/-- The sum over the pairs of neighbours. -/
def gapSum (gap : α → α → ℕ) : List α → ℕ
  | a :: b :: l => gap a b + gapSum gap (b :: l)
  | _ => 0

@[simp] theorem gapSum_nil (gap : α → α → ℕ) : gapSum gap [] = 0 := rfl
@[simp] theorem gapSum_singleton (gap : α → α → ℕ) (a : α) : gapSum gap [a] = 0 := rfl
@[simp] theorem gapSum_cons_cons (gap : α → α → ℕ) (a b : α) (l : List α) :
    gapSum gap (a :: b :: l) = gap a b + gapSum gap (b :: l) := rfl

theorem gapSum_map (gap : β → β → ℕ) (f : α → β) (l : List α) :
    gapSum gap (l.map f) = gapSum (fun a b => gap (f a) (f b)) l := by
  match l with
  | [] | [_] => rfl
  | a :: b :: l =>
    rw [List.map_cons, List.map_cons, gapSum_cons_cons, ← List.map_cons, gapSum_map gap f (b :: l)]
    rfl

/-- Two sums of which one is at most the other in every gap, and the same in those of `R`. -/
theorem gapSum_eq_iff {gap gap' : α → α → ℕ} {R : α → α → Prop} {l : List α}
    (h : l.IsChain fun a b => gap a b ≤ gap' a b ∧ (gap a b = gap' a b ↔ R a b)) :
    gapSum gap l ≤ gapSum gap' l ∧ (gapSum gap l = gapSum gap' l ↔ l.IsChain R) := by
  match l with
  | [] | [_] => simp
  | a :: b :: l =>
    obtain ⟨⟨hle, hR⟩, hrest⟩ := List.isChain_cons_cons.mp h
    obtain ⟨hsum, heq⟩ := gapSum_eq_iff hrest
    rw [gapSum_cons_cons, gapSum_cons_cons, List.isChain_cons_cons, ← heq, ← hR]
    omega

end GapSum

/-! ## Missing numbers -/

/-- The number of the numbers between the first and the last one that are missing. -/
def missing : List ℕ → ℕ
  | [] => 0
  | n :: ns => ((Finset.Icc n ((n :: ns).getLast (by simp))).filter (· ∉ n :: ns)).card

@[simp] theorem missing_nil : missing [] = 0 := rfl

@[simp] theorem missing_singleton (n : ℕ) : missing [n] = 0 := by
  simp [missing, Finset.filter_eq_empty_iff]

theorem head_le_of_mem {m : ℕ} {ns : List ℕ} (h : (m :: ns).IsChain (· < ·)) :
    ∀ x ∈ m :: ns, m ≤ x := by
  intro x hx
  rcases List.mem_cons.mp hx with rfl | hx
  · exact le_refl _
  · exact ((List.pairwise_cons.mp (List.isChain_iff_pairwise.mp h)).1 x hx).le

/-- What is missing before the number `l` lies in the first gap or behind it. -/
theorem filter_Icc_cons_cons {n m l : ℕ} {ns : List ℕ} (h : (n :: m :: ns).IsChain (· < ·))
    (hl : m ≤ l) :
    (Finset.Icc n l).filter (· ∉ n :: m :: ns) =
      Finset.Ioo n m ∪ (Finset.Icc m l).filter (· ∉ m :: ns) := by
  obtain ⟨hnm, hrest⟩ := List.isChain_cons_cons.mp h
  have hge := head_le_of_mem hrest
  ext x
  simp only [Finset.mem_filter, Finset.mem_union, Finset.mem_Icc, Finset.mem_Ioo]
  constructor
  · rintro ⟨⟨hnx, hxl⟩, hx⟩
    obtain ⟨hne, hx'⟩ := List.ne_and_not_mem_of_not_mem_cons hx
    rcases lt_or_ge x m with hxm | hxm
    · exact .inl ⟨lt_of_le_of_ne hnx (Ne.symm hne), hxm⟩
    · exact .inr ⟨⟨hxm, hxl⟩, hx'⟩
  · rintro (⟨hnx, hxm⟩ | ⟨⟨hxm, hxl⟩, hx⟩)
    · refine ⟨⟨hnx.le, hxm.le.trans hl⟩, List.not_mem_cons_of_ne_of_not_mem hnx.ne' fun hmem => ?_⟩
      exact absurd (hge x hmem) (not_le_of_gt hxm)
    · have hne : x ≠ n := (hnm.trans_le hxm).ne'
      exact ⟨⟨hnm.le.trans hxm, hxl⟩, List.not_mem_cons_of_ne_of_not_mem hne hx⟩

/-- The numbers that are missing in front of the second one are those of the first gap. -/
theorem missing_cons_cons {n m : ℕ} {ns : List ℕ} (h : (n :: m :: ns).IsChain (· < ·)) :
    missing (n :: m :: ns) = (m - n - 1) + missing (m :: ns) := by
  have hlast : m ≤ (m :: ns).getLast (by simp) :=
    head_le_of_mem (List.isChain_cons_cons.mp h).2 _ (List.getLast_mem _)
  have hdisjoint : Disjoint (Finset.Ioo n m)
      ((Finset.Icc m ((m :: ns).getLast (by simp))).filter (· ∉ m :: ns)) := by
    rw [Finset.disjoint_left]
    intro x hx hx'
    rw [Finset.mem_filter, Finset.mem_Icc] at hx'
    rw [Finset.mem_Ioo] at hx
    omega
  rw [missing, missing, List.getLast_cons (by simp), filter_Icc_cons_cons h hlast,
    Finset.card_union_of_disjoint hdisjoint, Nat.card_Ioo]

theorem missing_eq_gapSum {ns : List ℕ} (h : ns.IsChain (· < ·)) :
    missing ns = gapSum (fun n m => m - n - 1) ns := by
  match ns with
  | [] => rfl
  | [n] => exact missing_singleton n
  | n :: m :: ns =>
    rw [missing_cons_cons h, gapSum_cons_cons, missing_eq_gapSum (List.isChain_cons_cons.mp h).2]

end LagoEcosystem.SequenceGaps
