import Mathlib.Data.List.Induction
import Mathlib.Tactic.Common

/-!
# Loops that consume a stream

A loop reads one input after the other until its state is final. It ends at the first
prefix of the stream that makes the state final, or waits for more, or fails in a step.
-/

namespace LagoEcosystem.Consume

variable {σ ι : Type*}

/-- How a loop can stand after the inputs that there are. -/
inductive Outcome (σ ι : Type*) where
  | final (s : σ) (rest : List ι)
  | waiting (s : σ)
  | failed

/-- `while (!done) step`, reading one input in each round. -/
def consume (done : σ → Bool) (step : σ → ι → Option σ) : σ → List ι → Outcome σ ι
  | s, is =>
    if done s then .final s is
    else
      match is with
      | [] => .waiting s
      | i :: is =>
        match step s i with
        | none => .failed
        | some s => consume done step s is

/-- The inputs `used` are the shortest prefix that makes the state final. -/
structure Completes (done : σ → Bool) (f : σ → ι → σ) (s : σ) (used : List ι) : Prop where
  ends : done (used.foldl f s) = true
  earlier : ∀ p, p <+: used → p ≠ used → done (p.foldl f s) = false

section Total

variable {done : σ → Bool} {step : σ → ι → Option σ} {f : σ → ι → σ}

theorem completes_nil {s : σ} : Completes done f s [] ↔ done s = true := by
  constructor
  · exact fun h => h.ends
  · exact fun h => ⟨h, fun p hp hne => absurd (List.prefix_nil.mp hp) hne⟩

theorem completes_cons {s : σ} {i : ι} {used : List ι} :
    Completes done f s (i :: used) ↔ done s = false ∧ Completes done f (f s i) used := by
  constructor
  · intro h
    refine ⟨h.earlier [] List.nil_prefix (by simp), h.ends, fun p hp hne => ?_⟩
    exact h.earlier (i :: p) (List.cons_prefix_cons.mpr ⟨rfl, hp⟩) (by simpa using hne)
  · rintro ⟨hs, h⟩
    refine ⟨h.ends, fun p hp hne => ?_⟩
    cases p with
    | nil => exact hs
    | cons j p =>
      obtain ⟨rfl, hpre⟩ := List.cons_prefix_cons.mp hp
      exact h.earlier p hpre (by simpa using hne)

/-- Nothing is read in a final state. -/
theorem completes_of_done_iff {s : σ} {used : List ι} (hs : done s = true) :
    Completes done f s used ↔ used = [] := by
  cases used with
  | nil => simp [completes_nil, hs]
  | cons i used => simp [completes_cons, hs]

/-! ### One round -/

section Round

variable {s t : σ} {i : ι} {is : List ι}

theorem consume_of_done (hs : done s = true) : consume done step s is = .final s is := by
  unfold consume
  exact if_pos hs

theorem consume_nil (hs : done s = false) : consume done step s [] = .waiting s := by
  rw [consume, if_neg (Bool.eq_false_iff.mp hs)]

theorem consume_cons (hs : done s = false) (hi : step s i = some t) :
    consume done step s (i :: is) = consume done step t is := by
  rw [consume, if_neg (Bool.eq_false_iff.mp hs)]
  simp only [hi]

end Round

/-! ### Whole loops -/

theorem consume_final_of_done {s : σ} (hs : done s = true) (is : List ι) (s' : σ)
    (rest : List ι) :
    consume done step s is = .final s' rest ↔
      ∃ used, is = used ++ rest ∧ Completes done f s used ∧ s' = used.foldl f s := by
  rw [consume_of_done hs]
  constructor
  · rintro ⟨⟩
    exact ⟨[], rfl, completes_nil.mpr hs, rfl⟩
  · rintro ⟨used, rfl, hused, rfl⟩
    obtain rfl := (completes_of_done_iff hs).mp hused
    rfl

/-- A loop whose steps succeed ends exactly after the shortest prefix that completes it. -/
theorem consume_eq_final_iff {is : List ι} (hstep : ∀ s, ∀ i ∈ is, step s i = some (f s i))
    (s s' : σ) (rest : List ι) :
    consume done step s is = .final s' rest ↔
      ∃ used, is = used ++ rest ∧ Completes done f s used ∧ s' = used.foldl f s := by
  induction is generalizing s with
  | nil =>
    cases hs : done s with
    | true => exact consume_final_of_done hs [] s' rest
    | false =>
      rw [consume_nil hs]
      constructor
      · rintro ⟨⟩
      · rintro ⟨used, happ, hused, -⟩
        obtain ⟨rfl, rfl⟩ := List.append_eq_nil_iff.mp happ.symm
        rw [completes_nil, hs] at hused
        contradiction
  | cons i is ih =>
    cases hs : done s with
    | true => exact consume_final_of_done hs (i :: is) s' rest
    | false =>
      rw [consume_cons hs (hstep s i (by simp)),
        ih (fun s j hj => hstep s j (by simp [hj])) (f s i)]
      constructor
      · rintro ⟨used, rfl, hused, rfl⟩
        exact ⟨i :: used, rfl, completes_cons.mpr ⟨hs, hused⟩, rfl⟩
      · rintro ⟨used, happ, hused, rfl⟩
        cases used with
        | nil =>
          rw [completes_nil, hs] at hused
          contradiction
        | cons j used =>
          obtain ⟨rfl, rfl⟩ := List.cons.inj happ
          exact ⟨used, rfl, (completes_cons.mp hused).2, rfl⟩

/-- It waits exactly while no prefix completes it. -/
theorem consume_eq_waiting_iff {is : List ι} (hstep : ∀ s, ∀ i ∈ is, step s i = some (f s i))
    (s : σ) : (∃ s', consume done step s is = .waiting s') ↔
      ∀ p, p <+: is → done (p.foldl f s) = false := by
  induction is generalizing s with
  | nil =>
    cases hs : done s with
    | true => simp [consume_of_done hs, hs]
    | false => simp [consume_nil hs, hs]
  | cons i is ih =>
    cases hs : done s with
    | true =>
      rw [consume_of_done hs]
      constructor
      · rintro ⟨s', ⟨⟩⟩
      · intro h
        simpa [hs] using h [] List.nil_prefix
    | false =>
      rw [consume_cons hs (hstep s i (by simp)),
        ih (fun s j hj => hstep s j (by simp [hj])) (f s i)]
      constructor
      · intro h p hp
        cases p with
        | nil => exact hs
        | cons j p =>
          obtain ⟨rfl, hpre⟩ := List.cons_prefix_cons.mp hp
          exact h p hpre
      · exact fun h p hp => h (i :: p) (List.cons_prefix_cons.mpr ⟨rfl, hp⟩)

theorem consume_ne_failed {is : List ι} (hstep : ∀ s, ∀ i ∈ is, step s i = some (f s i))
    (s : σ) : consume done step s is ≠ .failed := by
  induction is generalizing s with
  | nil =>
    cases hs : done s with
    | true => simp [consume_of_done hs]
    | false => simp [consume_nil hs]
  | cons i is ih =>
    cases hs : done s with
    | true => simp [consume_of_done hs]
    | false =>
      rw [consume_cons hs (hstep s i (by simp))]
      exact ih (fun s j hj => hstep s j (by simp [hj])) (f s i)

end Total

/-! ## What the last update left -/

/-- A part of the state that some inputs overwrite holds what the last of them wrote. -/
theorem foldl_last {α : Type*} {f : σ → ι → σ} (part : σ → α) (upd : ι → Option α)
    (hstep : ∀ s i, part (f s i) = (upd i).getD (part s)) (s : σ) (is : List ι) :
    part (is.foldl f s) = ((is.filterMap upd).getLast?).getD (part s) := by
  induction is using List.reverseRecOn with
  | nil => rfl
  | append_singleton is i ih =>
    rw [List.foldl_append, List.foldl_cons, List.foldl_nil, hstep, ih, List.filterMap_append]
    cases hi : upd i with
    | none => simp [hi]
    | some a => simp [hi]

/-- Something was written last as soon as one of the inputs writes. -/
theorem exists_last {α : Type*} {upd : ι → Option α} {is : List ι} {i : ι} {a : α} (hi : i ∈ is)
    (ha : upd i = some a) : ∃ b, (is.filterMap upd).getLast? = some b := by
  refine Option.ne_none_iff_exists'.mp fun hnone => ?_
  have hmem : a ∈ is.filterMap upd := List.mem_filterMap.mpr ⟨i, hi, ha⟩
  exact List.ne_nil_of_mem hmem (List.getLast?_eq_none_iff.mp hnone)

end LagoEcosystem.Consume
