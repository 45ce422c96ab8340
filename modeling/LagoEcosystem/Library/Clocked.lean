import Mathlib.Data.List.Induction

/-!
# Clocked machines

A synchronous design is a transition function `step` from the registers before a
clock edge and the inputs at it to the registers after it. A run is a list of
inputs, one for each clock cycle. `collect` gathers what an observer sees in each
cycle, `tally` counts the cycles that meet a test, `Along` says that every step of a run
meets a condition, and the rules below turn a fact about one step into a fact about the run.
-/

namespace LagoEcosystem.Clocked

variable {σ τ ι κ ο : Type*}

/-- The registers after the cycles of `is`. -/
def run (step : σ → ι → σ) (s : σ) (is : List ι) : σ := is.foldl step s

/-- The observations of the cycles of `is`, in order. A cycle can show any number of
them; `out` sees the registers before the edge and the inputs at it. -/
def collect (step : σ → ι → σ) (out : σ → ι → List ο) : σ → List ι → List ο
  | _, [] => []
  | s, i :: is => out s i ++ collect step out (step s i) is

/-- The number of cycles in which `p` holds. -/
def tally (step : σ → ι → σ) (p : σ → ι → Bool) : σ → List ι → ℕ
  | _, [] => 0
  | s, i :: is => (p s i).toNat + tally step p (step s i) is

/-- Every step of the run meets `C`. -/
def Along (step : σ → ι → σ) (C : σ → ι → Prop) : σ → List ι → Prop
  | _, [] => True
  | s, i :: is => C s i ∧ Along step C (step s i) is

instance decidableAlong (step : σ → ι → σ) (C : σ → ι → Prop) [∀ s i, Decidable (C s i)] :
    ∀ s is, Decidable (Along step C s is)
  | _, [] => .isTrue trivial
  | s, i :: is =>
    haveI := decidableAlong step C (step s i) is
    inferInstanceAs (Decidable (C s i ∧ Along step C (step s i) is))

section Equations

variable (step : σ → ι → σ) (out : σ → ι → List ο) (p : σ → ι → Bool) (C : σ → ι → Prop)

@[simp] theorem run_nil (s : σ) : run step s [] = s := rfl
@[simp] theorem run_cons (s : σ) (i : ι) (is : List ι) :
    run step s (i :: is) = run step (step s i) is := rfl
@[simp] theorem run_append (s : σ) (is js : List ι) :
    run step s (is ++ js) = run step (run step s is) js := List.foldl_append

@[simp] theorem collect_nil (s : σ) : collect step out s [] = [] := rfl
@[simp] theorem collect_cons (s : σ) (i : ι) (is : List ι) :
    collect step out s (i :: is) = out s i ++ collect step out (step s i) is := rfl

@[simp] theorem collect_append (s : σ) (is js : List ι) :
    collect step out s (is ++ js) =
      collect step out s is ++ collect step out (run step s is) js := by
  induction is generalizing s with
  | nil => rfl
  | cons i is ih => simp [ih]

@[simp] theorem tally_nil (s : σ) : tally step p s [] = 0 := rfl
@[simp] theorem tally_cons (s : σ) (i : ι) (is : List ι) :
    tally step p s (i :: is) = (p s i).toNat + tally step p (step s i) is := rfl

@[simp] theorem tally_append (s : σ) (is js : List ι) :
    tally step p s (is ++ js) = tally step p s is + tally step p (run step s is) js := by
  induction is generalizing s with
  | nil => simp
  | cons i is ih => simp [ih, Nat.add_assoc]

@[simp] theorem along_nil (s : σ) : Along step C s [] := trivial
@[simp] theorem along_cons (s : σ) (i : ι) (is : List ι) :
    Along step C s (i :: is) ↔ C s i ∧ Along step C (step s i) is := Iff.rfl

@[simp] theorem along_append (s : σ) (is js : List ι) :
    Along step C s (is ++ js) ↔ Along step C s is ∧ Along step C (run step s is) js := by
  induction is generalizing s with
  | nil => simp
  | cons i is ih => simp [ih, and_assoc]

end Equations

section Rules

variable {step : σ → ι → σ} {out : σ → ι → List ο} {C D : σ → ι → Prop}

theorem Along.mono {s : σ} {is : List ι} (h : Along step C s is)
    (hCD : ∀ s i, C s i → D s i) : Along step D s is := by
  induction is generalizing s with
  | nil => trivial
  | cons i is ih => exact ⟨hCD s i h.1, ih h.2⟩

theorem along_and {s : σ} {is : List ι} :
    Along step (fun s i => C s i ∧ D s i) s is ↔ Along step C s is ∧ Along step D s is := by
  induction is generalizing s with
  | nil => simp
  | cons i is ih => simp [ih, and_and_and_comm]

theorem Along.and {s : σ} {is : List ι} (hC : Along step C s is) (hD : Along step D s is) :
    Along step (fun s i => C s i ∧ D s i) s is := along_and.mpr ⟨hC, hD⟩

/-- A condition on the inputs alone holds along the run as soon as every input meets it. -/
theorem along_of_forall {K : ι → Prop} (step : σ → ι → σ) (s : σ) {is : List ι}
    (h : ∀ i ∈ is, K i) : Along step (fun _ i => K i) s is := by
  induction is generalizing s with
  | nil => trivial
  | cons i is ih => exact ⟨h i (by simp), ih _ fun j hj => h j (by simp [hj])⟩

/-- A condition holds along a run if it holds at every cycle of it. -/
theorem along_of_forall_snoc {s : σ} {is : List ι}
    (h : ∀ js i, js ++ [i] <+: is → C (run step s js) i) : Along step C s is := by
  induction is using List.reverseRecOn with
  | nil => trivial
  | append_singleton is i ih =>
    have his : Along step C s is := ih fun js j hj => h js j (hj.trans (List.prefix_append _ _))
    exact (along_append step C s is [i]).mpr ⟨his, h is i List.prefix_rfl, trivial⟩

/-- What a condition says about the inputs alone holds of every input. -/
theorem Along.forall_input {K : ι → Prop} {s : σ} {is : List ι} (h : Along step C s is)
    (hK : ∀ s i, C s i → K i) : ∀ i ∈ is, K i := by
  induction is generalizing s with
  | nil => simp
  | cons i is ih => exact List.forall_mem_cons.mpr ⟨hK s i h.1, ih h.2⟩

theorem Along.of_isPrefix {s : σ} {is js : List ι} (h : Along step C s is) (hjs : js <+: is) :
    Along step C s js := by
  obtain ⟨ks, rfl⟩ := hjs
  exact ((along_append step C s js ks).mp h).1

/-- The cycles of a run by their numbers. -/
theorem along_iff_getElem? {s : σ} {is : List ι} :
    Along step C s is ↔ ∀ n i, is[n]? = some i → C (run step s (is.take n)) i := by
  induction is generalizing s with
  | nil => simp
  | cons i is ih =>
    rw [along_cons, ih]
    constructor
    case mp =>
      rintro ⟨hi, his⟩ n j hj
      cases n with
      | zero =>
        obtain rfl := Option.some.inj hj
        exact hi
      | succ n => exact his n j hj
    case mpr => exact fun h => ⟨h 0 i rfl, fun n j hj => h (n + 1) j hj⟩

/-- Induction on the cycles that have passed, for a fact about everything observed in them. -/
theorem Along.induction_on_past {P : List ι → Prop} {s : σ} {is : List ι}
    (h : Along step C s is) (nil : P [])
    (snoc : ∀ js i, Along step C s js → P js → C (run step s js) i → P (js ++ [i])) : P is := by
  induction is using List.reverseRecOn with
  | nil => exact nil
  | append_singleton js i ih =>
    obtain ⟨hjs, hi⟩ := (along_append step C s js [i]).mp h
    exact snoc js i hjs (ih hjs) hi.1

/-- The invariant rule. -/
theorem Along.invariant {P : σ → Prop} {s : σ} {is : List ι} (h : Along step C s is)
    (hs : P s) (hstep : ∀ s i, P s → C s i → P (step s i)) : P (run step s is) := by
  induction is generalizing s with
  | nil => exact hs
  | cons i is ih => exact ih h.2 (hstep s i hs h.1)

/-- An invariant may be used to discharge the condition of the steps it holds before. -/
theorem Along.strengthen {P : σ → Prop} {s : σ} {is : List ι} (h : Along step C s is)
    (hs : P s) (hstep : ∀ s i, P s → C s i → P (step s i)) :
    Along step (fun s i => P s ∧ C s i) s is := by
  induction is generalizing s with
  | nil => trivial
  | cons i is ih => exact ⟨⟨hs, h.1⟩, ih h.2 (hstep s i hs h.1)⟩

/-- Two conditions that agree under an invariant hold along the same runs. -/
theorem along_congr {P : σ → Prop} {s : σ} (hs : P s) (hstep : ∀ s i, P s → P (step s i))
    (hCD : ∀ s i, P s → (C s i ↔ D s i)) (is : List ι) : Along step C s is ↔ Along step D s is := by
  induction is generalizing s with
  | nil => rfl
  | cons i is ih => rw [along_cons, along_cons, hCD s i hs, ih (hstep s i hs)]

/-- The invariant rule for a fact that relates the registers to everything observed so far. -/
theorem Along.history {P : List ο → σ → Prop} {s : σ} {is : List ι} (h : Along step C s is)
    (out : σ → ι → List ο) {seen : List ο} (hs : P seen s)
    (hstep : ∀ seen s i, P seen s → C s i → P (seen ++ out s i) (step s i)) :
    P (seen ++ collect step out s is) (run step s is) := by
  induction is generalizing s seen with
  | nil => simpa using hs
  | cons i is ih => simpa using ih h.2 (hstep seen s i hs h.1)

theorem collect_eq_nil_iff {s : σ} {is : List ι} :
    collect step out s is = [] ↔ Along step (fun s i => out s i = []) s is := by
  induction is generalizing s with
  | nil => simp
  | cons i is ih => rw [collect_cons, along_cons, List.append_eq_nil_iff, ih]

/-- What goes in is held until it comes out: a conservation law of one step is one of the
run. -/
theorem Along.conserve {inn : σ → ι → List ο} {held : σ → List ο} {s : σ} {is : List ι}
    (h : Along step C s is)
    (hstep : ∀ s i, C s i → held s ++ inn s i = out s i ++ held (step s i)) :
    held s ++ collect step inn s is = collect step out s is ++ held (run step s is) := by
  induction is generalizing s with
  | nil => simp
  | cons i is ih =>
    rw [collect_cons, ← List.append_assoc, hstep s i h.1, List.append_assoc, ih h.2]
    simp

/-- Counting what goes in, comes out, is held and gets lost. -/
theorem Along.length_conserve (inn out : σ → ι → List ο) (held : σ → List ο)
    (lost : σ → ι → List κ) {s : σ} {is : List ι} (h : Along step C s is)
    (hlen : ∀ s i, C s i → (held s).length + (inn s i).length =
      (out s i).length + (held (step s i)).length + (lost s i).length) :
    (held s).length + (collect step inn s is).length =
      (collect step out s is).length + (held (run step s is)).length +
        (collect step lost s is).length := by
  induction is generalizing s with
  | nil => simp
  | cons i is ih =>
    have hone := hlen s i h.1
    have hrest := ih h.2
    simp only [collect_cons, run_cons, List.length_append]
    omega

/-- A machine that conserves what it takes in except for what it loses has lost nothing in a
run exactly if the conservation law holds at its end. -/
theorem Along.conserved_iff (inn out : σ → ι → List ο) (held : σ → List ο)
    (lost : σ → ι → List κ) {s : σ} {is : List ι} (h : Along step C s is)
    (hlen : ∀ s i, C s i → (held s).length + (inn s i).length =
      (out s i).length + (held (step s i)).length + (lost s i).length)
    (hstep : ∀ s i, C s i → lost s i = [] → held s ++ inn s i = out s i ++ held (step s i)) :
    held s ++ collect step inn s is = collect step out s is ++ held (run step s is) ↔
      Along step (fun s i => lost s i = []) s is := by
  constructor
  case mp =>
    intro heq
    have htotal := h.length_conserve inn out held lost hlen
    have hsame := congrArg List.length heq
    rw [List.length_append, List.length_append] at hsame
    rw [← collect_eq_nil_iff]
    exact List.eq_nil_of_length_eq_zero (by omega)
  case mpr => exact fun hlost => (h.and hlost).conserve fun s i hi => hstep s i hi.1 hi.2

/-- What every observation of a run satisfies follows from one step. -/
theorem Along.forall_collect {Q : ο → Prop} {s : σ} {is : List ι} (h : Along step C s is)
    (hstep : ∀ s i, C s i → ∀ o ∈ out s i, Q o) : ∀ o ∈ collect step out s is, Q o := by
  induction is generalizing s with
  | nil => simp
  | cons i is ih =>
    intro o ho
    rcases List.mem_append.mp ho with ho | ho
    · exact hstep s i h.1 o ho
    · exact ih h.2 o ho

/-- Every observation of a run satisfies `Q` exactly if those of every step do. -/
theorem forall_collect_iff {Q : ο → Prop} {s : σ} {is : List ι} :
    (∀ o ∈ collect step out s is, Q o) ↔ Along step (fun s i => ∀ o ∈ out s i, Q o) s is := by
  induction is generalizing s with
  | nil => simp
  | cons i is ih => rw [collect_cons, List.forall_mem_append, along_cons, ih]

theorem length_collect_congr (step : σ → ι → σ) {out out' : σ → ι → List ο}
    (hlen : ∀ s i, (out s i).length = (out' s i).length) (s : σ) (is : List ι) :
    (collect step out s is).length = (collect step out' s is).length := by
  induction is generalizing s with
  | nil => rfl
  | cons i is ih => rw [collect_cons, collect_cons, List.length_append, List.length_append, hlen, ih]

/-- Two observers that see as much in every step see the same in a run exactly if they do in
every step. -/
theorem collect_eq_collect_iff {out out' : σ → ι → List ο}
    (hlen : ∀ s i, (out s i).length = (out' s i).length) {s : σ} {is : List ι} :
    collect step out s is = collect step out' s is ↔
      Along step (fun s i => out s i = out' s i) s is := by
  induction is generalizing s with
  | nil => simp
  | cons i is ih =>
    rw [collect_cons, collect_cons, along_cons, ← ih]
    exact ⟨fun heq => List.append_inj heq (hlen s i), fun ⟨hi, his⟩ => by rw [hi, his]⟩

/-- A machine whose inputs are given by something else. -/
theorem collect_map_input (step : σ → ι → σ) (out : σ → ι → List ο) (g : κ → ι) (s : σ)
    (ks : List κ) : collect step out s (ks.map g) =
      collect (fun s k => step s (g k)) (fun s k => out s (g k)) s ks := by
  induction ks generalizing s with
  | nil => rfl
  | cons k ks ih => rw [List.map_cons, collect_cons, collect_cons, ih]

/-- Observations that translate in every step translate as a whole. -/
theorem Along.collect_eq_map {out' : σ → ι → List κ} {f : κ → ο} {s : σ} {is : List ι}
    (h : Along step C s is) (out : σ → ι → List ο)
    (hstep : ∀ s i, C s i → out s i = (out' s i).map f) :
    collect step out s is = (collect step out' s is).map f := by
  induction is generalizing s with
  | nil => rfl
  | cons i is ih => rw [collect_cons, collect_cons, hstep s i h.1, ih h.2, List.map_append]

/-- Observations that stand for several others. -/
theorem collect_flatMap (step : σ → ι → σ) (out : σ → ι → List ο) (f : ο → List κ) (s : σ)
    (is : List ι) : collect step (fun s i => (out s i).flatMap f) s is =
      (collect step out s is).flatMap f := by
  induction is generalizing s with
  | nil => rfl
  | cons i is ih => rw [collect_cons, collect_cons, ih, List.flatMap_append]

/-- A machine that carries additional bookkeeping goes through the same registers. -/
theorem run_map {step' : τ → ι → τ} {f : τ → σ} (hf : ∀ t i, f (step' t i) = step (f t) i)
    (t : τ) (is : List ι) : f (run step' t is) = run step (f t) is := by
  induction is generalizing t with
  | nil => rfl
  | cons i is ih => rw [run_cons, run_cons, ih, hf]

/-- A machine that carries additional bookkeeping meets the same conditions. -/
theorem along_map {step' : τ → ι → τ} {f : τ → σ} (hf : ∀ t i, f (step' t i) = step (f t) i)
    (t : τ) (is : List ι) :
    Along step' (fun t i => C (f t) i) t is ↔ Along step C (f t) is := by
  induction is generalizing t with
  | nil => rfl
  | cons i is ih => rw [along_cons, along_cons, ih, hf]

/-- A machine that carries additional bookkeeping shows the same observations. -/
theorem collect_map {step' : τ → ι → τ} {f : τ → σ} (hf : ∀ t i, f (step' t i) = step (f t) i)
    (out : σ → ι → List ο) (t : τ) (is : List ι) :
    collect step' (fun t i => out (f t) i) t is = collect step out (f t) is := by
  induction is generalizing t with
  | nil => rfl
  | cons i is ih => rw [collect_cons, collect_cons, ih, hf]

/-- The simulation rule: related machines stay related, and if the one shows in a step what the
other one does, up to a translation, it shows it in a run. -/
theorem simulate {ω : Type*} {R : σ → τ → Prop} {step' : τ → κ → τ} {out' : τ → κ → List ω}
    (g : κ → ι) (f : ω → ο) (hstep : ∀ s t k, R s t → R (step s (g k)) (step' t k))
    (hout : ∀ s t k, R s t → out s (g k) = (out' t k).map f) {s : σ} {t : τ} (h : R s t)
    (ks : List κ) : R (run step s (ks.map g)) (run step' t ks) ∧
      collect step out s (ks.map g) = (collect step' out' t ks).map f := by
  induction ks generalizing s t with
  | nil => exact ⟨h, rfl⟩
  | cons k ks ih =>
    obtain ⟨hrun, hcollect⟩ := ih (hstep s t k h)
    refine ⟨hrun, ?_⟩
    rw [List.map_cons, collect_cons, collect_cons, hout s t k h, hcollect, List.map_append]

/-- A machine that takes what is offered to it at once, and shows the `n`-th of all with its
number. `P n` says that it has taken `n`. -/
theorem collect_numbered {ω : Type*} {P : ℕ → σ → Prop} (g : κ → ι) {offer : κ → Option ω}
    (f : ℕ → ω → ο)
    (hidle : ∀ n s k, P n s → offer k = none → P n (step s (g k)) ∧ out s (g k) = [])
    (htake : ∀ n s k d, P n s → offer k = some d → P (n + 1) (step s (g k)) ∧
      out s (g k) = [f n d]) {n : ℕ} {s : σ} (h : P n s) (ks : List κ) :
    collect step out s (ks.map g) = (ks.filterMap offer).mapIdx fun j d => f (n + j) d := by
  induction ks generalizing n s with
  | nil => rfl
  | cons k ks ih =>
    rw [List.map_cons, collect_cons]
    cases hk : offer k with
    | none =>
      obtain ⟨hnext, hout⟩ := hidle n s k h hk
      rw [hout, ih hnext, List.filterMap_cons_none hk, List.nil_append]
    | some d =>
      obtain ⟨hnext, hout⟩ := htake n s k d h hk
      have hshift : ∀ j, n + 1 + j = n + (j + 1) := fun j => by omega
      rw [hout, ih hnext, List.filterMap_cons_some hk, List.mapIdx_cons, List.singleton_append]
      simp only [hshift, Nat.add_zero]

/-! ### Refinement -/

section Refinement

variable {step' : τ → κ → τ} {D : τ → κ → Prop} (abs : σ → τ) (events : σ → ι → List κ)

/-- A machine whose steps are runs of another machine. -/
theorem Along.refine {s : σ} {is : List ι} (h : Along step C s is)
    (hstep : ∀ s i, C s i → abs (step s i) = run step' (abs s) (events s i)) :
    abs (run step s is) = run step' (abs s) (collect step events s is) := by
  induction is generalizing s with
  | nil => rfl
  | cons i is ih => rw [run_cons, ih h.2, hstep s i h.1, collect_cons, run_append]

/-- Its runs meet a condition on the steps of the other machine if every step of it does. -/
theorem Along.refine_along_iff {s : σ} {is : List ι} (h : Along step C s is)
    (hstep : ∀ s i, C s i → abs (step s i) = run step' (abs s) (events s i)) :
    Along step' D (abs s) (collect step events s is) ↔
      Along step (fun s i => Along step' D (abs s) (events s i)) s is := by
  induction is generalizing s with
  | nil => simp
  | cons i is ih => rw [collect_cons, along_append, along_cons, ← hstep s i h.1, ih h.2]

/-- The other machine shows in the run what it shows in its steps. -/
theorem Along.refine_collect {ω : Type*} (out' : τ → κ → List ω) {s : σ} {is : List ι}
    (h : Along step C s is)
    (hstep : ∀ s i, C s i → abs (step s i) = run step' (abs s) (events s i)) :
    collect step' out' (abs s) (collect step events s is) =
      collect step (fun s i => collect step' out' (abs s) (events s i)) s is := by
  induction is generalizing s with
  | nil => rfl
  | cons i is ih =>
    rw [collect_cons, collect_append, ← hstep s i h.1, ih h.2, collect_cons]

end Refinement

/-! ### Parts of a machine -/

section Parts

variable {step' : τ → κ → τ} (part : σ → τ) {heed : ι → Option κ}

/-- A part of the registers that heeds some of the inputs only runs on its own. -/
theorem run_filterMap
    (hstep : ∀ s i, part (step s i) = (heed i).elim (part s) (step' (part s))) (s : σ) (is : List ι) :
    part (run step s is) = run step' (part s) (is.filterMap heed) := by
  induction is generalizing s with
  | nil => rfl
  | cons i is ih =>
    rw [run_cons, ih, hstep]
    cases hi : heed i with
    | none => rw [List.filterMap_cons_none hi]; rfl
    | some k => rw [List.filterMap_cons_some hi, run_cons]; rfl

/-- What such a part shows does not depend on the inputs it does not heed. -/
theorem collect_filterMap {ω : Type*} {out' : τ → κ → List ω} {shown : ο → Option ω}
    (hstep : ∀ s i, part (step s i) = (heed i).elim (part s) (step' (part s)))
    (hout : ∀ s i, (out s i).filterMap shown = (heed i).elim [] (out' (part s)))
    (s : σ) (is : List ι) :
    (collect step out s is).filterMap shown = collect step' out' (part s) (is.filterMap heed) := by
  induction is generalizing s with
  | nil => rfl
  | cons i is ih =>
    rw [collect_cons, List.filterMap_append, ih, hstep, hout]
    cases hi : heed i with
    | none => rw [List.filterMap_cons_none hi]; rfl
    | some k => rw [List.filterMap_cons_some hi, collect_cons]; rfl

end Parts

end Rules

end LagoEcosystem.Clocked
