import LagoEcosystem.Library.Clocked
import Mathlib.Data.Fintype.Defs
import Mathlib.Data.Nat.Notation
import Mathlib.Logic.Function.Basic

/-!
# Shared words

Processes keep bits in one word of memory. To change a bit a process reads the word and
later writes it back as a whole, and the steps of the processes interleave. An update is
lost when a process writes back a copy that it read before. It is safe as long as nobody
writes the bit between a read and the write that belongs to it.
-/

namespace LagoEcosystem.SharedWord

open Clocked

variable {w : ℕ} {ι : Type*} [DecidableEq ι]

/-- The bits of `mask` are to become `value`. -/
structure Update (w : ℕ) where
  mask : BitVec w
  value : Bool

/-- `v | mask`. -/
def setBits (mask : BitVec w) : Update w := ⟨mask, true⟩

/-- `v & ~mask`. -/
def clearBits (mask : BitVec w) : Update w := ⟨mask, false⟩

def Update.apply (u : Update w) (v : BitVec w) : BitVec w :=
  if u.value then v ||| u.mask else v &&& ~~~u.mask

/-- Whether an update is about bit `b`. -/
def Update.targets (u : Update w) (b : ℕ) : Bool := u.mask.getLsbD b

theorem Update.getLsbD_apply (u : Update w) (v : BitVec w) (b : ℕ) :
    (u.apply v).getLsbD b = if u.targets b then u.value else v.getLsbD b := by
  by_cases h : u.targets b
  · rw [if_pos h]
    have hmask : u.mask.getLsbD b = true := h
    cases hv : u.value <;> simp only [apply, hv, BitVec.getLsbD_or, BitVec.getLsbD_and,
      BitVec.getLsbD_not, hmask, if_true, Bool.false_eq_true, if_false, Bool.not_true,
      Bool.and_false, Bool.or_true]
  · rw [if_neg h]
    have hmask : u.mask.getLsbD b = false := Bool.eq_false_iff.mpr h
    cases hv : u.value <;> simp only [apply, hv, BitVec.getLsbD_or, BitVec.getLsbD_and,
      BitVec.getLsbD_not, hmask, if_true, Bool.false_eq_true, if_false, Bool.or_false,
      Bool.not_false, Bool.and_true]
    by_cases hb : b < w
    · rw [decide_eq_true hb, Bool.and_true]
    · rw [BitVec.getLsbD_of_ge v b (by omega), Bool.false_and]

/-- What a process does with the word: updates, and reads that its next steps depend on. -/
inductive Program (w : ℕ) where
  | done
  | look (next : BitVec w → Program w)
  | update (u : Update w) (next : Program w)

def Program.updates (us : List (Update w)) (next : Program w) : Program w :=
  us.foldr .update next

/-- The word after a process ran alone. -/
def Program.alone : Program w → BitVec w → BitVec w
  | .done, v => v
  | .look next, v => (next v).alone v
  | .update u next, v => next.alone (u.apply v)

/-- A process is ready for its next read, or holds a copy of the word that it read for an
update. -/
inductive Process (w : ℕ) where
  | ready (p : Program w)
  | latched (copy : BitVec w) (u : Update w) (next : Program w)

structure State (w : ℕ) (ι : Type*) where
  word : BitVec w
  processes : ι → Process w

/-- The processes start with an own program each. -/
def start (word : BitVec w) (programs : ι → Program w) : State w ι :=
  ⟨word, fun i => .ready (programs i)⟩

/-- One read or write of process `i`. -/
def step (s : State w ι) (i : ι) : State w ι :=
  match s.processes i with
  | .ready .done => s
  | .ready (.look next) =>
    { s with processes := Function.update s.processes i (.ready (next s.word)) }
  | .ready (.update u next) =>
    { s with processes := Function.update s.processes i (.latched s.word u next) }
  | .latched copy u next => ⟨u.apply copy, Function.update s.processes i (.ready next)⟩

/-- The update that a step writes. -/
def written (s : State w ι) (i : ι) : List (Update w) :=
  match s.processes i with
  | .ready _ => []
  | .latched _ u _ => [u]

def Process.isReady : Process w → Bool
  | .ready _ => true
  | .latched .. => false

def Process.isDone : Process w → Bool
  | .ready .done => true
  | _ => false

/-- A write of bit `b` finds no other process between a read and a write. -/
def Undisturbed (b : ℕ) (s : State w ι) (i : ι) : Prop :=
  ∀ u ∈ written s i, u.targets b → ∀ j, j ≠ i → (s.processes j).isReady

instance [Fintype ι] (b : ℕ) (s : State w ι) (i : ι) : Decidable (Undisturbed b s i) := by
  unfold Undisturbed
  infer_instance

/-- Bit `b` after updates that were carried out one after another. -/
def lastIntended (b : ℕ) (init : Bool) (us : List (Update w)) : Bool :=
  us.foldl (fun v u => if u.targets b then u.value else v) init

/-! ## One process -/

theorem Program.alone_updates (us : List (Update w)) (next : Program w) (v : BitVec w) :
    (updates us next).alone v = next.alone (us.foldl (fun v u => u.apply v) v) := by
  induction us generalizing v with
  | nil => rfl
  | cons u us ih => exact ih _

theorem step_processes_of_ne {s : State w ι} {i j : ι} (h : j ≠ i) :
    (step s i).processes j = s.processes j := by
  unfold step
  split <;> simp [h]

/-- A process that runs alone leaves the word as its updates do. -/
theorem exists_run_alone (p : Program w) {s : State w ι} {i : ι}
    (h : s.processes i = .ready p) :
    ∃ n, (run step s (List.replicate n i)).word = p.alone s.word ∧
      (run step s (List.replicate n i)).processes i = .ready .done := by
  induction p generalizing s with
  | done => exact ⟨0, rfl, h⟩
  | look next ih =>
    have hstep : step s i =
        { s with processes := Function.update s.processes i (.ready (next s.word)) } := by
      simp [step, h]
    obtain ⟨n, hword, hdone⟩ := ih s.word (s := step s i) (by simp [hstep])
    refine ⟨n + 1, ?_, by simpa [List.replicate_succ] using hdone⟩
    rw [List.replicate_succ, run_cons, hword, hstep]
    rfl
  | update u next ih =>
    have hread : step s i =
        { s with processes := Function.update s.processes i (.latched s.word u next) } := by
      simp [step, h]
    have hwrite : step (step s i) i =
        ⟨u.apply s.word, Function.update (step s i).processes i (.ready next)⟩ := by
      simp [step, h]
    obtain ⟨n, hword, hdone⟩ := ih (s := step (step s i) i) (by simp [hwrite])
    refine ⟨n + 2, ?_, by simpa [List.replicate_succ] using hdone⟩
    rw [List.replicate_succ, List.replicate_succ, run_cons, run_cons, hword, hwrite]
    rfl

/-! ## All processes -/

/-- Bit `b` is what was intended last, and no copy of it is out of date. -/
structure Inv (b : ℕ) (init : Bool) (us : List (Update w)) (s : State w ι) : Prop where
  word : s.word.getLsbD b = lastIntended b init us
  copies : ∀ i copy u next, s.processes i = .latched copy u next →
    copy.getLsbD b = s.word.getLsbD b

theorem lastIntended_concat (b : ℕ) (init : Bool) (us : List (Update w)) (u : Update w) :
    lastIntended b init (us ++ [u]) = if u.targets b then u.value else lastIntended b init us := by
  simp [lastIntended]

theorem Inv.step {b : ℕ} {init : Bool} {us : List (Update w)} {s : State w ι} {i : ι}
    (h : Inv b init us s) (hi : Undisturbed b s i) :
    Inv b init (us ++ written s i) (step s i) := by
  cases hp : s.processes i with
  | ready p =>
    have hwritten : written s i = [] := by simp [written, hp]
    have hword : (SharedWord.step s i).word = s.word := by
      cases p <;> simp [SharedWord.step, hp]
    rw [hwritten, List.append_nil]
    refine ⟨by rw [hword, h.word], fun j copy u next hj => ?_⟩
    rw [hword]
    by_cases hji : j = i
    · -- A fresh copy is the word.
      subst hji
      cases p with
      | done => simp [SharedWord.step, hp] at hj
      | look next => simp [SharedWord.step, hp] at hj
      | update u next =>
        simp only [SharedWord.step, hp, Function.update_self, Process.latched.injEq] at hj
        rw [hj.1]
    · rw [step_processes_of_ne hji] at hj
      exact h.copies j copy u next hj
  | latched copy u next =>
    have hwritten : written s i = [u] := by simp [written, hp]
    have hword : (SharedWord.step s i).word = u.apply copy := by simp [SharedWord.step, hp]
    have hbit : (u.apply copy).getLsbD b = if u.targets b then u.value else s.word.getLsbD b := by
      rw [u.getLsbD_apply, h.copies i copy u next hp]
    refine ⟨by rw [hword, hwritten, lastIntended_concat, hbit, h.word],
      fun j copy' u' next' hj => ?_⟩
    have hji : j ≠ i := by
      rintro rfl
      simp [SharedWord.step, hp] at hj
    rw [step_processes_of_ne hji] at hj
    rw [hword, hbit]
    -- Nobody else holds a copy if the bit is written.
    by_cases hb : u.targets b
    · have hready := hi u (by simp [hwritten]) hb j hji
      rw [hj] at hready
      cases hready
    · rw [if_neg hb]
      exact h.copies j copy' u' next' hj

/-- As long as no write of bit `b` disturbs another process, the bit is what was intended
last. -/
theorem getLsbD_word {b : ℕ} {word : BitVec w} {programs : ι → Program w} {schedule : List ι}
    (h : Along step (Undisturbed b) (start word programs) schedule) :
    (run step (start word programs) schedule).word.getLsbD b =
      lastIntended b (word.getLsbD b)
        (collect step written (start word programs) schedule) := by
  have hstart : Inv b (word.getLsbD b) [] (start word programs) := by
    refine ⟨rfl, fun i copy u next hi => ?_⟩
    cases hi
  exact (h.history written hstart fun us s i hs hi => hs.step hi).word

end LagoEcosystem.SharedWord
