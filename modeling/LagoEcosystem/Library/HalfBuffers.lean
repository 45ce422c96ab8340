import LagoEcosystem.Library.Clocked
import LagoEcosystem.Library.RingMemory
import Mathlib.Tactic.Ring

/-!
# Two half buffers

A writer stores a stream into a ring of `2 * N` cells. A reader looks at the position of the
writer until it has left one half, copies that half cell by cell while the writer goes on, and
then waits for the other half. `sent_eq` says which words of the stream the copies are,
`sources_eq_iff` exactly when they are the stream, and `onTime_of_timely` gives a pace that
ensures it.
-/

namespace LagoEcosystem.HalfBuffers

open Clocked RingMemory

variable {α : Type*}

/-- The writer stores a word, or the reader looks at the position or copies one cell. -/
inductive Event where
  | store
  | poll
  | copy
  deriving DecidableEq

/-- The words stored, the `limit` that the position has to pass, the cells of the half that are
still to be copied, and the copies. -/
structure St (α : Type*) where
  stored : ℕ
  limit : ℕ
  todo : List ℕ
  sent : List α

/-- The reader begins with the lower half. -/
def St.start (N : ℕ) : St α := ⟨0, N, [], []⟩

/-- The lower half is waited for with `limit = N`, the upper one with `limit = 0`. -/
def passed (N limit position : ℕ) : Bool :=
  (decide (0 < limit) && decide (limit < position)) || (limit == 0 && decide (position < N))

def St.take (N : ℕ) (s : St α) : St α :=
  { s with
    limit := if 0 < s.limit then 0 else N
    todo := List.range' (if 0 < s.limit then 0 else N) N }

/-- The reader takes a half in this look at the position. -/
def St.takes (N : ℕ) (s : St α) : Bool := s.todo.isEmpty && passed N s.limit (s.stored % (2 * N))

/-- What a copy reads, `w` being the stream and `init` what the ring held before. -/
def copyOut (N : ℕ) (init w : ℕ → α) (s : St α) : Event → List α
  | .copy => (s.todo.take 1).map (fill (2 * N) init w s.stored)
  | _ => []

def step (N : ℕ) (init w : ℕ → α) (s : St α) : Event → St α
  | .store => { s with stored := s.stored + 1 }
  | .poll => if s.takes N then s.take N else s
  | .copy => { s with todo := s.todo.tail, sent := s.sent ++ copyOut N init w s .copy }

/-- The cells of the halves that the reader has taken. -/
def St.taken (s : St α) : ℕ := s.sent.length + s.todo.length

/-- The cell has not been stored to again. -/
def OnTime (N : ℕ) (s : St α) (e : Event) : Prop :=
  e = .copy → s.todo ≠ [] → s.stored ≤ s.sent.length + 2 * N

instance [DecidableEq α] (N : ℕ) (s : St α) (e : Event) : Decidable (OnTime N s e) :=
  inferInstanceAs (Decidable (_ → _ → _))

/-! ## The invariant -/

/-- The reader has taken whole halves, all of them complete, and `limit` is for the next. -/
structure Inv (N : ℕ) (s : St α) : Prop where
  todo : s.todo = List.range' (s.sent.length % (2 * N)) s.todo.length
  short : s.todo.length ≤ N
  half : s.limit = N ∧ s.taken % (2 * N) = 0 ∨ s.limit = 0 ∧ s.taken % (2 * N) = N
  stored : s.taken ≤ s.stored

variable {N : ℕ} {init w : ℕ → α} {s : St α}

theorem inv_start (N : ℕ) : Inv N (.start N : St α) := by
  constructor <;> simp [St.start, St.taken]

theorem Inv.store (h : Inv N s) (init w : ℕ → α) : Inv N (step N init w s .store) :=
  ⟨h.todo, h.short, h.half, Nat.le_succ_of_le h.stored⟩

/-- A reader that is less than a ring behind takes a half when it is complete. -/
theorem Inv.passed_iff (h : Inv N s) (hN : 0 < N) (hlt : s.stored < s.taken + 2 * N) :
    passed N s.limit (s.stored % (2 * N)) = true ↔
      s.taken + N < s.stored ∨ s.limit = 0 ∧ s.stored = s.taken + N := by
  have hle := h.stored
  have hsplit : s.stored % (2 * N) = (s.taken % (2 * N) + (s.stored - s.taken)) % (2 * N) := by
    rw [Nat.mod_add_mod, Nat.add_sub_cancel' hle]
  rcases h.half with ⟨hlimit, hmod⟩ | ⟨hlimit, hmod⟩
  · rw [hsplit, hmod, Nat.zero_add, Nat.mod_eq_of_lt (by omega), hlimit, passed]
    simp
    omega
  · by_cases hhalf : s.taken + N ≤ s.stored
    · rw [hsplit, hmod, Nat.mod_eq_sub_mod (by omega), Nat.mod_eq_of_lt (by omega), hlimit, passed]
      simp
      omega
    · rw [hsplit, hmod, Nat.mod_eq_of_lt (by omega), hlimit, passed]
      simp
      omega

/-- A half that the reader takes is complete. -/
theorem Inv.complete (h : Inv N s) (hN : 0 < N) (ht : s.takes N = true) :
    s.todo = [] ∧ s.taken + N ≤ s.stored := by
  rw [St.takes, Bool.and_eq_true, List.isEmpty_iff] at ht
  refine ⟨ht.1, ?_⟩
  by_cases hlt : s.stored < s.taken + 2 * N
  · have hpassed := (h.passed_iff hN hlt).mp ht.2
    omega
  · omega

theorem taken_take (N : ℕ) (htodo : s.todo = []) : (s.take N).taken = s.taken + N := by
  simp [St.taken, St.take, htodo]

theorem Inv.take (h : Inv N s) (hN : 0 < N) (ht : s.takes N = true) : Inv N (s.take N) := by
  obtain ⟨htodo, hstored⟩ := h.complete hN ht
  have hnext := taken_take N htodo
  have htaken : s.taken = s.sent.length := by simp [St.taken, htodo]
  have hmove : (s.take N).taken % (2 * N) = (s.taken % (2 * N) + N) % (2 * N) := by
    rw [hnext, Nat.mod_add_mod]
  rcases h.half with ⟨hlimit, hmod⟩ | ⟨hlimit, hmod⟩
  · have hlt : N < 2 * N := by omega
    rw [hmod, Nat.zero_add, Nat.mod_eq_of_lt hlt] at hmove
    rw [htaken] at hmod
    exact ⟨by simp [St.take, hlimit, hN, hmod], by simp [St.take],
      .inr ⟨by simp [St.take, hlimit, hN], hmove⟩, hnext ▸ hstored⟩
  · rw [hmod, ← Nat.two_mul, Nat.mod_self] at hmove
    rw [htaken] at hmod
    exact ⟨by simp [St.take, hlimit, hmod], by simp [St.take],
      .inl ⟨by simp [St.take, hlimit], hmove⟩, hnext ▸ hstored⟩

theorem Inv.poll (h : Inv N s) (hN : 0 < N) (init w : ℕ → α) : Inv N (step N init w s .poll) := by
  rw [step]
  split
  case isTrue ht => exact h.take hN ht
  case isFalse => exact h

/-- The next copy reads the cell of the next word, and that word has been stored. -/
theorem Inv.todo_cons (h : Inv N s) {c : ℕ} {cs : List ℕ} (htodo : s.todo = c :: cs) :
    c = s.sent.length % (2 * N) ∧ cs = List.range' (s.sent.length % (2 * N) + 1) cs.length ∧
      s.sent.length < s.stored := by
  have hall := h.todo
  have hstored := h.stored
  rw [St.taken] at hstored
  rw [htodo, List.length_cons] at hall hstored
  rw [List.range'_succ, List.cons.injEq] at hall
  exact ⟨hall.1, hall.2, by omega⟩

theorem Inv.copy (h : Inv N s) (init w : ℕ → α) : Inv N (step N init w s .copy) := by
  cases htodo : s.todo with
  | nil =>
    have hstep : step N init w s .copy = s := by
      cases s
      simp only at htodo
      simp [step, copyOut, htodo]
    rwa [hstep]
  | cons c cs =>
    have hlen : (step N init w s .copy).sent.length = s.sent.length + 1 := by
      simp [step, copyOut, htodo]
    have hrest : (step N init w s .copy).todo = cs := by simp [step, htodo]
    have htaken : (step N init w s .copy).taken = s.taken := by
      rw [St.taken, St.taken, hlen, hrest, htodo, List.length_cons]
      omega
    have hshort := h.short
    have hhalf := h.half
    rw [htodo, List.length_cons] at hshort
    refine ⟨?_, by rw [hrest]; omega, by rw [htaken]; exact hhalf, by rw [htaken]; exact h.stored⟩
    rw [hrest, hlen]
    cases cs with
    | nil => rfl
    | cons d ds =>
      -- the half does not end at the cell just copied
      have hinside : (s.sent.length + 1) % (2 * N) = s.sent.length % (2 * N) + 1 := by
        rw [St.taken, htodo, ← Nat.mod_add_mod] at hhalf
        simp only [List.length_cons] at hshort hhalf
        have hlt := Nat.mod_lt s.sent.length (by omega : 0 < 2 * N)
        rw [← Nat.mod_add_mod]
        by_cases hlast : s.sent.length % (2 * N) + 1 = 2 * N
        · rw [Nat.mod_eq_sub_mod (by omega), Nat.mod_eq_of_lt (by omega)] at hhalf
          omega
        · exact Nat.mod_eq_of_lt (by omega)
      rw [hinside]
      exact (h.todo_cons htodo).2.1

/-- One step keeps the invariant, whether the copies are right or not. -/
theorem Inv.next (h : Inv N s) (hN : 0 < N) (e : Event) :
    Inv N (step N init w s e) := by
  cases e with
  | store => exact h.store init w
  | poll => exact h.poll hN init w
  | copy => exact h.copy init w

theorem run_store (N : ℕ) (init w : ℕ → α) (s : St α) (n : ℕ) :
    run (step N init w) s (List.replicate n .store) = { s with stored := s.stored + n } := by
  induction n generalizing s with
  | zero => rfl
  | succ n ih =>
    rw [List.replicate_succ, run_cons, ih]
    simp only [step]
    congr 1
    omega

theorem inv_run (hN : 0 < N) (es : List Event) : Inv N (run (step N init w) (.start N) es) :=
  (along_of_forall (K := fun _ => True) (step N init w) (.start N) fun _ _ => trivial).invariant
    (inv_start N) fun _ e hs _ => hs.next hN e

/-! ## Which words the copies are -/

/-- The number in the stream of the word that the next copy finds. -/
def St.source (N : ℕ) (s : St α) : ℕ :=
  s.sent.length + 2 * N * ((s.stored - 1 - s.sent.length) / (2 * N))

def sourceOut (N : ℕ) (s : St α) : Event → List ℕ
  | .copy => (s.todo.take 1).map fun _ => s.source N
  | _ => []

/-- The numbers in the stream of all words sent. -/
def sources (N : ℕ) (init w : ℕ → α) (es : List Event) : List ℕ :=
  collect (step N init w) (sourceOut N) (.start N) es

/-- The number that it should be. -/
def nextOut (s : St α) : Event → List ℕ
  | .copy => (s.todo.take 1).map fun _ => s.sent.length
  | _ => []

theorem sent_step (N : ℕ) (init w : ℕ → α) (s : St α) (e : Event) :
    (step N init w s e).sent = s.sent ++ copyOut N init w s e := by
  cases e with
  | store => simp [step, copyOut]
  | poll =>
    rw [step]
    split <;> simp [St.take, copyOut]
  | copy => rfl

theorem sent_run (s : St α) (es : List Event) :
    (run (step N init w) s es).sent =
      s.sent ++ collect (step N init w) (copyOut N init w) s es := by
  induction es generalizing s with
  | nil => simp
  | cons e es ih => rw [run_cons, ih, sent_step, collect_cons, List.append_assoc]

theorem length_sourceOut (s : St α) (e : Event) :
    (sourceOut N s e).length = (nextOut s e).length := by
  cases e <;> simp [sourceOut, nextOut]

theorem length_copyOut (s : St α) (e : Event) :
    (copyOut N init w s e).length = (nextOut s e).length := by
  cases e <;> simp [copyOut, nextOut]

theorem collect_nextOut (es : List Event) :
    collect (step N init w) nextOut (.start N) es =
      List.range (run (step N init w) (.start N) es).sent.length := by
  have hall := along_of_forall (K := fun _ => True) (step N init w) (.start N : St α)
    fun e (_ : e ∈ es) => trivial
  have hnone : [] = List.range (St.start N : St α).sent.length := rfl
  refine hall.history (P := fun seen s => seen = List.range s.sent.length) nextOut hnone ?_
  rintro seen s e rfl -
  rw [sent_step, List.length_append, length_copyOut]
  cases e with
  | store => simp [nextOut]
  | poll => simp [nextOut]
  | copy =>
    cases htodo : s.todo with
    | nil => simp [nextOut, htodo]
    | cons c cs => simp [nextOut, htodo, List.range_succ]

theorem Inv.copyOut_eq (h : Inv N s) (hN : 0 < N) (e : Event) :
    copyOut N init w s e = (sourceOut N s e).map w := by
  cases e with
  | store => rfl
  | poll => rfl
  | copy =>
    cases htodo : s.todo with
    | nil => simp [copyOut, sourceOut, htodo]
    | cons c cs =>
      obtain ⟨hc, -, hlt⟩ := h.todo_cons htodo
      simp [copyOut, sourceOut, htodo, hc, fill_last (by omega : 0 < 2 * N) hlt, St.source]

/-- The word is the next one if it has not been replaced. -/
theorem Inv.sourceOut_eq_iff (h : Inv N s) (hN : 0 < N) (e : Event) :
    sourceOut N s e = nextOut s e ↔ OnTime N s e := by
  cases e with
  | store => simp [sourceOut, nextOut, OnTime]
  | poll => simp [sourceOut, nextOut, OnTime]
  | copy =>
    cases htodo : s.todo with
    | nil => simp [sourceOut, nextOut, OnTime, htodo]
    | cons c cs =>
      obtain ⟨-, -, hlt⟩ := h.todo_cons htodo
      have hturn : s.source N = s.sent.length ↔ (s.stored - 1 - s.sent.length) / (2 * N) = 0 := by
        have hpos : 2 * N ≠ 0 := by omega
        simp [St.source, hN.ne']
      rw [Nat.div_eq_zero_iff_lt (by omega)] at hturn
      simp [sourceOut, nextOut, OnTime, htodo, hturn]
      omega

/-- The words sent, each with its number in the stream. -/
theorem sent_eq (hN : 0 < N) (es : List Event) :
    (run (step N init w) (.start N) es).sent = (sources N init w es).map w := by
  have hall := along_of_forall (K := fun _ => True) (step N init w) (.start N : St α)
    fun e (_ : e ∈ es) => trivial
  have hinv := hall.strengthen (P := Inv N) (inv_start N) fun s e hs _ => hs.next hN e
  rw [sent_run, St.start, List.nil_append]
  exact hinv.collect_eq_map _ fun s e hs => hs.1.copyOut_eq hN e

/-- The words sent are the stream, without a gap and in order, exactly if every copy is on
time. -/
theorem sources_eq_iff (hN : 0 < N) (init w : ℕ → α) (es : List Event) :
    sources N init w es = List.range (run (step N init w) (.start N) es).sent.length ↔
      Along (step N init w) (OnTime N) (.start N) es := by
  rw [← collect_nextOut, sources, collect_eq_collect_iff length_sourceOut]
  exact along_congr (P := Inv N) (inv_start N) (fun s e hs => hs.next hN e)
    (fun s e hs => hs.sourceOut_eq_iff hN e) es

/-! ## A pace that is enough -/

/-- The reader with the number of words stored when it last looked at the position, and whether
it took a half then. -/
structure Paced (α : Type*) where
  st : St α
  seen : ℕ
  sending : Bool

def Paced.start (N : ℕ) : Paced α := ⟨.start N, 0, false⟩

def Paced.next (N : ℕ) (init w : ℕ → α) (t : Paced α) (e : Event) : Paced α where
  st := step N init w t.st e
  seen := if e = .poll then t.st.stored else t.seen
  sending := if e = .poll then t.st.takes N else t.sending

/-- The reader has copied a half before it looks at the position again, less than `Q` words
later; after a look in vain it looks again before `P` words are stored. -/
def Timely (P Q : ℕ) (t : Paced α) : Event → Prop
  | .store => True
  | .poll => t.st.todo = [] ∧ t.st.stored ≤ t.seen + if t.sending then Q else P
  | .copy => t.st.stored ≤ t.seen + Q

/-- The reader is never far behind: at most `P` words into the half after the last one it took. -/
structure Paced.Inv (P : ℕ) (N : ℕ) (t : Paced α) : Prop where
  inv : HalfBuffers.Inv N t.st
  busy : t.sending = true → t.seen ≤ t.st.taken + P
  idle : t.sending = false → t.st.todo = [] ∧ t.seen ≤ t.st.taken + N

variable {P Q : ℕ} {t : Paced α}

theorem Paced.inv_start (P N : ℕ) : (Paced.start N : Paced α).Inv P N :=
  ⟨HalfBuffers.inv_start N, by simp [Paced.start], by simp [Paced.start, St.start]⟩

/-- At every look at the position. -/
theorem Paced.Inv.stored_le (h : t.Inv P N) (hPQ : P + Q ≤ N) (ht : Timely P Q t .poll) :
    t.st.stored ≤ t.st.taken + N + P := by
  have hstored := ht.2
  cases hsend : t.sending with
  | false =>
    have hidle := (h.idle hsend).2
    simp only [hsend, Bool.false_eq_true, if_false] at hstored
    omega
  | true =>
    have hbusy := h.busy hsend
    simp only [hsend, if_true] at hstored
    omega

theorem Paced.Inv.poll (h : t.Inv P N) (hP : P < N) (hPQ : P + Q ≤ N) (ht : Timely P Q t .poll) :
    (t.next N init w .poll).Inv P N := by
  have hN : 0 < N := by omega
  have hle := h.stored_le hPQ ht
  refine ⟨h.inv.poll hN init w, ?_, ?_⟩
  · intro htakes
    have htaken : (t.next N init w .poll).st.taken = t.st.taken + N := by
      have hstep : (t.next N init w .poll).st = t.st.take N := if_pos htakes
      rw [hstep, taken_take N ht.1]
    rw [htaken]
    exact hle
  · intro htakes
    have hstep : (t.next N init w .poll).st = t.st := if_neg (Bool.eq_false_iff.mp htakes)
    rw [hstep]
    refine ⟨ht.1, ?_⟩
    have hfailed : passed N t.st.limit (t.st.stored % (2 * N)) = false := by
      have htakes' : t.st.takes N = false := htakes
      simpa [St.takes, ht.1] using htakes'
    have hiff := h.inv.passed_iff hN (by omega)
    rw [hfailed] at hiff
    show t.st.stored ≤ _
    simp at hiff
    omega

theorem Paced.Inv.next (h : t.Inv P N) (hP : P < N) (hPQ : P + Q ≤ N) {e : Event}
    (ht : Timely P Q t e) : (t.next N init w e).Inv P N := by
  cases e with
  | store => exact ⟨h.inv.store init w, h.busy, h.idle⟩
  | poll => exact h.poll hP hPQ ht
  | copy =>
    have htaken : (step N init w t.st .copy).taken = t.st.taken := by
      cases htodo : t.st.todo <;> simp [step, copyOut, St.taken, htodo]
      omega
    refine ⟨h.inv.copy init w, fun hsend => ?_, fun hsend => ⟨?_, ?_⟩⟩
    · show t.seen ≤ (step N init w t.st .copy).taken + P
      rw [htaken]
      exact h.busy hsend
    · show t.st.todo.tail = []
      rw [(h.idle hsend).1]
      rfl
    · show t.seen ≤ (step N init w t.st .copy).taken + N
      rw [htaken]
      exact (h.idle hsend).2

theorem Paced.Inv.onTime (h : t.Inv P N) (hPQ : P + Q ≤ N) {e : Event} (ht : Timely P Q t e) :
    OnTime N t.st e := by
  rintro rfl hne
  have hsend : t.sending = true := by
    by_contra hidle
    exact hne (h.idle (by simpa using hidle)).1
  have hbusy := h.busy hsend
  have hshort := h.inv.short
  have hstored : t.st.stored ≤ t.seen + Q := ht
  rw [St.taken] at hbusy
  omega

/-- At this pace every copy is on time. -/
theorem onTime_of_timely (hP : P < N) (hPQ : P + Q ≤ N) {es : List Event}
    (h : Along (Paced.next N init w) (Timely P Q) (.start N) es) :
    Along (step N init w) (OnTime N) (.start N) es := by
  have hinv := h.strengthen (P := Paced.Inv P N) (Paced.inv_start P N)
    fun t e ht hi => ht.next hP hPQ hi
  have hon : Along (Paced.next N init w) (fun t e => OnTime N t.st e) (.start N) es :=
    hinv.mono fun t e ht => ht.1.onTime hPQ ht.2
  exact (along_map (fun _ _ => rfl) (Paced.start N) es).mp hon

end LagoEcosystem.HalfBuffers
