import LagoEcosystem.RamWriter.Memory
import LagoEcosystem.Reader.ExactlyOnce

/-!
# From the stream to the reader

`read_buffer` together with the RAM writer whose ring it reads. A run interleaves clock cycles
of the writer with calls, each of which looks at the position and chooses its words, and with
the words that the loop of a call then reads one by one. In v1_0 the ring of the writer is the
buffer of the program; in v1_2 the ring is longer than the buffer, and the two agree until the
end of the buffer.
-/

namespace LagoEcosystem.Reader.DataPath

open ByteMemory Clocked RingMemory RamWriter

/-- The writer of v1_0. -/
def ring20 : Generics := ⟨20, 6, 32, by decide, by decide⟩

variable {g : Generics}

inductive Event (g : Generics) where
  | clock (i : In g)
  | call
  | word

/-- The cycles of the writer so far, the global `current`, the values of `i` that the loop has
still to go through, and the words it has processed. -/
structure St (g : Generics) where
  cycles : List (In g)
  current : ℤ
  todo : List ℕ
  processed : List (BitVec 32)

def St.start : St g := ⟨[], -4, [], []⟩

/-- The position of the writer. -/
def St.position (s : St g) : ℕ := (after s.cycles).intAddrReg.toNat

/-- A call of `read_buffer` chooses its words. -/
def St.call (v : Version) (s : St g) : St g :=
  { s with
    current := (readWindow v s.current s.position).current
    todo := (readWindow v s.current s.position).offsets }

/-- One step of the writer or of the program. `mem_ptr` is at `cfg`, and `mem` is what the
memory held before. There is no call before the loop of the last one has ended. -/
def step (v : Version) (cfg : BitVec g.axiAddrWidth) (mem : Memory g.axiAddrWidth) (s : St g) :
    Event g → St g
  | .clock i => { s with cycles := s.cycles ++ [i] }
  | .call => if s.todo.isEmpty then s.call v else s
  | .word =>
    { s with
      todo := s.todo.tail
      processed := s.processed ++
        (s.todo.take 1).map fun i => load 4 (memory mem s.cycles) (offset cfg i) }

/-- The cycles of the writer in a run. -/
def clocks (es : List (Event g)) : List (In g) :=
  es.filterMap fun
    | .clock i => some i
    | _ => none

/-- Less than a ring is unread when the program looks at the position, and a word has not been
replaced when it is read. -/
def OnTime (s : St g) (e : Event g) : Prop :=
  match e with
  | .clock _ => True
  | .call => s.todo = [] → 2 * (beats s.cycles).length < s.processed.length + ringWords v10
  | .word => s.todo ≠ [] → 2 * (beats s.cycles).length ≤ s.processed.length + ringWords v10

instance (s : St g) : (e : Event g) → Decidable (OnTime s e)
  | .clock _ => .isTrue trivial
  | .call => inferInstanceAs (Decidable (_ → _ < _))
  | .word => inferInstanceAs (Decidable (_ → _ ≤ _))

variable {v : Version} {cfg : BitVec g.axiAddrWidth} {mem : Memory g.axiAddrWidth}
  {all : List (In g)} {s : St g} {n : ℕ}

theorem cycles_run (s : St g) (es : List (Event g)) :
    (run (step v cfg mem) s es).cycles = s.cycles ++ clocks es := by
  induction es generalizing s with
  | nil => simp [clocks]
  | cons e es ih =>
    rw [run_cons, ih]
    cases e with
    | clock i => simp [step, clocks]
    | call =>
      rw [step]
      split <;> simp [St.call, clocks]
    | word => simp [step, clocks]

/-! ## The ring and the buffer -/

/-- After `n` words the ring of the writer is the buffer, or the buffer has not come to its end. -/
def Aligned (g : Generics) (n : ℕ) : Prop := g.addrWidth = 20 ∨ 20 ≤ g.addrWidth ∧ n < 2 ^ 20

theorem Aligned.mono {m n : ℕ} (h : Aligned g n) (hm : m ≤ n) : Aligned g m :=
  h.imp id (And.imp id hm.trans_lt)

theorem Aligned.le (h : Aligned g n) : 2 ^ 20 ≤ 2 ^ g.addrWidth :=
  Nat.pow_le_pow_right (by decide) (h.elim Eq.ge And.left)

theorem Aligned.mod (h : Aligned g n) : n % 2 ^ g.addrWidth = n % 2 ^ 20 := by
  rcases h with h | ⟨hle, hn⟩
  · rw [h]
  · rw [Nat.mod_eq_of_lt hn, Nat.mod_eq_of_lt (hn.trans_le (Nat.pow_le_pow_right (by decide) hle))]

/-- The word that the program finds in its place. -/
theorem Aligned.fill {α : Type*} {init w : ℕ → α} {n k : ℕ} (h : Aligned g n) (hk : k < 2 * n)
    (hn : 2 * n ≤ k + bufferWords) :
    fill (2 * 2 ^ g.addrWidth) init w (2 * n) (k % bufferWords) = w k := by
  have hbuffer : bufferWords = 2 * 2 ^ 20 := rfl
  have hle := h.le
  rcases h with h | ⟨-, hlt⟩
  · rw [h, ← hbuffer]
    exact fill_mod hk hn
  · have hplace : k % bufferWords = k % (2 * 2 ^ g.addrWidth) := by
      rw [Nat.mod_eq_of_lt (by omega), Nat.mod_eq_of_lt (by omega)]
    rw [hplace]
    exact fill_mod hk (by omega)

/-! ## The invariant -/

/-- The words that the calls so far have chosen. -/
def St.taken (s : St g) : ℕ := s.processed.length + s.todo.length

/-- The reader stands where its words end, has chosen stored words only, and has processed the
stream. -/
structure Inv (all : List (In g)) (s : St g) : Prop where
  progress : ∃ seen ≤ (beats s.cycles).length, (⟨s.current, s.taken, seen⟩ : Progress).Inv
  todo : s.todo =
    (List.range' (s.processed.length % bufferWords) s.todo.length).map (4 * ·)
  inside : s.processed.length % bufferWords + s.todo.length ≤ bufferWords
  stored : s.taken ≤ 2 * (beats s.cycles).length
  processed : s.processed = (List.range s.processed.length).map (acceptedHalf all)

theorem inv_progressStart : (Progress.start v10).Inv :=
  ⟨by decide, 0, by decide, by decide, by decide, by decide⟩

theorem inv_start : Inv all .start where
  progress := ⟨0, Nat.zero_le _, inv_progressStart⟩
  todo := rfl
  inside := Nat.zero_le _
  stored := Nat.zero_le _
  processed := rfl

theorem position_eq (h : Along RamWriter.step (Orderly cfg) (.reset g) s.cycles) :
    s.position = (beats s.cycles).length % 2 ^ g.addrWidth :=
  (counted_after (InOrder.aresetn (Orderly.inOrder h))).addr

theorem length_beats_mono {js ks : List (In g)} (h : js <+: ks) :
    (beats js).length ≤ (beats ks).length := by
  obtain ⟨is, rfl⟩ := h
  rw [beats, beats, collect_append, List.length_append]
  exact Nat.le_add_right _ _

theorem Inv.clock (h : Inv all s) (i : In g) : Inv all (step v cfg mem s (.clock i)) := by
  have hmono := length_beats_mono (List.prefix_append s.cycles [i])
  obtain ⟨seen, hseen, hprogress⟩ := h.progress
  exact ⟨⟨seen, hseen.trans hmono, hprogress⟩, h.todo, h.inside,
    h.stored.trans (Nat.mul_le_mul_left 2 hmono), h.processed⟩

/-- How far the words of a call reach: up to the position or to the end of the buffer. -/
def St.upTo (s : St g) : ℕ :=
  drained bufferWords s.processed.length (2 * (beats s.cycles).length)

/-- What a call on time does when the loop of the last one has ended. -/
theorem Inv.call_eq (h : Inv all s) (hnil : s.todo = []) (hv : readWindow v = readBufferV10)
    (hcycles : Along RamWriter.step (Orderly cfg) (.reset g) s.cycles)
    (halign : Aligned g (beats s.cycles).length) (ht : OnTime s .call) :
    s.processed.length ≤ s.upTo ∧
      (s.call v).todo = (List.range' (s.processed.length % bufferWords)
        (s.upTo - s.processed.length)).map (4 * ·) ∧
      (⟨(s.call v).current, (s.call v).taken, (beats s.cycles).length⟩ : Progress).Inv := by
  obtain ⟨seen, hseen, hprogress⟩ := h.progress
  have htaken : s.taken = s.processed.length := by simp [St.taken, hnil]
  rw [htaken] at hprogress
  let t : Progress := ⟨s.current, s.processed.length, seen⟩
  let c : Call := ⟨(beats s.cycles).length, (beats s.cycles).length, le_rfl⟩
  have hc : Paced v10 t c := ⟨hseen, ht hnil⟩
  have hwindow : readWindow v s.current s.position = t.window v10 c := by
    rw [position_eq hcycles, halign.mod, hv]
    rfl
  obtain ⟨stop, -, -, -, hoffsets⟩ := hprogress.window hc
  have hsame : (⟨(s.call v).current, (s.call v).taken, (beats s.cycles).length⟩ : Progress) =
      t.step v10 c := by
    show (⟨(readWindow v s.current s.position).current, s.processed.length +
      (readWindow v s.current s.position).offsets.length, _⟩ : Progress) = _
    rw [hwindow]
    rfl
  exact ⟨hprogress.le_upTo hc, congrArg Window.offsets (hwindow.trans hoffsets),
    hsame ▸ (hprogress.step hc).1⟩

/-- A call on time chooses the next words up to the position or the end of the buffer. -/
theorem Inv.call (h : Inv all s) (hv : readWindow v = readBufferV10)
    (hcycles : Along RamWriter.step (Orderly cfg) (.reset g) s.cycles)
    (halign : Aligned g (beats s.cycles).length) (ht : OnTime s .call) :
    Inv all (step v cfg mem s .call) := by
  rw [step]
  split
  case isFalse => exact h
  case isTrue hempty =>
    obtain ⟨hlow, htodo, hnext⟩ := h.call_eq (List.isEmpty_iff.mp hempty) hv hcycles halign ht
    have hlen : (s.call v).todo.length = s.upTo - s.processed.length := by simp [htodo]
    have hhigh : s.upTo ≤ 2 * (beats s.cycles).length := drained_le _ _ _
    have hend : s.upTo ≤ (s.processed.length / bufferWords + 1) * bufferWords := min_le_right _ _
    have hturn := endOfTurn_eq bufferWords s.processed.length
    have hmod := Nat.mod_le s.processed.length bufferWords
    refine ⟨⟨(beats s.cycles).length, le_rfl, hnext⟩, ?_, ?_, ?_, h.processed⟩
    · rw [hlen]
      exact htodo
    · show s.processed.length % bufferWords + _ ≤ _
      rw [hlen]
      omega
    · show s.processed.length + (s.call v).todo.length ≤ 2 * (beats s.cycles).length
      rw [hlen]
      omega

/-- A word on time is the next one of the stream. -/
theorem Inv.word (h : Inv all s) (hall : Along RamWriter.step (Orderly cfg) (.reset g) all)
    (hin : s.cycles <+: all) (halign : Aligned g (beats s.cycles).length) (ht : OnTime s .word) :
    Inv all (step v cfg mem s .word) := by
  cases htodo : s.todo with
  | nil =>
    have hstep : step v cfg mem s .word = s := by
      cases s
      simp only at htodo
      simp [step, htodo]
    rwa [hstep]
  | cons i is =>
    have hfirst := h.todo
    have hinside := h.inside
    have hstored := h.stored
    rw [St.taken] at hstored
    rw [htodo, List.length_cons] at hfirst hinside hstored
    rw [List.range'_succ, List.map_cons, List.cons.injEq] at hfirst
    obtain ⟨rfl, hrest⟩ := hfirst
    have hbuffer : bufferWords = 2 * 2 ^ 20 := rfl
    have hring := halign.le
    have hword : load 4 (memory mem s.cycles)
        (offset cfg (4 * (s.processed.length % bufferWords))) =
          acceptedHalf all s.processed.length := by
      rw [load_half hin mem hall (by omega)]
      exact halign.fill (by omega) (ht (by simp [htodo]))
    have hlen : (step v cfg mem s .word).processed.length = s.processed.length + 1 := by
      simp [step, htodo]
    have hnext : (step v cfg mem s .word).todo = is := by simp [step, htodo]
    have htaken : (step v cfg mem s .word).taken = s.taken := by
      rw [St.taken, St.taken, hlen, hnext, htodo, List.length_cons]
      omega
    -- the loop does not end at the end of the buffer before its last word
    have hinner : is ≠ [] → (s.processed.length + 1) % bufferWords =
        s.processed.length % bufferWords + 1 := by
      intro hne
      have hpos := List.length_pos_of_ne_nil hne
      rw [← Nat.mod_add_mod, Nat.mod_eq_of_lt (by omega)]
    refine ⟨?_, ?_, ?_, ?_, ?_⟩
    · rw [htaken]
      exact h.progress
    · rw [hnext, hlen]
      by_cases hne : is = []
      · rw [hne]
        rfl
      · rw [hinner hne]
        exact hrest
    · rw [hnext, hlen]
      by_cases hne : is = []
      · rw [hne, List.length_nil, Nat.add_zero]
        exact (Nat.mod_lt _ (by decide)).le
      · rw [hinner hne]
        omega
    · rw [htaken]
      exact h.stored
    · rw [hlen, List.range_succ, List.map_append, ← h.processed]
      simp [step, htodo, hword]

/-! ## Runs -/

theorem clocks_isPrefix {js es : List (Event g)} (h : js <+: es) : clocks js <+: clocks es :=
  h.filterMap _

theorem cycles_start_run (v : Version) (cfg : BitVec g.axiAddrWidth)
    (mem : Memory g.axiAddrWidth) (es : List (Event g)) :
    (run (step v cfg mem) .start es).cycles = clocks es :=
  cycles_run .start es

/-- In each state of a run the cycles of the writer are some of those of the whole run. -/
theorem along_cycles (v : Version) (cfg : BitVec g.axiAddrWidth) (mem : Memory g.axiAddrWidth)
    (es : List (Event g)) :
    Along (step v cfg mem) (fun s _ => s.cycles <+: clocks es) .start es := by
  refine along_of_forall_snoc fun js e hjs => ?_
  rw [cycles_start_run]
  exact clocks_isPrefix ((List.prefix_append js [e]).trans hjs)

theorem inv_run {es : List (Event g)} (hv : readWindow v = readBufferV10)
    (h : Along RamWriter.step (Orderly cfg) (.reset g) (clocks es))
    (halign : Aligned g (beats (clocks es)).length)
    (ht : Along (step v cfg mem) OnTime .start es) :
    Inv (clocks es) (run (step v cfg mem) .start es) := by
  refine ((along_cycles v cfg mem es).and ht).invariant (P := Inv (clocks es)) inv_start
    fun s e hs he => ?_
  have hnow := halign.mono (length_beats_mono he.1)
  cases e with
  | clock i => exact hs.clock i
  | call => exact hs.call hv (h.of_isPrefix he.1) hnow he.2
  | word => exact hs.word h he.1 hnow he.2

/-- The writer and the reader of v1_0 together: in every run in which the reader is on time, it
has processed the stream of the accepted words from its start, each half word once and in order,
and none before it was stored. -/
theorem processed_eq_stream (cfg : BitVec ring20.axiAddrWidth)
    (mem : Memory ring20.axiAddrWidth) (es : List (Event ring20))
    (h : Along RamWriter.step (Orderly cfg) (.reset ring20) (clocks es))
    (ht : Along (step v10 cfg mem) OnTime .start es) :
    (run (step v10 cfg mem) .start es).processed =
        (List.range (run (step v10 cfg mem) .start es).processed.length).map
          (acceptedHalf (clocks es)) ∧
      (run (step v10 cfg mem) .start es).processed.length ≤ 2 * (beats (clocks es)).length := by
  have hinv := inv_run rfl h (.inl rfl) ht
  refine ⟨hinv.processed, ?_⟩
  rw [← cycles_start_run v10 cfg mem es]
  exact (Nat.le_add_right _ _).trans hinv.stored

/-- A cycle in which the word `w` arrives and `ALMOSTEMPTY` has the value `e`. -/
def Event.beat (w : BitVec 64) (e : Bool) : Event g := .clock
  { aresetn := true
    cfgData := BitVec.ofNat _ 0x1E000000
    fifoFull := false
    fifoAlmostempty := e
    mAxiAwready := true
    mAxiWready := true
    sAxisTdata := w
    sAxisTvalid := true }

/-- A burst of which the program reads what is there, in two calls. -/
def burstRun (w : ℕ → BitVec 64) : List (Event g) :=
  (List.range 17).map (fun k => Event.beat (w k) true) ++
    [Event.beat (w 17) false, Event.beat (w 18) true, Event.beat (w 19) true, .call, .word, .word,
      Event.beat (w 20) true, .word, .word, .word, .call, .word, .word]

def countedRun : List (Event ring20) := burstRun fun k => BitVec.ofNat 64 (k + 1)

theorem processed_eq_stream_countedRun :
    (run (step v10 0x1E000000 fun _ => 0) .start countedRun).processed = [1, 0, 2, 0, 3, 0] ∧
      (run (step v10 0x1E000000 fun _ => 0) .start countedRun).processed =
        (List.range (run (step v10 0x1E000000 fun _ => 0) .start countedRun).processed.length).map
          (acceptedHalf (clocks countedRun)) ∧
      (run (step v10 0x1E000000 fun _ => 0) .start countedRun).processed.length ≤
        2 * (beats (clocks countedRun)).length :=
  ⟨by decide +kernel, processed_eq_stream 0x1E000000 (fun _ => 0) countedRun (by decide +kernel)
    (by decide +kernel)⟩

end LagoEcosystem.Reader.DataPath
