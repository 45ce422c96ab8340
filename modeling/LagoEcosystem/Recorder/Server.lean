import LagoEcosystem.Library.HalfBuffers
import LagoEcosystem.RamWriter.Streaming

/-!
# The server of the ADC test

`adc-test-server.c` sends the ring that the RAM writer fills, half by half, while the writer
goes on. A run interleaves clock cycles of the writer with looks at its position and with the
single bytes that `send` copies; nothing orders them but the run itself.
-/

namespace LagoEcosystem.Recorder

open BitFields ByteMemory Clocked RingMemory RamWriter

/-- The writers of `adc_test` and `dac_player`. -/
def ring16 : Generics := ⟨16, 3, 32, by decide, by decide⟩

inductive Event where
  | clock (i : In ring16)
  | poll
  | copy

/-- The cycles of the writer so far, the variable `limit`, the offsets that `send` has still to
copy, and the bytes sent. -/
structure St where
  cycles : List (In ring16)
  limit : ℕ
  todo : List ℕ
  sent : List (BitVec 8)

/-- The first round of the loop, after the reset of the writer. -/
def St.start : St := ⟨[], 32 * 1024, [], []⟩

/-- `*rx_cntr` -/
def St.position (s : St) : ℕ := (after s.cycles).intAddrReg.toNat

/-- The test for the 256 kB. -/
def ready (limit position : ℕ) : Bool :=
  (decide (limit > 0) && decide (position > limit)) || (limit == 0 && decide (position < 32 * 1024))

/-- The 256 kB at `offset` are passed to `send`. -/
def St.send (s : St) : St :=
  let offset := if s.limit > 0 then 0 else 256 * 1024
  { s with
    limit := if s.limit > 0 then 0 else 32 * 1024
    todo := List.range' offset (256 * 1024) }

/-- The program looks at the position when `send` has returned. -/
def St.sends (s : St) : Bool := s.todo.isEmpty && ready s.limit s.position

variable (cfg : BitVec ring16.axiAddrWidth) (mem : Memory ring16.axiAddrWidth)

/-- One step of the writer or of the program; `ram` is at the address `cfg`, and `mem` is what
the memory held before. -/
def step (s : St) : Event → St
  | .clock i => { s with cycles := s.cycles ++ [i] }
  | .poll => if s.sends then s.send else s
  | .copy =>
    { s with
      todo := s.todo.tail
      sent := s.sent ++ (s.todo.take 1).map fun c => memory mem s.cycles (offset cfg c) }

/-- The cycles of the writer in a run. -/
def clocks (es : List Event) : List (In ring16) :=
  es.filterMap fun
    | .clock i => some i
    | _ => none

/-- `n` cycles of a stream that never pauses, from number `k` on. -/
def flow (cfg : BitVec ring16.axiAddrWidth) (w : ℕ → BitVec 64) (k n : ℕ) : List Event :=
  (streaming cfg w k n).map .clock

/-- The program looks at the position when `a` words are stored and when `b` more are, and then
`c` bytes are copied. -/
def pollTwice (cfg : BitVec ring16.axiAddrWidth) (w : ℕ → BitVec 64) (a b c : ℕ) : List Event :=
  flow cfg w 0 (a + 18) ++ .poll :: (flow cfg w (a + 18) b ++ .poll :: List.replicate c .copy)

theorem cycles_run (s : St) (es : List Event) :
    (run (step cfg mem) s es).cycles = s.cycles ++ clocks es := by
  induction es generalizing s with
  | nil => simp [clocks]
  | cons e es ih =>
    rw [run_cons, ih]
    cases e with
    | clock i => simp [step, clocks]
    | poll =>
      rw [step]
      split <;> simp [St.send, clocks]
    | copy => simp [step, clocks]

/-! ## The half buffers -/

/-- The bytes stored, the limit as a byte offset, and the rest. -/
def St.halves (s : St) : HalfBuffers.St (BitVec 8) :=
  ⟨8 * (beats s.cycles).length, 8 * s.limit, s.todo, s.sent⟩

/-- A beat stores eight bytes. -/
def halfEvents (s : St) : Event → List HalfBuffers.Event
  | .clock i => List.replicate (8 * (beatOut (after s.cycles) i).length) .store
  | .poll => [.poll]
  | .copy => [.copy]

/-- The bytes of the ring before the run. -/
def initByte (i : ℕ) : BitVec 8 := byteAt (cellsAt 8 cfg mem (i / 8)) (i % 8)

/-- The half buffers of 256 kB for the stream of the run `all` of the writer. -/
def halfStep (all : List (In ring16)) :=
  HalfBuffers.step (256 * 1024) (initByte cfg mem) (acceptedByte all)

/-- The step stays in the run `all`, and `send` reads inside of the ring. -/
def Within (all : List (In ring16)) (s : St) (e : Event) : Prop :=
  (step cfg mem s e).cycles <+: all ∧ ∀ c ∈ s.todo, c < 8 * 2 ^ 16

variable {cfg mem} {all : List (In ring16)} {s : St}

theorem ready_eq (limit b : ℕ) : ready limit (b % 2 ^ 16) =
    HalfBuffers.passed (256 * 1024) (8 * limit) (8 * b % (2 * (256 * 1024))) := by
  rw [ready, HalfBuffers.passed, Bool.eq_iff_iff]
  simp
  omega

theorem position_eq (h : Along RamWriter.step (Orderly cfg) (.reset ring16) s.cycles) :
    s.position = (beats s.cycles).length % 2 ^ 16 :=
  (counted_after (InOrder.aresetn (Orderly.inOrder h))).addr

theorem sends_eq (hall : Along RamWriter.step (Orderly cfg) (.reset ring16) all)
    (h : s.cycles <+: all) : HalfBuffers.St.takes (256 * 1024) s.halves = s.sends := by
  rw [HalfBuffers.St.takes, St.sends, position_eq (hall.of_isPrefix h), ready_eq]
  rfl

/-- One step of the system is a run of the half buffers. -/
theorem halves_step (hall : Along RamWriter.step (Orderly cfg) (.reset ring16) all) (e : Event)
    (h : Within cfg mem all s e) :
    (step cfg mem s e).halves = run (halfStep cfg mem all) s.halves (halfEvents s e) := by
  obtain ⟨hin, htodo⟩ := h
  cases e with
  | clock i =>
    rw [halfEvents, halfStep, HalfBuffers.run_store, St.halves, St.halves, step, beats_snoc,
      List.length_append, Nat.mul_add]
  | poll =>
    have hcycles : (step cfg mem s .poll).cycles = s.cycles := by
      rw [step]
      split <;> rfl
    rw [hcycles] at hin
    rw [halfEvents, run_cons, run_nil, halfStep, HalfBuffers.step, sends_eq hall hin, step]
    split
    case isTrue =>
      rw [St.halves, St.send, HalfBuffers.St.take]
      by_cases hlimit : 0 < s.limit <;> simp [St.halves, hlimit]
    case isFalse => rfl
  | copy =>
    have hbyte : (s.todo.take 1).map (fun c => memory mem s.cycles (offset cfg c)) =
        (s.todo.take 1).map (RingMemory.fill (2 * (256 * 1024)) (initByte cfg mem)
          (acceptedByte all) (8 * (beats s.cycles).length)) := by
      refine List.map_congr_left fun c hc => ?_
      exact memory_offset hin mem hall (htodo c (List.mem_of_mem_take hc))
    rw [halfEvents, run_cons, run_nil, halfStep, step, hbyte]
    rfl

/-! ## Runs -/

theorem todo_lt_step (h : ∀ c ∈ s.todo, c < 8 * 2 ^ 16) (e : Event) :
    ∀ c ∈ (step cfg mem s e).todo, c < 8 * 2 ^ 16 := by
  cases e with
  | clock i => exact h
  | poll =>
    rw [step]
    split
    case isTrue =>
      intro c hc
      rw [St.send, List.mem_range'_1] at hc
      split at hc <;> omega
    case isFalse => exact h
  | copy => exact fun c hc => h c (List.mem_of_mem_tail hc)

theorem within_run (cfg : BitVec ring16.axiAddrWidth) (mem : Memory ring16.axiAddrWidth)
    (es : List Event) : Along (step cfg mem) (Within cfg mem (clocks es)) .start es := by
  refine along_of_forall_snoc fun js e hjs => ⟨?_, ?_⟩
  · have hcycles := cycles_run cfg mem .start (js ++ [e])
    rw [run_append] at hcycles
    rw [← run_nil (step cfg mem) (step cfg mem _ e), ← run_cons, hcycles]
    exact hjs.filterMap _
  · have hall := along_of_forall (K := fun _ => True) (step cfg mem) St.start
      fun e (_ : e ∈ js) => trivial
    exact hall.invariant (P := fun s => ∀ c ∈ s.todo, c < 8 * 2 ^ 16) (by simp [St.start])
      fun s e hs _ => todo_lt_step hs e

/-- The events of the half buffers in a run. -/
def halfRun (cfg : BitVec ring16.axiAddrWidth) (mem : Memory ring16.axiAddrWidth)
    (es : List Event) : List HalfBuffers.Event := collect (step cfg mem) halfEvents .start es

section Run

variable {es : List Event}

theorem cycles_start_run (cfg : BitVec ring16.axiAddrWidth) (mem : Memory ring16.axiAddrWidth)
    (es : List Event) : (run (step cfg mem) .start es).cycles = clocks es :=
  cycles_run cfg mem .start es

theorem halves_run (mem : Memory ring16.axiAddrWidth)
    (h : Along RamWriter.step (Orderly cfg) (.reset ring16) (clocks es)) :
    (run (step cfg mem) .start es).halves =
      run (halfStep cfg mem (clocks es)) (.start (256 * 1024)) (halfRun cfg mem es) :=
  (within_run cfg mem es).refine St.halves halfEvents fun _ e hi => halves_step h e hi

/-- Whole halves have been taken, and they have been stored. -/
theorem inv_run (mem : Memory ring16.axiAddrWidth)
    (h : Along RamWriter.step (Orderly cfg) (.reset ring16) (clocks es)) :
    HalfBuffers.Inv (256 * 1024) (run (step cfg mem) .start es).halves := by
  rw [halves_run mem h]
  exact HalfBuffers.inv_run (by decide) _

end Run

/-! ## What is sent -/

/-- The place in the stream of the byte that the next copy finds: in front of the next word of
the same cell that has not been stored yet. -/
def St.source (s : St) : ℕ :=
  s.sent.length + 8 * 2 ^ 16 * ((8 * (beats s.cycles).length - 1 - s.sent.length) / (8 * 2 ^ 16))

def sourceOut (s : St) : Event → List ℕ
  | .copy => (s.todo.take 1).map fun _ => s.source
  | _ => []

/-- The places in the stream of all bytes sent. -/
def sources (cfg : BitVec ring16.axiAddrWidth) (mem : Memory ring16.axiAddrWidth)
    (es : List Event) : List ℕ := collect (step cfg mem) sourceOut .start es

/-- The writer has not come back to the byte. -/
def OnTime (s : St) (e : Event) : Prop :=
  match e with
  | .copy => s.todo ≠ [] → 8 * (beats s.cycles).length ≤ s.sent.length + 8 * 2 ^ 16
  | _ => True

instance (s : St) : (e : Event) → Decidable (OnTime s e)
  | .clock _ => .isTrue trivial
  | .poll => .isTrue trivial
  | .copy => inferInstanceAs (Decidable (_ → _ ≤ _))

/-- What the client receives in the run `es`. -/
structure SendLaw (cfg : BitVec ring16.axiAddrWidth) (mem : Memory ring16.axiAddrWidth)
    (es : List Event) : Prop where
  /-- Bytes of accepted words, with their places. -/
  sent : (run (step cfg mem) .start es).sent =
    (sources cfg mem es).map (acceptedByte (clocks es))
  /-- The places are the first ones, each once and in order, exactly if no copy is late. -/
  inOrder : sources cfg mem es = List.range (run (step cfg mem) .start es).sent.length ↔
    Along (step cfg mem) OnTime .start es
  /-- Nothing is sent before it is stored. -/
  stored : (run (step cfg mem) .start es).sent.length ≤ 8 * (beats (clocks es)).length

theorem sourceOut_halfEvents (s : St) (e : Event) :
    collect (halfStep cfg mem all) (HalfBuffers.sourceOut (256 * 1024)) s.halves (halfEvents s e) =
      sourceOut s e := by
  cases e with
  | clock i =>
    rw [halfEvents, collect_eq_nil_iff.mpr]
    · rfl
    · exact (along_of_forall (K := fun e => e = .store) _ _ (by simp)).mono fun s e he => by
        rw [he]; rfl
  | poll => rfl
  | copy => simp [halfEvents, HalfBuffers.sourceOut, sourceOut, St.halves, HalfBuffers.St.source,
      St.source]

theorem onTime_halfEvents (s : St) (e : Event) :
    Along (halfStep cfg mem all) (HalfBuffers.OnTime (256 * 1024)) s.halves (halfEvents s e) ↔
      OnTime s e := by
  cases e with
  | clock i =>
    have hstores : Along (halfStep cfg mem all) (fun _ e => e = .store) s.halves
        (halfEvents s (.clock i)) := along_of_forall _ _ (by simp [halfEvents])
    simp only [OnTime, iff_true]
    exact hstores.mono fun s e he => by simp [HalfBuffers.OnTime, he]
  | poll => simp [halfEvents, HalfBuffers.OnTime, OnTime]
  | copy => simp [halfEvents, HalfBuffers.OnTime, OnTime, St.halves]

section Run

variable {es : List Event}

theorem sources_eq (h : Along RamWriter.step (Orderly cfg) (.reset ring16) (clocks es)) :
    sources cfg mem es =
      HalfBuffers.sources (256 * 1024) (initByte cfg mem) (acceptedByte (clocks es))
        (halfRun cfg mem es) := by
  have hcollect := (within_run cfg mem es).refine_collect St.halves halfEvents
    (HalfBuffers.sourceOut (256 * 1024)) fun _ e hi => halves_step h e hi
  simp only [sourceOut_halfEvents] at hcollect
  exact hcollect.symm

theorem sent_eq (mem : Memory ring16.axiAddrWidth)
    (h : Along RamWriter.step (Orderly cfg) (.reset ring16) (clocks es)) :
    (run (step cfg mem) .start es).sent = (sources cfg mem es).map (acceptedByte (clocks es)) := by
  have hhalves := congrArg HalfBuffers.St.sent (halves_run mem h)
  rw [sources_eq h, ← HalfBuffers.sent_eq (by decide)]
  exact hhalves

theorem sources_eq_range_iff
    (h : Along RamWriter.step (Orderly cfg) (.reset ring16) (clocks es)) :
    sources cfg mem es = List.range (run (step cfg mem) .start es).sent.length ↔
      Along (step cfg mem) OnTime .start es := by
  have hhalves := congrArg HalfBuffers.St.sent (halves_run mem h)
  have hiff := HalfBuffers.sources_eq_iff (by decide : 0 < 256 * 1024) (initByte cfg mem)
    (acceptedByte (clocks es)) (halfRun cfg mem es)
  have hlen : (run (step cfg mem) .start es).sent.length = _ := congrArg List.length hhalves
  rw [sources_eq h, hlen]
  refine hiff.trans ?_
  exact ((within_run cfg mem es).refine_along_iff St.halves halfEvents
    fun _ e hi => halves_step h e hi).trans
      ⟨fun h => h.mono fun s e => (onTime_halfEvents s e).mp,
        fun h => h.mono fun s e => (onTime_halfEvents s e).mpr⟩

end Run

theorem sendLaw (cfg : BitVec ring16.axiAddrWidth) (mem : Memory ring16.axiAddrWidth)
    (es : List Event) (h : Along RamWriter.step (Orderly cfg) (.reset ring16) (clocks es)) :
    SendLaw cfg mem es := by
  refine ⟨sent_eq mem h, sources_eq_range_iff h, ?_⟩
  have hstored := (inv_run mem h).stored
  rw [HalfBuffers.St.taken] at hstored
  rw [← cycles_start_run cfg mem es]
  exact Nat.le_trans (Nat.le_add_right _ _) hstored

/-! ## A pace that is enough -/

/-- The program with the number of words stored when it last looked at the position, and the
branch that it took then. -/
structure Paced where
  st : St
  seen : ℕ
  sending : Bool

def Paced.start : Paced := ⟨.start, 0, false⟩

def Paced.next (cfg : BitVec ring16.axiAddrWidth) (mem : Memory ring16.axiAddrWidth) (t : Paced)
    (e : Event) : Paced where
  st := step cfg mem t.st e
  seen :=
    match e with
    | .poll => (beats t.st.cycles).length
    | _ => t.seen
  sending :=
    match e with
    | .poll => t.st.sends
    | _ => t.sending

/-- At most `P` words are stored while the program sleeps, and at most `Q` words from the test
until `send` has returned and the program looks at the position again. -/
def Timely (P Q : ℕ) (t : Paced) : Event → Prop
  | .clock _ => True
  | .poll => t.st.todo = [] ∧ (beats t.st.cycles).length ≤ t.seen + if t.sending then Q else P
  | .copy => (beats t.st.cycles).length ≤ t.seen + Q

instance (P Q : ℕ) (t : Paced) : (e : Event) → Decidable (Timely P Q t e)
  | .clock _ => .isTrue trivial
  | .poll => inferInstanceAs (Decidable (_ ∧ _ ≤ _))
  | .copy => inferInstanceAs (Decidable (_ ≤ _))

/-- The half buffers of a paced program. -/
def Paced.halves (t : Paced) : HalfBuffers.Paced (BitVec 8) := ⟨t.st.halves, 8 * t.seen, t.sending⟩

theorem paced_run_store (N : ℕ) (init w : ℕ → BitVec 8) (t : HalfBuffers.Paced (BitVec 8)) (n : ℕ) :
    run (HalfBuffers.Paced.next N init w) t (List.replicate n .store) =
      { t with st := run (HalfBuffers.step N init w) t.st (List.replicate n .store) } := by
  induction n generalizing t with
  | zero => rfl
  | succ n ih =>
    rw [List.replicate_succ, run_cons, ih]
    rfl

theorem paced_halves_next (hall : Along RamWriter.step (Orderly cfg) (.reset ring16) all)
    {t : Paced} (e : Event) (h : Within cfg mem all t.st e) :
    (t.next cfg mem e).halves =
      run (HalfBuffers.Paced.next (256 * 1024) (initByte cfg mem) (acceptedByte all)) t.halves
        (halfEvents t.st e) := by
  have hst := halves_step hall e h
  cases e with
  | clock i =>
    rw [halfEvents, paced_run_store]
    rw [halfEvents] at hst
    simp only [Paced.halves, Paced.next, hst]
    rfl
  | poll =>
    have hcycles : (step cfg mem t.st .poll).cycles = t.st.cycles := by
      rw [step]
      split <;> rfl
    have hin := h.1
    rw [hcycles] at hin
    have hsends := sends_eq hall hin
    simp only [Paced.halves, Paced.next, hst]
    simp [halfEvents, HalfBuffers.Paced.next, halfStep, hsends]
    rfl
  | copy =>
    simp only [Paced.halves, Paced.next, hst]
    rfl

theorem timely_halfEvents {P Q : ℕ} {t : Paced} {e : Event} (h : Timely P Q t e) :
    Along (HalfBuffers.Paced.next (256 * 1024) (initByte cfg mem) (acceptedByte all))
      (HalfBuffers.Timely (8 * P) (8 * Q)) t.halves (halfEvents t.st e) := by
  cases e with
  | clock i =>
    have hstores : Along (HalfBuffers.Paced.next (256 * 1024) (initByte cfg mem)
        (acceptedByte all)) (fun _ e => e = .store) t.halves (halfEvents t.st (.clock i)) :=
      along_of_forall _ _ (by simp [halfEvents])
    exact hstores.mono fun t e he => by rw [he]; trivial
  | poll =>
    obtain ⟨htodo, hle⟩ := h
    refine ⟨⟨htodo, ?_⟩, trivial⟩
    simp only [Paced.halves, St.halves]
    split at hle <;> simp_all <;> omega
  | copy =>
    refine ⟨?_, trivial⟩
    have hle : (beats t.st.cycles).length ≤ t.seen + Q := h
    simp only [HalfBuffers.Timely, Paced.halves, St.halves]
    omega

/-- A timely program is never late. -/
theorem onTime_of_timely {P Q : ℕ} (hP : P < 32 * 1024) (hPQ : P + Q ≤ 32 * 1024)
    {es : List Event} (h : Along RamWriter.step (Orderly cfg) (.reset ring16) (clocks es))
    (ht : Along (Paced.next cfg mem) (Timely P Q) .start es) :
    Along (step cfg mem) OnTime .start es := by
  have hwithin : Along (Paced.next cfg mem) (fun t e => Within cfg mem (clocks es) t.st e)
      .start es := (along_map (fun _ _ => rfl) Paced.start es).mpr (within_run cfg mem es)
  have htimely := (hwithin.refine_along_iff (D := HalfBuffers.Timely (8 * P) (8 * Q)) Paced.halves
    (fun t e => halfEvents t.st e) fun t e hi => paced_halves_next h e hi).mpr
      (ht.mono fun t e => timely_halfEvents)
  have hon := HalfBuffers.onTime_of_timely (by omega) (by omega) htimely
  have hsame : collect (Paced.next cfg mem) (fun t e => halfEvents t.st e) .start es =
      halfRun cfg mem es := collect_map (fun _ _ => rfl) halfEvents Paced.start es
  rw [hsame] at hon
  exact (((within_run cfg mem es).refine_along_iff St.halves halfEvents
    fun _ e hi => halves_step h e hi).mp hon).mono fun s e => (onTime_halfEvents s e).mp

/-- What a timely program sends is the stream of the accepted words, byte by byte from its
start. -/
theorem sent_of_timely {P Q : ℕ} (hP : P < 32 * 1024) (hPQ : P + Q ≤ 32 * 1024)
    (cfg : BitVec ring16.axiAddrWidth) (mem : Memory ring16.axiAddrWidth) (es : List Event)
    (h : Along RamWriter.step (Orderly cfg) (.reset ring16) (clocks es))
    (ht : Along (Paced.next cfg mem) (Timely P Q) .start es) :
    (run (step cfg mem) .start es).sent =
      (List.range (run (step cfg mem) .start es).sent.length).map (acceptedByte (clocks es)) := by
  rw [← (sources_eq_range_iff h).mpr (onTime_of_timely hP hPQ h ht)]
  exact sent_eq mem h

/-! ## A half is sent -/

section Half

variable {w : ℕ → BitVec 64} {a b c P Q : ℕ}

theorem paced_clocks (t : Paced) (is : List (In ring16)) :
    run (Paced.next cfg mem) t (is.map .clock) =
      { t with st := { t.st with cycles := t.st.cycles ++ is } } := by
  induction is generalizing t with
  | nil => simp
  | cons i is ih =>
    rw [List.map_cons, run_cons, ih]
    simp [Paced.next, step]

theorem along_clocks (t : Paced) (is : List (In ring16)) :
    Along (Paced.next cfg mem) (Timely P Q) t (is.map .clock) := by
  induction is generalizing t with
  | nil => trivial
  | cons i is ih => exact ⟨trivial, ih _⟩

theorem clocks_map (is : List (In ring16)) : clocks (is.map .clock) = is := by
  induction is with
  | nil => rfl
  | cons i is ih => exact congrArg (i :: ·) ih

theorem clocks_copies (c : ℕ) : clocks (List.replicate c .copy) = [] := by
  induction c with
  | zero => rfl
  | succ c ih => exact ih

theorem clocks_pollTwice : clocks (pollTwice cfg w a b c) = streaming cfg w 0 (a + b + 18) := by
  have hpoll (es : List Event) : clocks (.poll :: es) = clocks es := rfl
  have happend (es fs : List Event) : clocks (es ++ fs) = clocks es ++ clocks fs :=
    List.filterMap_append
  rw [pollTwice, flow, flow, happend, hpoll, happend, hpoll, clocks_map, clocks_map, clocks_copies,
    List.append_nil, streaming_zero_append, Nat.add_right_comm]

/-- The program that waits for the first half, with `n` words stored. -/
def St.waiting (cfg : BitVec ring16.axiAddrWidth) (w : ℕ → BitVec 64) (n : ℕ) : St :=
  { St.start with cycles := streaming cfg w 0 (n + 18) }

variable (cfg w) in
theorem beats_waiting (n : ℕ) : (beats (St.waiting cfg w n).cycles).length = n :=
  length_beats_streaming cfg w (n + 18)

theorem sends_waiting {n : ℕ} (hn : n < 2 ^ 16) :
    (St.waiting cfg w n).sends = decide (32 * 1024 < n) := by
  have hposition : (St.waiting cfg w n).position = n := by
    rw [position_eq (orderly_streaming cfg w (n + 18)), beats_waiting, Nat.mod_eq_of_lt hn]
  rw [St.sends, hposition, ready]
  simp [St.waiting, St.start]

variable (cfg mem w) in
/-- The looks at the position: the first half is not complete, and then it is. -/
theorem paced_polls (ha : a ≤ 32 * 1024) (hab : 32 * 1024 < a + b) (hlt : a + b < 2 ^ 16) :
    (⟨.waiting cfg w a, 0, false⟩ : Paced).next cfg mem .poll = ⟨.waiting cfg w a, a, false⟩ ∧
      (⟨.waiting cfg w (a + b), a, false⟩ : Paced).next cfg mem .poll =
        ⟨(St.waiting cfg w (a + b)).send, a + b, true⟩ := by
  have hno : (St.waiting cfg w a).sends = false := by
    rw [sends_waiting (by omega)]
    exact decide_eq_false (by omega)
  have hyes : (St.waiting cfg w (a + b)).sends = true := by
    rw [sends_waiting hlt]
    exact decide_eq_true hab
  constructor
  · simp [Paced.next, step, hno, beats_waiting]
  · simp [Paced.next, step, hyes, beats_waiting]

theorem paced_flow (n m seen : ℕ) :
    run (Paced.next cfg mem) ⟨.waiting cfg w n, seen, false⟩ (flow cfg w (n + 18) m) =
      ⟨.waiting cfg w (n + m), seen, false⟩ := by
  have hcycles : (St.waiting cfg w n).cycles ++ streaming cfg w (n + 18) m =
      (St.waiting cfg w (n + m)).cycles := by
    rw [St.waiting, St.waiting, streaming_zero_append, Nat.add_right_comm]
  rw [flow, paced_clocks, hcycles]
  rfl

theorem paced_start (n : ℕ) :
    run (Paced.next cfg mem) .start (flow cfg w 0 (n + 18)) = ⟨.waiting cfg w n, 0, false⟩ := by
  rw [flow, paced_clocks]
  rfl

theorem along_copies {t : Paced} (h : (beats t.st.cycles).length ≤ t.seen + Q) (c : ℕ) :
    Along (Paced.next cfg mem) (Timely P Q) t (List.replicate c .copy) := by
  induction c generalizing t with
  | zero => trivial
  | succ c ih => exact ⟨h, ih h⟩

variable (cfg mem) in
/-- A copy takes the next byte off. -/
theorem run_copies (s : St) (c : ℕ) :
    (run (step cfg mem) s (List.replicate c .copy)).todo = s.todo.drop c ∧
      (run (step cfg mem) s (List.replicate c .copy)).sent.length =
        s.sent.length + min c s.todo.length := by
  induction c generalizing s with
  | zero => simp
  | succ c ih =>
    obtain ⟨htodo, hsent⟩ := ih (step cfg mem s .copy)
    rw [List.replicate_succ, run_cons, htodo, hsent]
    constructor
    · simp [step]
    · simp only [step, List.length_append, List.length_map, List.length_take, List.length_tail]
      omega

theorem timely_pollTwice (ha : a ≤ 32 * 1024) (hab : 32 * 1024 < a + b) (hlt : a + b < 2 ^ 16)
    (haP : a ≤ P) (hbP : b ≤ P) (c : ℕ) :
    Along (Paced.next cfg mem) (Timely P Q) .start (pollTwice cfg w a b c) := by
  obtain ⟨hfirst, hsecond⟩ := paced_polls cfg mem w ha hab hlt
  rw [pollTwice, along_append, paced_start, along_cons, hfirst, along_append, paced_flow,
    along_cons, hsecond]
  refine ⟨along_clocks _ _, ⟨rfl, ?_⟩, along_clocks _ _, ⟨rfl, ?_⟩, along_copies ?_ c⟩
  · rw [beats_waiting]
    simpa using haP
  · rw [beats_waiting]
    simpa using hbP
  · have hbeats := beats_waiting cfg w (a + b)
    exact hbeats.le.trans (Nat.le_add_right _ _)

theorem run_pollTwice (ha : a ≤ 32 * 1024) (hab : 32 * 1024 < a + b) (hlt : a + b < 2 ^ 16)
    (c : ℕ) : run (step cfg mem) .start (pollTwice cfg w a b c) =
      run (step cfg mem) (St.waiting cfg w (a + b)).send (List.replicate c .copy) := by
  obtain ⟨hfirst, hsecond⟩ := paced_polls cfg mem w ha hab hlt
  have hpaced : run (Paced.next cfg mem) .start (pollTwice cfg w a b c) =
      run (Paced.next cfg mem) ⟨(St.waiting cfg w (a + b)).send, a + b, true⟩
        (List.replicate c .copy) := by
    rw [pollTwice, run_append, paced_start, run_cons, hfirst, run_append, paced_flow, run_cons,
      hsecond]
  have hst (t : Paced) (es : List Event) :
      (run (Paced.next cfg mem) t es).st = run (step cfg mem) t.st es :=
    run_map (f := Paced.st) (fun _ _ => rfl) t es
  have hsame := congrArg Paced.st hpaced
  rw [hst, hst] at hsame
  exact hsame

theorem todo_pollTwice (ha : a ≤ 32 * 1024) (hab : 32 * 1024 < a + b) (hlt : a + b < 2 ^ 16) :
    (run (step cfg mem) .start (pollTwice cfg w a b (256 * 1024))).todo = [] ∧
      (run (step cfg mem) .start (pollTwice cfg w a b (256 * 1024))).sent.length = 256 * 1024 := by
  have hlen : (St.waiting cfg w (a + b)).send.todo.length = 256 * 1024 := List.length_range'
  rw [run_pollTwice ha hab hlt]
  obtain ⟨htodo, hsent⟩ := run_copies cfg mem (St.waiting cfg w (a + b)).send
    (256 * 1024)
  constructor
  · rw [htodo]
    exact List.drop_of_length_le hlen.le
  · rw [hsent, hlen, Nat.min_self]
    exact Nat.zero_add _

end Half

/-- The first half is sent, and 33000 words are stored by then. -/
def oneHalf : List Event := pollTwice 0x1E000000 (BitVec.ofNat 64) 20000 13000 (256 * 1024)

theorem orderly_oneHalf :
    Along RamWriter.step (Orderly 0x1E000000) (.reset ring16) (clocks oneHalf) := by
  rw [oneHalf, clocks_pollTwice]
  exact orderly_streaming _ _ _

theorem timely_oneHalf (mem : Memory ring16.axiAddrWidth) :
    Along (Paced.next 0x1E000000 mem) (Timely 20000 12768) .start oneHalf :=
  timely_pollTwice (by decide) (by decide) (by decide) (by decide) (by decide) _

theorem length_sent_oneHalf (mem : Memory ring16.axiAddrWidth) :
    (run (step 0x1E000000 mem) .start oneHalf).todo = [] ∧
      (run (step 0x1E000000 mem) .start oneHalf).sent.length = 256 * 1024 :=
  todo_pollTwice (by decide) (by decide) (by decide)

theorem sendLaw_oneHalf : (run (step 0x1E000000 fun _ => 0) .start oneHalf).sent.length =
      256 * 1024 ∧ SendLaw 0x1E000000 (fun _ => 0) oneHalf :=
  ⟨(length_sent_oneHalf _).2, sendLaw 0x1E000000 _ oneHalf orderly_oneHalf⟩

theorem sent_of_timely_oneHalf :
    (run (step 0x1E000000 fun _ => 0) .start oneHalf).sent.length = 256 * 1024 ∧
      (run (step 0x1E000000 fun _ => 0) .start oneHalf).sent =
        (List.range (run (step 0x1E000000 fun _ => 0) .start oneHalf).sent.length).map
          (acceptedByte (clocks oneHalf)) :=
  ⟨(length_sent_oneHalf _).2, sent_of_timely (by decide) (by decide) 0x1E000000 (fun _ => 0) oneHalf
    orderly_oneHalf (timely_oneHalf _)⟩

end LagoEcosystem.Recorder
