import LagoEcosystem.Trigger.Frames

/-!
# The status words of a frame

The trigger status and the counter status of a frame leave after its samples, from two
registers that every trigger event renews. A frame takes `DATA_ARRAY_LENGTH + 2` cycles, in
which the delay lines go on and further events come in, so the registers may belong to a
later event by then. `Framed` runs the core beside the event that started the frame and the
number of events since, and with the next stage always ready the status words are those of
the frame exactly when that number is zero.
-/

namespace LagoEcosystem.Trigger

open Clocked

variable {g : Generics}

/-! ## The event behind a frame -/

/-- What the trigger event of this cycle puts into the status registers. -/
def St.event (s : St g) (i : In) : TrEvent where
  tr2 := s.tr21SDlyReg
  tr1 := s.tr11SDlyReg
  clkCntPps := i.clkCntPpsI
  trigCnt := s.trigCntReg

/-- `ST_IDLE` starts a frame with the trigger event of this cycle. -/
def St.starts (s : St g) (i : In) : Bool :=
  s.fsm.stateReg == .stIdle && i.mAxisTready && s.trS i && !i.ppsI

/-- A trigger event meets a frame before the counter status is put into the output
register. -/
def St.renews (s : St g) (i : In) : Bool :=
  s.trS i && (s.fsm.stateReg == .stAttTr || s.fsm.stateReg == .stSendTrStatus)

/-- The core beside the event that started the last frame and the number of events that
met this frame later. -/
structure Framed (g : Generics) extends Tracked g where
  start : Option TrEvent
  later : ℕ

def Framed.reset (g : Generics) : Framed g := ⟨.reset g, none, 0⟩

def Framed.step (f : Framed g) (i : In) : Framed g :=
  if i.aresetn then
    { toTracked := f.toTracked.step i
      start := if f.st.starts i then some (f.st.event i) else f.start
      later := if f.st.starts i then 0 else if f.st.renews i then f.later + 1 else f.later }
  else .reset g

@[simp] theorem Framed.step_toTracked (f : Framed g) (i : In) :
    (f.step i).toTracked = f.toTracked.step i := by
  unfold Framed.step Tracked.step
  split <;> rfl

/-- The event that started the frame whose last word is put into the output register at
this edge. -/
def Framed.close (f : Framed g) (i : In) : List TrEvent :=
  if i.aresetn && i.mAxisTready && f.st.fsm.stateReg == .stSendCntStatus then f.start.toList
  else []

/-- The events that started the frames of a run, each once its frame is complete. -/
def closed (g : Generics) (is : List In) : List TrEvent :=
  collect Framed.step Framed.close (Framed.reset g) is

/-! ## The status words in the stream -/

/-- The status words that carry an event. -/
def TrEvent.words (e : TrEvent) : BitVec 32 × BitVec 32 :=
  (trStatusWord e.tr2 e.tr1 e.clkCntPps, cntStatusWord e.trigCnt)

/-- The two top bits are `10`, as in a counter status and in no other word. -/
def IsCntStatus (w : BitVec 32) : Prop := 2 ^ 31 ≤ w.toNat ∧ w.toNat < 3 * 2 ^ 30

instance (w : BitVec 32) : Decidable (IsCntStatus w) := by
  unfold IsCntStatus; infer_instance

/-- The pairs of status words in a stream: a counter status and the word before it. -/
def closings : List (BitVec 32) → List (BitVec 32 × BitVec 32)
  | v :: w :: ws => (if IsCntStatus w then [(v, w)] else []) ++ closings (w :: ws)
  | _ => []

/-- The status words transferred in a run are those of the events that started the frames.
A word is transferred in the cycle after it was put into the output register. -/
def FrameLaw (g : Generics) (is : List In) : Prop :=
  closings (transferred (St.reset g) is) = (closed g is.dropLast).map TrEvent.words

theorem closings_concat (ws : List (BitVec 32)) (w : BitVec 32) :
    closings (ws ++ [w]) =
      closings ws ++ if IsCntStatus w then (ws.getLast?.map (·, w)).toList else [] := by
  fun_induction closings ws with
  | case1 v u ws ih => simpa [closings] using ih
  | case2 ws hws =>
    match ws, hws with
    | [], _ => simp [closings]
    | [v], _ => simp [closings]
    | v :: u :: ws, hws => exact absurd rfl (hws v u ws)

theorem closings_append {ws us : List (BitVec 32)} (h : ∀ w ∈ us, ¬ IsCntStatus w) :
    closings (ws ++ us) = closings ws := by
  induction us using List.reverseRecOn with
  | nil => simp
  | append_singleton us u ih =>
    have hu : ¬ IsCntStatus u := h u (by simp)
    rw [← List.append_assoc, closings_concat, if_neg hu, List.append_nil]
    exact ih fun w hw => h w (by simp [hw])

theorem isCntStatus_cntStatusWord (trigCnt : BitVec 30) :
    IsCntStatus (cntStatusWord trigCnt) := cntStatusWord_bounds trigCnt

theorem cntStatusWord_inj {t u : BitVec 30} : cntStatusWord t = cntStatusWord u ↔ t = u := by
  refine ⟨fun h => ?_, congrArg _⟩
  have htoNat := congrArg BitVec.toNat h
  rw [toNat_cntStatusWord, toNat_cntStatusWord] at htoNat
  exact BitVec.eq_of_toNat_eq (by omega)

/-- Only a counter status is taken for one. -/
theorem Item.isCntStatus_word {x : Item} (h : IsCntStatus x.word) :
    ∃ trigCnt, x = .cntStatus trigCnt := by
  obtain ⟨hlow, hhigh⟩ := h
  cases x with
  | cntStatus trigCnt => exact ⟨trigCnt, rfl⟩
  | sample a b =>
    have hlt : (Item.sample a b).word.toNat < 2 ^ 30 := sampleWord_lt b a
    omega
  | trStatus tr2 tr1 clkCntPps =>
    have hlt : (Item.trStatus tr2 tr1 clkCntPps).word.toNat < 3 * 2 ^ 29 :=
      trStatusWord_lt tr2 tr1 clkCntPps
    omega
  | metadata k m =>
    have hle : 3 * 2 ^ 30 ≤ (Item.metadata k m).word.toNat := m.le_word k
    omega
  | subtrig k r =>
    have hlt : (Item.subtrig k r).word.toNat < 3 * 2 ^ 29 := r.word_lt k
    omega

/-! ## The output register while the next stage is ready -/

/-- The word that stays in the output register after this edge, which a reset clears. -/
def keep (s : St g) (i : In) : List (BitVec 32) := if i.aresetn then load s i else []

/-- The words put into the output register and not cleared by a reset. -/
def kept (g : Generics) (is : List In) : List (BitVec 32) := collect step keep (St.reset g) is

theorem keep_eq_pending {s : St g} {i : In} (hi : i.mAxisTready = true) :
    keep s i = (step s i).pending := by
  cases hr : i.aresetn with
  | false => simp [keep, step, hr, St.pending, St.reset, Fsm.reset]
  | true => simp [keep, step, hr, load_eq_pending hi]

/-- A word is transferred in the cycle after it was put into the output register. -/
theorem transferred_concat {is : List In} {i : In} (h : ∀ j ∈ is ++ [i], j.mAxisTready = true) :
    transferred (St.reset g) (is ++ [i]) = kept g is := by
  have hready : Along step (fun _ j => j.mAxisTready = true) (St.reset g) is :=
    along_of_forall step _ fun j hj => h j (by simp [hj])
  have hpending : (St.reset g).pending = [] := rfl
  have hcons : (St.reset g).pending ++ kept g is =
      transferred (St.reset g) is ++ (run step (St.reset g) is).pending :=
    hready.conserve fun s j hj => by rw [keep_eq_pending hj, transfer_eq_pending hj]
  rw [hpending, List.nil_append] at hcons
  rw [hcons, transferred, collect_append, collect_cons, collect_nil, List.append_nil,
    transfer_eq_pending (h i (by simp))]
  rfl

/-! ## Events inside a frame -/

/-- In the `n`-th cycle of a frame that `e` started, the last event is `l`, and its number
tells how many have come since `e`. -/
structure Framed.Sends (f : Framed g) (e l : TrEvent) (n : ℕ) : Prop where
  start : f.start = some e
  last : f.seen.trigger = some l
  same : f.later = 0 → l = e
  later_le : f.later ≤ n
  number : l.trigCnt = e.trigCnt + BitVec.ofNat 30 f.later
  next : f.st.trigCntReg = l.trigCnt + 1

theorem Framed.sends_of_starts {f : Framed g} {i : In} (hr : i.aresetn = true)
    (hs : f.st.starts i = true) :
    (f.step i).Sends (f.st.event i) (f.st.event i) 0 := by
  have htr : f.st.trS i = true := by grind [St.starts]
  refine ⟨?_, ?_, ?_, ?_, ?_, ?_⟩ <;>
    simp [Framed.step, Tracked.step, hr, hs, Capture.next, St.next, htr, St.event]

/-- A frame that goes on either meets no event or one more. -/
theorem Framed.Sends.step {f : Framed g} {e l : TrEvent} {n : ℕ} (h : f.Sends e l n) {i : In}
    (hr : i.aresetn = true)
    (hst : f.st.fsm.stateReg = .stAttTr ∨ f.st.fsm.stateReg = .stSendTrStatus) :
    ∃ l', (f.step i).Sends e l' (n + 1) ∧ f.later ≤ (f.step i).later := by
  have hstarts : f.st.starts i = false := by grind [St.starts]
  have hrenews : f.st.renews i = f.st.trS i := by grind [St.renews]
  obtain ⟨hstart, hlast, hsame, hle, hnumber, hnext⟩ := h
  cases htr : f.st.trS i
  · refine ⟨l, ⟨?_, ?_, ?_, ?_, ?_, ?_⟩, ?_⟩ <;>
      simp only [Framed.step, Tracked.step, hr, hstarts, hrenews, htr, Capture.next, St.next,
        if_true, Bool.false_eq_true, if_false]
    · exact hstart
    · exact hlast
    · exact hsame
    · omega
    · exact hnumber
    · exact hnext
    · exact le_rfl
  · refine ⟨f.st.event i, ⟨?_, ?_, ?_, ?_, ?_, ?_⟩, ?_⟩ <;>
      simp only [Framed.step, Tracked.step, hr, hstarts, hrenews, htr, Capture.next, St.next,
        if_true, Bool.false_eq_true, if_false]
    · exact hstart
    · rfl
    · omega
    · omega
    · rw [St.event, hnext, hnumber, BitVec.ofNat_add, BitVec.add_assoc]
      rfl
    · rfl
    · omega

/-- A frame is over long before the trigger number comes round. -/
theorem Framed.Sends.later_eq_zero {f : Framed g} {e l : TrEvent} {n : ℕ} (h : f.Sends e l n)
    (hn : n < 2 ^ 30) (hl : l.trigCnt = e.trigCnt) : f.later = 0 := by
  have hzero : BitVec.ofNat 30 f.later = 0 := by
    have hnumber := h.number
    rw [hl] at hnumber
    exact BitVec.self_eq_add_right.mp hnumber
  have hle := h.later_le
  have htoNat := congrArg BitVec.toNat hzero
  rw [BitVec.toNat_ofNat, Nat.mod_eq_of_lt (by omega)] at htoNat
  simpa using htoNat

/-- Where the core stands in a frame after `ws` were kept. -/
def Framed.Phase (f : Framed g) (ws : List (BitVec 32)) : Prop :=
  match f.st.fsm.stateReg with
  | .stAttTr => ∃ e l, f.Sends e l f.st.fsm.wrCountReg.toNat
  | .stSendTrStatus => ∃ e l, f.Sends e l g.dataArrayLength
  | .stSendCntStatus => ∃ e l v, f.Sends e l (g.dataArrayLength + 1) ∧
      ws.getLast? = some v ∧ (f.later = 0 → v = e.words.1)
  | .stIdle | .stAttSubtr | .stAttPps => True

/-- A frame needs a trigger event and gives way to a PPS pulse. -/
theorem idleNext_eq_attTr_iff (tr subtr pps : Bool) :
    idleNext tr subtr pps = .stAttTr ↔ tr = true ∧ pps = false := by
  cases tr <;> cases subtr <;> cases pps <;> decide

/-- Outside a frame nothing is said about the status words. -/
theorem Framed.phase_of_outside {f : Framed g} (h : f.st.fsm.stateReg ≠ .stAttTr)
    (h' : f.st.fsm.stateReg ≠ .stSendTrStatus) (h'' : f.st.fsm.stateReg ≠ .stSendCntStatus)
    (ws : List (BitVec 32)) : f.Phase ws := by
  unfold Framed.Phase
  split <;> trivial

section Phase

variable {f : Framed g} {i : In} {ws : List (BitVec 32)}

theorem Framed.fsm_step (hr : i.aresetn = true) : (f.step i).st.fsm = f.st.fsmNext i := by
  simp [Trigger.step, hr, St.next]

theorem Framed.phase_idle (hr : i.aresetn = true) (hi : i.mAxisTready = true)
    (hst : f.st.fsm.stateReg = .stIdle) : (f.step i).Phase ws := by
  have hstate : (f.st.fsmNext i).stateReg = idleNext (f.st.trS i) (f.st.subtrS i) i.ppsI := by
    simp [St.fsmNext, hst, hi]
  have htr := idleNext_eq_attTr_iff (f.st.trS i) (f.st.subtrS i) i.ppsI
  by_cases hs : f.st.starts i = true
  · have hnext : (f.st.fsmNext i).stateReg = .stAttTr := by grind [St.starts]
    have hcount : (f.st.fsmNext i).wrCountReg = 0 := by simp [St.fsmNext, hst]
    rw [Framed.Phase, Framed.fsm_step hr, hnext, hcount]
    exact ⟨_, _, Framed.sends_of_starts hr hs⟩
  · have hout := idleNext_ne_status (f.st.trS i) (f.st.subtrS i) i.ppsI
    apply Framed.phase_of_outside <;> rw [Framed.fsm_step hr, hstate]
    · grind [St.starts]
    · exact hout.1
    · exact hout.2

theorem Framed.phase_attTr (hinv : f.Inv) (hr : i.aresetn = true) (hi : i.mAxisTready = true)
    (hst : f.st.fsm.stateReg = .stAttTr) {vs : List (BitVec 32)} (h : f.Phase ws) :
    (f.step i).Phase vs := by
  simp only [Framed.Phase, hst] at h
  obtain ⟨e, l, hsends⟩ := h
  obtain ⟨l', hnext, -⟩ := hsends.step hr (.inl hst)
  have hlt : f.st.fsm.wrCountReg.toNat < g.dataArrayLength := by
    simpa [Fsm.InRange, hst] using hinv.inRange
  by_cases hlast : f.st.fsm.wrCountReg.toNat = g.dataArrayLength - 1
  · have hn : f.st.fsm.wrCountReg.toNat + 1 = g.dataArrayLength := by omega
    have hstate : (f.st.fsmNext i).stateReg = .stSendTrStatus := by
      simp [St.fsmNext, hst, hi, hlast]
    rw [Framed.Phase, Framed.fsm_step hr, hstate]
    rw [hn] at hnext
    exact ⟨e, l', hnext⟩
  · have hstate : (f.st.fsmNext i).stateReg = .stAttTr := by
      simp [St.fsmNext, hst, hi, hlast]
    have hcount : (f.st.fsmNext i).wrCountReg = f.st.fsm.wrCountReg + 1 := by
      simp [St.fsmNext, hst, hi]
    rw [Framed.Phase, Framed.fsm_step hr, hstate, hcount]
    rw [← toNat_count_succ g.counts hlt hlast] at hnext
    exact ⟨e, l', hnext⟩

theorem Framed.phase_sendTrStatus (hinv : f.Inv) (hr : i.aresetn = true)
    (hi : i.mAxisTready = true) (hst : f.st.fsm.stateReg = .stSendTrStatus) (h : f.Phase ws) :
    (f.step i).Phase (ws ++ keep f.st i) := by
  simp only [Framed.Phase, hst] at h
  obtain ⟨e, l, hsends⟩ := h
  obtain ⟨l', hnext, hlater⟩ := hsends.step hr (.inr hst)
  have hstate : (f.st.fsmNext i).stateReg = .stSendCntStatus := by
    simp [St.fsmNext, hst, hi]
  have hkeep : keep f.st i = [f.st.trStatusReg] := by
    simp [keep, load, St.fsmNext, hst, hi, hr]
  rw [Framed.Phase, Framed.fsm_step hr, hstate, hkeep]
  refine ⟨e, l', f.st.trStatusReg, hnext, by simp, fun hzero => ?_⟩
  have hl : l = e := hsends.same (by omega)
  rw [(hinv.trigger l hsends.last).1, hl]
  rfl

theorem Framed.phase_step (hinv : f.Inv) (hi : i.mAxisTready = true) (h : f.Phase ws) :
    (f.step i).Phase (ws ++ keep f.st i) := by
  cases hr : i.aresetn
  · have hreset : f.step i = .reset g := by simp [Framed.step, hr]
    rw [hreset]
    trivial
  cases hst : f.st.fsm.stateReg with
  | stIdle => exact Framed.phase_idle hr hi hst
  | stAttTr => exact Framed.phase_attTr hinv hr hi hst h
  | stSendTrStatus => exact Framed.phase_sendTrStatus hinv hr hi hst h
  | stSendCntStatus =>
    apply Framed.phase_of_outside <;> rw [Framed.fsm_step hr] <;> simp [St.fsmNext, hst, hi]
  | stAttSubtr | stAttPps =>
    have hbusy : f.st.fsm.stateReg ≠ .stIdle := by simp [hst]
    have hafter := St.fsmNext_stateReg_of_busy (i := i) hbusy
    simp only [hst, StateT.after] at hafter
    apply Framed.phase_of_outside <;> rw [Framed.fsm_step hr] <;>
      rcases hafter with hafter | hafter <;> simp [hafter]

end Phase

/-! ## One cycle -/

/-- No event has met the frame whose counter status is put into the output register. -/
def Framed.Undisturbed (f : Framed g) (i : In) : Prop :=
  i.aresetn = true → f.st.fsm.stateReg = .stSendCntStatus → f.later = 0

instance (f : Framed g) (i : In) : Decidable (f.Undisturbed i) := by
  unfold Framed.Undisturbed; infer_instance

/-- Only `ST_SEND_CNT_STATUS` loads a counter status. -/
theorem Tracked.not_isCntStatus_of_load {t : Tracked g} (hinv : t.Inv) {i : In}
    (hst : t.st.fsm.stateReg ≠ .stSendCntStatus) : ∀ w ∈ load t.st i, ¬ IsCntStatus w := by
  intro w hw hcnt
  rw [t.load_eq hinv i] at hw
  obtain ⟨x, hx, rfl⟩ := List.mem_map.mp hw
  obtain ⟨trigCnt, rfl⟩ := Item.isCntStatus_word hcnt
  cases hs : t.st.fsm.stateReg with
  | stSendCntStatus => exact hst hs
  | stIdle | stAttTr | stSendTrStatus => simp [Tracked.put, hs] at hx
  | stAttSubtr | stAttPps =>
    simp only [Tracked.put, hs] at hx
    split_ifs at hx <;> simp at hx

section Close

variable {f : Framed g} {i : In} {ws : List (BitVec 32)}

/-- The counter status closes its frame with the words of the event that started it exactly
when no event met the frame later. -/
theorem Framed.closings_of_sendCntStatus (hinv : f.Inv) (hr : i.aresetn = true)
    (hi : i.mAxisTready = true) (hst : f.st.fsm.stateReg = .stSendCntStatus) (h : f.Phase ws) :
    ∃ p e, closings (ws ++ keep f.st i) = closings ws ++ [p] ∧ f.close i = [e] ∧
      (p = e.words ↔ f.later = 0) := by
  simp only [Framed.Phase, hst] at h
  obtain ⟨e, l, v, hsends, hlast, hv⟩ := h
  have hkeep : keep f.st i = [cntStatusWord l.trigCnt] := by
    simp [keep, load, St.fsmNext, hst, hi, hr, (hinv.trigger l hsends.last).2]
  refine ⟨(v, cntStatusWord l.trigCnt), e, ?_, ?_, ?_⟩
  · rw [hkeep, closings_concat, if_pos (isCntStatus_cntStatusWord _), hlast]
    rfl
  · simp [Framed.close, hr, hi, hst, hsends.start]
  · constructor
    · intro hwords
      simp only [TrEvent.words, Prod.mk.injEq, cntStatusWord_inj] at hwords
      have hn : g.dataArrayLength + 1 < 2 ^ 30 := by have := g.counts; omega
      exact hsends.later_eq_zero hn hwords.2
    · intro hzero
      rw [hv hzero, hsends.same hzero]
      rfl

/-- A cycle closes no frame, or closes one and its words are those of the event that started
it exactly when the frame was not disturbed. -/
theorem Framed.closings_keep (hinv : f.Inv) (hi : i.mAxisTready = true) (h : f.Phase ws) :
    ∃ ps, closings (ws ++ keep f.st i) = closings ws ++ ps ∧
      ps.length = (f.close i).length ∧
      (ps = (f.close i).map TrEvent.words ↔ f.Undisturbed i) := by
  by_cases hclose : i.aresetn = true ∧ f.st.fsm.stateReg = .stSendCntStatus
  · obtain ⟨hr, hst⟩ := hclose
    obtain ⟨p, e, hp, he, hiff⟩ := Framed.closings_of_sendCntStatus hinv hr hi hst h
    refine ⟨[p], hp, by simp [he], ?_⟩
    simp [he, hiff, Framed.Undisturbed, hr, hst]
  · have hevent : f.close i = [] := by grind [Framed.close]
    have hkeep : ∀ w ∈ keep f.st i, ¬ IsCntStatus w := by
      cases hr : i.aresetn
      · simp [keep, hr]
      · simp only [keep, hr, if_true]
        exact Tracked.not_isCntStatus_of_load hinv fun hst => hclose ⟨hr, hst⟩
    refine ⟨[], by rw [closings_append hkeep, List.append_nil], by simp [hevent], ?_⟩
    simp only [hevent, List.map_nil, true_iff]
    exact fun hr hst => absurd ⟨hr, hst⟩ hclose

end Close

/-! ## The whole run -/

theorem Framed.step_st (f : Framed g) (i : In) : (f.step i).st = Trigger.step f.st i := by
  rw [step_toTracked, Tracked.step_st]

theorem kept_concat (is : List In) (i : In) :
    kept g (is ++ [i]) = kept g is ++ keep (run Framed.step (Framed.reset g) is).st i := by
  have hkept : ∀ js, collect Framed.step (fun f j => keep f.st j) (Framed.reset g) js = kept g js :=
    collect_map Framed.step_st keep (Framed.reset g)
  rw [← hkept, ← hkept, collect_append, collect_cons, collect_nil, List.append_nil]

/-- The closings of a run match the events that started its frames one by one, and all of
them agree exactly when no frame was disturbed. -/
structure Accounts (g : Generics) (is : List In) : Prop where
  inv : (run Framed.step (Framed.reset g) is).Inv
  phase : (run Framed.step (Framed.reset g) is).Phase (kept g is)
  count : (closings (kept g is)).length = (closed g is).length
  law : closings (kept g is) = (closed g is).map TrEvent.words ↔
    Along Framed.step Framed.Undisturbed (Framed.reset g) is

theorem Accounts.nil (g : Generics) : Accounts g [] where
  inv := Tracked.inv_reset g
  phase := trivial
  count := rfl
  law := by simp [kept, closed, closings]

theorem Accounts.concat {is : List In} (h : Accounts g is) {i : In} (hi : i.mAxisTready = true) :
    Accounts g (is ++ [i]) := by
  obtain ⟨ps, hps, hlen, hlaw⟩ := Framed.closings_keep h.inv hi h.phase
  have hclosed : closed g (is ++ [i]) =
      closed g is ++ (run Framed.step (Framed.reset g) is).close i := by simp [closed]
  refine ⟨?_, ?_, ?_, ?_⟩
  · rw [run_append, run_cons, run_nil, Framed.step_toTracked]
    exact Tracked.inv_step h.inv i
  · rw [kept_concat, run_append, run_cons, run_nil]
    exact Framed.phase_step h.inv hi h.phase
  · rw [kept_concat, hps, hclosed, List.length_append, List.length_append, h.count, hlen]
  · rw [kept_concat, hps, hclosed, List.map_append, along_append, ← h.law]
    constructor
    · intro heq
      obtain ⟨hold, hnew⟩ := List.append_inj heq (by rw [List.length_map, h.count])
      exact ⟨hold, hlaw.mp hnew, trivial⟩
    · rintro ⟨hold, hnew, -⟩
      rw [hold, hlaw.mpr hnew]

theorem accounts {is : List In} (h : ∀ i ∈ is, i.mAxisTready = true) : Accounts g is :=
  (along_of_forall step (St.reset g) h).induction_on_past (Accounts.nil g)
    fun _ _ _ hjs hi => hjs.concat hi

/-- With the next stage always ready, the status words of every frame are those of the
event that started it if and only if no frame meets a further event before its counter
status is put into the output register. -/
theorem frameLaw_iff (is : List In) (h : ∀ i ∈ is, i.mAxisTready = true) :
    FrameLaw g is ↔
      Along Framed.step Framed.Undisturbed (Framed.reset g) is.dropLast := by
  rcases List.eq_nil_or_concat is with rfl | ⟨js, i, rfl⟩
  · simp [FrameLaw, transferred, closed, closings]
  · rw [List.concat_eq_append] at h ⊢
    rw [FrameLaw, transferred_concat h, List.dropLast_concat]
    exact (accounts fun j hj => h j (by simp [hj])).law

/-- The samples of both channels in cycle `n` after a PPS pulse: channel A is above its level
from the start, channel B from cycle `lag` on. -/
def pulses (lag n : ℕ) : In :=
  { In.quiet with
    trigLvlAI := 5
    trigLvlBI := 5
    clkCntPpsI := BitVec.ofNat 27 n
    sAxisTdata := (if n < lag then 0#16 else 8#16) ++ 8#16
    sAxisTvalid := true }

/-- Channel A alone: one frame, and its status words are those of its event. -/
theorem frameLaw_onePulse :
    FrameLaw .blockDesign ((List.range 61).map (pulses 61)) ∧
      (closed .blockDesign ((List.range 61).map (pulses 61)).dropLast).length = 1 :=
  ⟨(frameLaw_iff _ (by decide)).mpr (by decide +kernel), by decide +kernel⟩

/-- Channel B two cycles after channel A: the frame of channel A is closed with the mask,
the clock count and the number of channel B. -/
theorem not_frameLaw_twoPulses :
    (∀ i ∈ (List.range 61).map (pulses 2), i.Ready) ∧
      ¬ FrameLaw .blockDesign ((List.range 61).map (pulses 2)) := by
  refine ⟨?_, ?_⟩
  · intro i hi
    obtain ⟨n, -, rfl⟩ := List.mem_map.mp hi
    exact ⟨rfl, rfl⟩
  · unfold FrameLaw
    decide +kernel

end LagoEcosystem.Trigger
