import LagoEcosystem.Trigger.Core

/-!
# What the trigger core puts into its stream

The output register is loaded word by word. `Item` says what a loaded word means, with
the values the core put into it: the sample that leaves the delay lines, the values that
were captured at the last trigger event, at the last PPS pulse or at the last
sub-trigger. `Tracked` runs the core beside a record of these captures, and `Tracked.Inv`
ties the record to the registers, so that every loaded word is the encoding of its item.
-/

namespace LagoEcosystem.Trigger

open Clocked

variable {g : Generics}

/-- A word of the output stream with the values it carries. -/
inductive Item where
  | sample (a b : BitVec 14)
  | trStatus (tr2 tr1 : Bool) (clkCntPps : BitVec 27)
  | cntStatus (trigCnt : BitVec 30)
  | metadata (k : Fin 12) (m : Metadata)
  | subtrig (k : Fin 3) (r : Subtrig)

/-- The encoding of an item. -/
def Item.word : Item → BitVec 32
  | .sample a b => sampleWord b a
  | .trStatus tr2 tr1 clkCntPps => trStatusWord tr2 tr1 clkCntPps
  | .cntStatus trigCnt => cntStatusWord trigCnt
  | .metadata k m => m.word k
  | .subtrig k r => r.word k

/-! ## Captures -/

/-- The values of a trigger event. -/
structure TrEvent where
  tr2 : Bool
  tr1 : Bool
  clkCntPps : BitVec 27
  trigCnt : BitVec 30

/-- The last trigger event, PPS pulse and sub-trigger since reset. -/
structure Capture where
  trigger : Option TrEvent
  second : Option Metadata
  peak : Option Subtrig

def Capture.next (c : Capture) (s : St g) (i : In) : Capture where
  trigger :=
    if s.trS i then some ⟨s.tr21SDlyReg, s.tr11SDlyReg, i.clkCntPpsI, s.trigCntReg⟩
    else c.trigger
  second := if i.ppsI then some (s.metadata i) else c.second
  peak := if s.subtrS i then some (s.subtrig i) else c.peak

/-- The core beside a record of what it captured. -/
structure Tracked (g : Generics) where
  st : St g
  seen : Capture

def Tracked.reset (g : Generics) : Tracked g := ⟨.reset g, ⟨none, none, none⟩⟩

def Tracked.step (t : Tracked g) (i : In) : Tracked g :=
  if i.aresetn then ⟨t.st.next i, t.seen.next t.st i⟩ else .reset g

@[simp] theorem Tracked.step_st (t : Tracked g) (i : In) :
    (t.step i).st = Trigger.step t.st i := by
  unfold Tracked.step Trigger.step
  split <;> rfl

/-! ## Loaded words -/

/-- The word the state machine puts into the output register at this edge, if any. -/
def load (s : St g) (i : In) : List (BitVec 32) :=
  if i.mAxisTready && s.fsm.stateReg != .stIdle then [(s.fsmNext i).dataToFifoReg] else []

/-- The words put into the output register in a run that starts in `s`, each once. -/
def loaded (s : St g) (is : List In) : List (BitVec 32) := collect step load s is

/-- The item behind the word of `load`. -/
def Tracked.put (t : Tracked g) (i : In) : List Item :=
  let count := t.st.fsm.wrCountReg.toNat
  if i.mAxisTready then
    match t.st.fsm.stateReg with
    | .stIdle => []
    | .stAttTr => [.sample t.st.sampleA t.st.sampleB]
    | .stSendTrStatus =>
      (t.seen.trigger.map fun e => .trStatus e.tr2 e.tr1 e.clkCntPps).toList
    | .stSendCntStatus => (t.seen.trigger.map fun e => .cntStatus e.trigCnt).toList
    | .stAttSubtr =>
      if h : count < 3 then (t.seen.peak.map (.subtrig ⟨count, h⟩)).toList else []
    | .stAttPps =>
      if h : count < 12 then (t.seen.second.map (.metadata ⟨count, h⟩)).toList else []
  else []

/-! ## The invariant -/

/-- The write count stays inside the block that is being sent. -/
def Fsm.InRange (g : Generics) (f : Fsm) : Prop :=
  match f.stateReg with
  | .stAttTr => f.wrCountReg.toNat < g.dataArrayLength
  | .stAttSubtr => f.wrCountReg.toNat < 3
  | .stAttPps => f.wrCountReg.toNat < 12
  | _ => True

/-- The capture that the block being sent comes from has happened. -/
def Capture.Covers (c : Capture) : StateT → Prop
  | .stIdle => True
  | .stAttTr | .stSendTrStatus | .stSendCntStatus => c.trigger.isSome
  | .stAttSubtr => c.peak.isSome
  | .stAttPps => c.second.isSome

structure Tracked.Inv (t : Tracked g) : Prop where
  trigger : ∀ e ∈ t.seen.trigger,
    t.st.trStatusReg = trStatusWord e.tr2 e.tr1 e.clkCntPps ∧
    t.st.cntStatusReg = cntStatusWord e.trigCnt
  second : ∀ m ∈ t.seen.second, t.st.arrayPpsReg = m.word
  peak : ∀ r ∈ t.seen.peak, t.st.arrayScalersReg = r.word
  covers : t.seen.Covers t.st.fsm.stateReg
  inRange : t.st.fsm.InRange g

theorem Tracked.inv_reset (g : Generics) : (Tracked.reset g).Inv :=
  ⟨by simp [Tracked.reset], by simp [Tracked.reset], by simp [Tracked.reset], trivial, trivial⟩

/-- Counting up below a bound that fits the eight bits. -/
theorem toNat_count_succ {c : BitVec 8} {n : ℕ} (hn : n ≤ 256) (hc : c.toNat < n)
    (hne : c.toNat ≠ n - 1) : (c + 1).toNat = c.toNat + 1 := by
  have h1 : (1 : BitVec 8).toNat = 1 := rfl
  rw [BitVec.toNat_add, h1]
  omega

theorem St.fsmNext_inRange {s : St g} (h : s.fsm.InRange g) (i : In) :
    (s.fsmNext i).InRange g := by
  have hreaches := g.reaches
  have hzero : (0 : BitVec 8).toNat = 0 := rfl
  have hsucc : ∀ n, n ≤ 256 → s.fsm.wrCountReg.toNat < n → s.fsm.wrCountReg.toNat ≠ n - 1 →
      (s.fsm.wrCountReg + 1).toNat < n := by
    intro n hn hlt hlast
    rw [toNat_count_succ hn hlt hlast]
    omega
  cases hr : i.mAxisTready with
  | false =>
    cases hst : s.fsm.stateReg <;> simp only [St.fsmNext, Fsm.InRange, hst, hr] <;>
      simp only [Bool.false_eq_true, if_false, hzero] <;> omega
  | true =>
    cases hst : s.fsm.stateReg with
    | stIdle =>
      simp only [Fsm.InRange, St.fsmNext, hst, hr, if_true, hzero]
      split <;> first | omega | trivial
    | stSendTrStatus | stSendCntStatus => simp [St.fsmNext, hst, hr, Fsm.InRange]
    | stAttTr =>
      have hlt : s.fsm.wrCountReg.toNat < g.dataArrayLength := by simpa [Fsm.InRange, hst] using h
      by_cases hlast : s.fsm.wrCountReg.toNat = g.dataArrayLength - 1
      · simp [St.fsmNext, hst, hr, hlast, Fsm.InRange]
      · simpa [St.fsmNext, hst, hr, hlast, Fsm.InRange] using hsucc _ g.counts hlt hlast
    | stAttSubtr =>
      have hlt : s.fsm.wrCountReg.toNat < 3 := by simpa [Fsm.InRange, hst] using h
      by_cases hlast : s.fsm.wrCountReg.toNat = 3 - 1
      · simp [St.fsmNext, hst, hr, subtrigArrayLength, hlast, Fsm.InRange]
      · simpa [St.fsmNext, hst, hr, subtrigArrayLength, hlast, Fsm.InRange] using
          hsucc 3 (by omega) hlt hlast
    | stAttPps =>
      have hlt : s.fsm.wrCountReg.toNat < 12 := by simpa [Fsm.InRange, hst] using h
      by_cases hlast : s.fsm.wrCountReg.toNat = 12 - 1
      · simp [St.fsmNext, hst, hr, metadataArrayLength, hlast, Fsm.InRange]
      · simpa [St.fsmNext, hst, hr, metadataArrayLength, hlast, Fsm.InRange] using
          hsucc 12 (by omega) hlt hlast

/-- Nothing captured is forgotten. -/
theorem Capture.Covers.next {s : St g} {c : Capture} {st : StateT} (h : c.Covers st) (i : In) :
    (c.next s i).Covers st := by
  cases st <;> simp only [Capture.Covers, Capture.next] at h ⊢ <;> split <;> simp_all

/-- What a block is about is still captured in the next part of it. -/
theorem Capture.Covers.after {c : Capture} {st : StateT} (h : c.Covers st) :
    c.Covers st.after := by
  cases st <;> first | exact h | trivial

/-- A block is entered only in a cycle that captures what it is about. -/
theorem Capture.covers_idleNext (c : Capture) (s : St g) (i : In) :
    (c.next s i).Covers (idleNext (s.trS i) (s.subtrS i) i.ppsI) := by
  cases htr : s.trS i <;> cases hsub : s.subtrS i <;> cases hp : i.ppsI <;>
    simp [idleNext, Capture.Covers, Capture.next, htr, hsub, hp]

theorem Capture.next_covers {s : St g} {c : Capture} (h : c.Covers s.fsm.stateReg) (i : In) :
    (c.next s i).Covers (s.fsmNext i).stateReg := by
  by_cases hst : s.fsm.stateReg = .stIdle
  · rw [St.fsmNext_stateReg_of_idle hst]
    split
    · exact Capture.covers_idleNext c s i
    · trivial
  · rcases St.fsmNext_stateReg_of_busy (i := i) hst with hnext | hnext <;> rw [hnext]
    · exact h.next i
    · exact (h.next i).after

theorem Tracked.inv_step {t : Tracked g} (h : t.Inv) (i : In) : (t.step i).Inv := by
  unfold Tracked.step
  split
  · refine ⟨?_, ?_, ?_, Capture.next_covers h.covers i, St.fsmNext_inRange h.inRange i⟩
    · intro e he
      by_cases htr : t.st.trS i
      · simp only [Capture.next, htr, if_true, Option.mem_def, Option.some.injEq] at he
        subst he
        simp [St.next, htr]
      · simpa [St.next, htr] using h.trigger e (by simpa [Capture.next, htr] using he)
    · intro m hm
      funext k
      by_cases hp : i.ppsI
      · simp only [Capture.next, hp, if_true, Option.mem_def, Option.some.injEq] at hm
        subst hm
        simp [St.next, hp]
      · simpa [St.next, hp] using
          congrFun (h.second m (by simpa [Capture.next, hp] using hm)) k
    · intro r hr
      funext k
      by_cases hs : t.st.subtrS i
      · simp only [Capture.next, hs, if_true, Option.mem_def, Option.some.injEq] at hr
        subst hr
        simp [St.next, hs]
      · simpa [St.next, hs] using
          congrFun (h.peak r (by simpa [Capture.next, hs] using hr)) k
  · exact Tracked.inv_reset g

/-- Every loaded word encodes its item. -/
theorem Tracked.load_eq (t : Tracked g) (h : t.Inv) (i : In) :
    load t.st i = (t.put i).map Item.word := by
  obtain ⟨htr, hsec, hpk, hcov, hrange⟩ := h
  rcases hf : t.st.fsm with ⟨st, c, d, v, r⟩
  rw [hf] at hcov hrange
  cases hr : i.mAxisTready
  · simp [load, Tracked.put, hr]
  cases st <;> simp only [load, Tracked.put, St.fsmNext, hf, hr]
  case stIdle => rfl
  case stAttTr => rfl
  case stSendTrStatus =>
    obtain ⟨e, he⟩ := Option.isSome_iff_exists.mp hcov
    simp [he, Item.word, (htr e he).1]
  case stSendCntStatus =>
    obtain ⟨e, he⟩ := Option.isSome_iff_exists.mp hcov
    simp [he, Item.word, (htr e he).2]
  case stAttSubtr =>
    obtain ⟨e, he⟩ := Option.isSome_iff_exists.mp hcov
    have hc : c.toNat < 3 := hrange
    simp [he, Item.word, element, hc, hpk e he]
  case stAttPps =>
    obtain ⟨e, he⟩ := Option.isSome_iff_exists.mp hcov
    have hc : c.toNat < 12 := hrange
    simp [he, Item.word, element, hc, hsec e he]

/-- The loaded words encode what was put into the stream, whatever the inputs. -/
theorem loaded_eq (g : Generics) (is : List In) :
    loaded (St.reset g) is =
      (collect Tracked.step Tracked.put (Tracked.reset g) is).map Item.word := by
  have hrun : Along Tracked.step (fun _ _ => True) (Tracked.reset g) is :=
    along_of_forall _ _ fun _ _ => trivial
  have hinv := hrun.strengthen (P := Tracked.Inv) (Tracked.inv_reset g)
    fun t i ht _ => Tracked.inv_step ht i
  rw [← hinv.collect_eq_map (fun t i => load t.st i) fun t i ht => t.load_eq ht.1 i]
  exact (collect_map Tracked.step_st load (Tracked.reset g) is).symm

/-! ## Words of any run -/

/-- The output register holds the encoding of an item, whether it is valid or not. -/
def Tracked.Loaded (t : Tracked g) : Prop := ∃ it : Item, t.st.fsm.dataToFifoReg = it.word

theorem Tracked.loaded_reset (g : Generics) : (Tracked.reset g).Loaded := ⟨.sample 0 0, rfl⟩

/-- A cycle that loads nothing keeps the output register. -/
theorem St.fsmNext_dataToFifoReg {s : St g} {i : In} (h : load s i = []) :
    (s.fsmNext i).dataToFifoReg = s.fsm.dataToFifoReg := by
  rcases hf : s.fsm with ⟨st, c, d, v, r⟩
  cases hr : i.mAxisTready <;> cases st <;> simp_all [load, St.fsmNext]

theorem Tracked.loaded_step {t : Tracked g} (hinv : t.Inv) (h : t.Loaded) (i : In) :
    (t.step i).Loaded := by
  unfold Tracked.step
  split
  · cases hput : t.put i with
    | nil =>
      have hload : load t.st i = [] := by rw [t.load_eq hinv i, hput, List.map_nil]
      obtain ⟨it, hit⟩ := h
      exact ⟨it, (St.fsmNext_dataToFifoReg hload).trans hit⟩
    | cons it its =>
      have hload : it.word ∈ load t.st i := by
        rw [t.load_eq hinv i, hput]
        simp
      unfold load at hload
      split at hload
      · exact ⟨it, (List.mem_singleton.mp hload).symm⟩
      · simp at hload
  · exact Tracked.loaded_reset g

/-- Whatever the inputs are, resets and stalls included, the next stage only takes
encodings of items. -/
theorem transferred_encode {is : List In} {wo : BitVec 32}
    (h : wo ∈ transferred (St.reset g) is) : ∃ it : Item, wo = it.word := by
  have hrun : Along Tracked.step (fun _ _ => True) (Tracked.reset g) is :=
    along_of_forall _ _ fun _ _ => trivial
  have hinv := hrun.strengthen (P := fun t => t.Inv ∧ t.Loaded)
    ⟨Tracked.inv_reset g, Tracked.loaded_reset g⟩
    fun t i ht _ => ⟨Tracked.inv_step ht.1 i, Tracked.loaded_step ht.1 ht.2 i⟩
  have hwords : ∀ wo ∈ collect Tracked.step (fun t i => transfer t.st i) (Tracked.reset g) is,
      ∃ it : Item, wo = it.word := by
    refine hinv.forall_collect fun t i ⟨⟨_, hloaded⟩, _⟩ wo hwo => ?_
    unfold transfer at hwo
    split at hwo
    · obtain rfl := List.mem_singleton.mp hwo
      exact hloaded
    · simp at hwo
  rw [collect_map Tracked.step_st transfer] at hwords
  exact hwords wo h

end LagoEcosystem.Trigger
