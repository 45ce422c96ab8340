import LagoEcosystem.Trigger.Frames

/-!
# The metadata of every second

The state machine looks at `pps_i` in `ST_IDLE` only, although every pulse renews the
metadata array. With the next stage always ready, a pulse that meets `ST_IDLE` is followed
by its metadata block, and a pulse that meets a frame or a sub-trigger record is followed
by no metadata at all, however far away the next pulse is.
-/

namespace LagoEcosystem.Trigger

open Clocked

variable {g : Generics}

/-! ## Runs cut at their pulses -/

/-- Cycles without a pulse. -/
structure Between where
  cycles : List In
  ready : ∀ i ∈ cycles, i.Ready
  noPulse : ∀ i ∈ cycles, i.ppsI = false

/-- A pulse of one cycle and the cycles up to the next one. There are more of them than a
metadata block has words, which is less than a frame and a metadata block together need. -/
structure Second where
  pulse : In
  ready : pulse.Ready
  pulsed : pulse.ppsI = true
  rest : Between
  long : metadataArrayLength < rest.cycles.length

/-- The state at the next pulse. -/
def second (s : St g) (sec : Second) : St g := run step s (sec.pulse :: sec.rest.cycles)

/-- The words transferred after the pulse and before the next one. -/
def secondWords (s : St g) (sec : Second) : List (BitVec 32) :=
  transferred (step s sec.pulse) sec.rest.cycles

/-- The two top bits are ones, as in every word of a metadata block and in no other. -/
def IsMetadata (w : BitVec 32) : Prop := 3 * 2 ^ 30 ≤ w.toNat

/-- Exactly one metadata block, in one piece. -/
def OneBlock (ws : List (BitVec 32)) : Prop :=
  ∃ (before after : List (BitVec 32)) (m : Metadata),
    ws = before ++ List.ofFn m.word ++ after ∧ ∀ w ∈ before ++ after, ¬ IsMetadata w

theorem Between.harmless (b : Between) (s : St g) : Along step Harmless s b.cycles :=
  (along_of_forall _ s b.ready).mono fun s _ h => h.harmless s

/-! ## Outside the metadata block -/

/-- No metadata in the registers that frames and sub-trigger records are sent from. -/
structure St.FrameRegs (s : St g) : Prop where
  trStatus : ¬ IsMetadata s.trStatusReg
  cntStatus : ¬ IsMetadata s.cntStatusReg
  scalers : ∀ k, ¬ IsMetadata (s.arrayScalersReg k)

/-- No metadata block is being sent and none is waiting in the output register. -/
structure St.NoMetadata (s : St g) : Prop where
  armed : s.fsm.Armed
  regs : s.FrameRegs
  state : s.fsm.stateReg ≠ .stAttPps
  pending : ∀ w ∈ s.pending, ¬ IsMetadata w

theorem not_isMetadata_sampleWord (b a : BitVec 14) : ¬ IsMetadata (sampleWord b a) := by
  have := sampleWord_lt b a
  rw [IsMetadata]
  omega

theorem not_isMetadata_trStatusWord (tr2 tr1 : Bool) (clkCntPps : BitVec 27) :
    ¬ IsMetadata (trStatusWord tr2 tr1 clkCntPps) := by
  have := trStatusWord_lt tr2 tr1 clkCntPps
  rw [IsMetadata]
  omega

theorem not_isMetadata_cntStatusWord (trigCnt : BitVec 30) :
    ¬ IsMetadata (cntStatusWord trigCnt) :=
  Nat.not_le_of_lt (cntStatusWord_bounds trigCnt).2

theorem not_isMetadata_subtrig (r : Subtrig) (k : Fin 3) : ¬ IsMetadata (r.word k) := by
  have := r.word_lt k
  rw [IsMetadata]
  omega

theorem St.FrameRegs.next {s : St g} (h : s.FrameRegs) (i : In) : (s.next i).FrameRegs where
  trStatus := by
    by_cases htr : s.trS i
    · simpa [St.next, htr] using not_isMetadata_trStatusWord _ _ _
    · simpa [St.next, htr] using h.trStatus
  cntStatus := by
    by_cases htr : s.trS i
    · simpa [St.next, htr] using not_isMetadata_cntStatusWord _
    · simpa [St.next, htr] using h.cntStatus
  scalers k := by
    by_cases hsub : s.subtrS i
    · simpa [St.next, hsub] using not_isMetadata_subtrig _ _
    · simpa [St.next, hsub] using h.scalers k

theorem St.FrameRegs.element {s : St g} (h : s.FrameRegs) (c : BitVec 8) :
    ¬ IsMetadata (Trigger.element s.arrayScalersReg c) := by
  unfold Trigger.element
  split
  · exact h.scalers _
  · simp [IsMetadata]

/-- Outside `ST_ATT_PPS` the state machine loads no metadata. -/
theorem St.NoMetadata.load {s : St g} (h : s.NoMetadata) {i : In} :
    ∀ w ∈ Trigger.load s i, ¬ IsMetadata w := by
  obtain ⟨-, hregs, hst, -⟩ := h
  rcases hf : s.fsm with ⟨st, c, d, v, r⟩
  rw [hf] at hst
  cases hr : i.mAxisTready
  · simp [Trigger.load, hr]
  cases st <;> simp only [Trigger.load, St.fsmNext, hf, hr]
  case stIdle => simp
  case stAttTr => simpa using not_isMetadata_sampleWord _ _
  case stSendTrStatus => simpa using hregs.trStatus
  case stSendCntStatus => simpa using hregs.cntStatus
  case stAttSubtr => simpa using hregs.element c
  case stAttPps => exact absurd rfl hst

theorem idleNext_ne_attPps (tr subtr : Bool) : idleNext tr subtr false ≠ .stAttPps := by
  cases tr <;> cases subtr <;> decide

/-- Only a pulse in `ST_IDLE` starts a metadata block. -/
theorem St.fsmNext_ne_attPps {s : St g} {i : In} (h : s.fsm.stateReg ≠ .stAttPps)
    (hi : i.ppsI = false ∨ s.fsm.stateReg ≠ .stIdle) :
    (s.fsmNext i).stateReg ≠ .stAttPps := by
  by_cases hst : s.fsm.stateReg = .stIdle
  · have hp : i.ppsI = false := hi.resolve_right fun hne => hne hst
    rw [St.fsmNext_stateReg_of_idle hst, hp]
    split
    · exact idleNext_ne_attPps _ _
    · simp
  · rcases St.fsmNext_stateReg_of_busy (i := i) hst with hnext | hnext <;> rw [hnext]
    · exact h
    · cases s.fsm.stateReg <;> simp [StateT.after]

/-- The word that leaves and the word that waits are among the one that waited and the one
that was loaded. -/
theorem St.NoMetadata.mem {s : St g} (h : s.NoMetadata) {i : In} (hi : i.Ready) {w : BitVec 32}
    (hw : w ∈ transfer s i ++ (step s i).pending) : ¬ IsMetadata w := by
  rw [← pending_load h.armed (hi.harmless s)] at hw
  rcases List.mem_append.mp hw with hw | hw
  · exact h.pending w hw
  · exact h.load w hw

theorem St.NoMetadata.step {s : St g} (h : s.NoMetadata) {i : In} (hi : i.Ready)
    (hp : i.ppsI = false ∨ s.fsm.stateReg ≠ .stIdle) : (Trigger.step s i).NoMetadata := by
  refine ⟨Fsm.armed_step (hi.harmless s), ?_, ?_, fun w hw => h.mem hi (by simp [hw])⟩
  all_goals rw [step_of_harmless (hi.harmless s)]
  · exact h.regs.next i
  · exact St.fsmNext_ne_attPps h.state hp

theorem St.NoMetadata.between {s : St g} (h : s.NoMetadata) (b : Between) :
    (run Trigger.step s b.cycles).NoMetadata ∧
      ∀ w ∈ transferred s b.cycles, ¬ IsMetadata w := by
  have hb : ∀ i ∈ b.cycles, i.Ready ∧ i.ppsI = false := fun i hi => ⟨b.ready i hi, b.noPulse i hi⟩
  have hrun := along_of_forall Trigger.step s hb
  have hcalm := hrun.strengthen (P := St.NoMetadata) h fun s i hs hi => hs.step hi.1 (.inl hi.2)
  exact ⟨hrun.invariant h fun s i hs hi => hs.step hi.1 (.inl hi.2),
    hcalm.forall_collect fun s i hs w hw => hs.1.mem hs.2.1 (by simp [hw])⟩

theorem St.NoMetadata.reset (g : Generics) : (St.reset g).NoMetadata :=
  ⟨Fsm.armed_reset, ⟨by simp [IsMetadata, St.reset], by simp [IsMetadata, St.reset],
    by simp [IsMetadata, St.reset]⟩, by simp [St.reset, Fsm.reset],
    by simp [St.pending, St.reset, Fsm.reset]⟩

/-! ## Inside the metadata block -/

/-- The words of `m` from the `k`-th on are still to be loaded. -/
structure St.Sending (m : Metadata) (k : ℕ) (s : St g) : Prop where
  state : s.fsm.stateReg = .stAttPps
  count : s.fsm.wrCountReg.toNat = k
  array : s.arrayPpsReg = m.word

theorem St.Sending.load {m : Metadata} {k : Fin 12} {s : St g} (h : s.Sending m k) {i : In}
    (hi : i.Ready) : Trigger.load s i = [m.word k] := by
  simp [Trigger.load, h.state, hi.2, St.fsmNext, Trigger.element, h.count, h.array]

theorem St.Sending.step {m : Metadata} {k : ℕ} {s : St g} (h : s.Sending m k) (hk : k < 11)
    {i : In} (hi : i.Ready) (hp : i.ppsI = false) : (Trigger.step s i).Sending m (k + 1) := by
  have hlast : s.fsm.wrCountReg.toNat ≠ 12 - 1 := by rw [h.count]; omega
  have hcount := toNat_count_succ (by omega) (by rw [h.count]; omega) hlast
  rw [step_of_harmless (hi.harmless s)]
  refine ⟨?_, ?_, ?_⟩
  · simp [St.next, St.fsmNext, h.state, hi.2, metadataArrayLength, hlast]
  · rw [← h.count, ← hcount]
    simp [St.next, St.fsmNext, h.state, hi.2]
  · funext j
    simp [St.next, hp, h.array]

theorem St.Sending.last {m : Metadata} {s : St g} (h : s.Sending m 11) {i : In} (hi : i.Ready) :
    (Trigger.step s i).fsm.stateReg = .stIdle := by
  rw [step_of_harmless (hi.harmless s)]
  simp [St.next, St.fsmNext, h.state, hi.2, metadataArrayLength, h.count]

/-- The rest of the block is loaded, and `ST_IDLE` follows. The induction is on the number
of words still to be loaded. -/
theorem St.Sending.loaded {m : Metadata} {k : ℕ} {s : St g} (h : s.Sending m k) (hk : k < 12)
    {is : List In} (hlen : is.length = 12 - k) (hready : ∀ i ∈ is, i.Ready)
    (hp : ∀ i ∈ is, i.ppsI = false) :
    Trigger.loaded s is = (List.ofFn m.word).drop k ∧
      (run Trigger.step s is).fsm.stateReg = .stIdle := by
  induction is generalizing s k with
  | nil => simp at hlen; omega
  | cons i is ih =>
    have hi := hready i (by simp)
    have hload := St.Sending.load (k := ⟨k, hk⟩) h hi
    have hdrop : (List.ofFn m.word).drop k =
        m.word ⟨k, hk⟩ :: (List.ofFn m.word).drop (k + 1) := by
      rw [List.drop_eq_getElem_cons (by simpa using hk), List.getElem_ofFn]
    by_cases hlast : k = 11
    · subst hlast
      obtain rfl : is = [] := by simpa using hlen
      exact ⟨by simp [Trigger.loaded, hload], h.last hi⟩
    · obtain ⟨hrest, hidle⟩ := ih (h.step (by omega) hi (hp i (by simp))) (by omega)
        (by simp at hlen; omega) (fun j hj => hready j (by simp [hj]))
        (fun j hj => hp j (by simp [hj]))
      refine ⟨?_, hidle⟩
      rw [hdrop, ← hrest]
      simp [Trigger.loaded, hload]

/-- A pulse in `ST_IDLE` captures its second and starts to send it. -/
theorem St.sending_of_pulse {s : St g} (hidle : s.fsm.stateReg = .stIdle) {i : In}
    (hi : i.Ready) (hp : i.ppsI = true) :
    (Trigger.step s i).Sending (s.metadata i) 0 ∧ (Trigger.step s i).pending = [] := by
  rw [step_of_harmless (hi.harmless s)]
  refine ⟨⟨?_, ?_, ?_⟩, ?_⟩
  · simp [St.next, St.fsmNext, hidle, hi.2, hp, idleNext]
  · simp [St.next, St.fsmNext, hidle]
  · funext k
    simp [St.next, hp]
  · simp [St.pending, St.next, St.fsmNext, hidle]

/-- The cycle after the block empties the output register. -/
theorem St.FrameRegs.noMetadata_of_idle {s : St g} (h : s.FrameRegs)
    (hidle : s.fsm.stateReg = .stIdle) {i : In} (hi : i.Ready) (hp : i.ppsI = false) :
    (Trigger.step s i).NoMetadata ∧ (Trigger.step s i).pending = [] ∧ load s i = [] := by
  have hpending : (s.next i).pending = [] := by simp [St.pending, St.next, St.fsmNext, hidle]
  refine ⟨⟨Fsm.armed_step (hi.harmless s), ?_, ?_, ?_⟩, ?_, by simp [load, hidle]⟩
  all_goals rw [step_of_harmless (hi.harmless s)]
  · exact h.next i
  · exact St.fsmNext_ne_attPps (by simp [hidle]) (.inl hp)
  · simp [hpending]
  · exact hpending

theorem Between.frameRegs {s : St g} (h : s.FrameRegs) (b : Between) :
    (run step s b.cycles).FrameRegs :=
  (b.harmless s).invariant h fun s i hs hi => by rw [step_of_harmless hi]; exact hs.next i

def Between.take (b : Between) (k : ℕ) : Between where
  cycles := b.cycles.take k
  ready i hi := b.ready i (List.mem_of_mem_take hi)
  noPulse i hi := b.noPulse i (List.mem_of_mem_take hi)

def Between.drop (b : Between) (k : ℕ) : Between where
  cycles := b.cycles.drop k
  ready i hi := b.ready i (List.mem_of_mem_drop hi)
  noPulse i hi := b.noPulse i (List.mem_of_mem_drop hi)

/-- The words of a second whose pulse meets `ST_IDLE`: its metadata, then no more. -/
theorem secondWords_of_idle {s : St g} (h : s.FrameRegs) (hidle : s.fsm.stateReg = .stIdle)
    (sec : Second) :
    ∃ after, secondWords s sec = List.ofFn (s.metadata sec.pulse).word ++ after ∧
      (∀ w ∈ after, ¬ IsMetadata w) ∧ (second s sec).NoMetadata := by
  obtain ⟨hsend, hempty⟩ := St.sending_of_pulse hidle sec.ready sec.pulsed
  set m := s.metadata sec.pulse
  set s₁ := step s sec.pulse with hs₁
  have hregs : s₁.FrameRegs := by
    rw [hs₁, step_of_harmless (sec.ready.harmless s)]
    exact h.next _
  -- twelve cycles load the block, the thirteenth transfers its last word
  have hlong : 12 < sec.rest.cycles.length := sec.long
  let block := sec.rest.take 12
  obtain ⟨x, hx⟩ : ∃ x, sec.rest.cycles.drop 12 = x :: sec.rest.cycles.drop 13 :=
    ⟨_, List.drop_eq_getElem_cons hlong⟩
  have hxmem : x ∈ sec.rest.cycles := List.mem_of_mem_drop (by rw [hx]; simp)
  have hxready := sec.rest.ready x hxmem
  have hcycles : sec.rest.cycles = (block.cycles ++ [x]) ++ (sec.rest.drop 13).cycles := by
    simp [block, Between.take, Between.drop, ← hx]
  have hlength : block.cycles.length = 12 - 0 := by
    simp [block, Between.take]
    omega
  obtain ⟨hloaded, hend⟩ := hsend.loaded (by decide) hlength block.ready block.noPulse
  obtain ⟨hcalm, hdone, hnone⟩ := (block.frameRegs hregs).noMetadata_of_idle hend hxready
    (sec.rest.noPulse x hxmem)
  have hharmless : Along Trigger.step Harmless s₁ (block.cycles ++ [x]) := by
    simpa using ⟨block.harmless s₁, hxready.harmless _⟩
  have hcons := pending_loaded (s := s₁) (Fsm.armed_step (sec.ready.harmless s)) hharmless
  have hwords : transferred s₁ (block.cycles ++ [x]) = List.ofFn m.word := by
    simp only [hempty, loaded, collect_append, run_append, collect_cons, collect_nil, run_cons,
      run_nil, hdone, hnone, List.append_nil, List.nil_append] at hcons
    rw [← hcons]
    exact hloaded
  obtain ⟨hfinal, hafter⟩ := hcalm.between (sec.rest.drop 13)
  refine ⟨_, ?_, hafter, ?_⟩
  · rw [secondWords, ← hs₁, hcycles, ← hwords]
    simp [transferred]
  · simpa [second, ← hs₁, hcycles] using hfinal

/-- A pulse anywhere else is followed by no metadata. -/
theorem secondWords_of_busy {s : St g} (h : s.NoMetadata) (hbusy : s.fsm.stateReg ≠ .stIdle)
    (sec : Second) :
    (∀ w ∈ secondWords s sec, ¬ IsMetadata w) ∧ (second s sec).NoMetadata :=
  have hpulse := (h.step sec.ready (.inr hbusy)).between sec.rest
  ⟨hpulse.2, hpulse.1⟩

theorem OneBlock.isMetadata {ws : List (BitVec 32)} (h : OneBlock ws) : ∃ w ∈ ws, IsMetadata w := by
  obtain ⟨before, after, m, rfl, -⟩ := h
  exact ⟨m.word 0, by simp, m.le_word 0⟩

/-! ## Which seconds are sent -/

theorem St.NoMetadata.second {s : St g} (h : s.NoMetadata) (sec : Second) :
    (Trigger.second s sec).NoMetadata := by
  by_cases hidle : s.fsm.stateReg = .stIdle
  · obtain ⟨_, -, -, hnext⟩ := secondWords_of_idle h.regs hidle sec
    exact hnext
  · exact (secondWords_of_busy h hidle sec).2

theorem oneBlock_iff {s : St g} (h : s.NoMetadata) (sec : Second) :
    OneBlock (secondWords s sec) ↔ s.fsm.stateReg = .stIdle := by
  constructor
  · intro hblock
    by_contra hbusy
    obtain ⟨w, hw, hmeta⟩ := hblock.isMetadata
    exact (secondWords_of_busy h hbusy sec).1 w hw hmeta
  · intro hidle
    obtain ⟨after, hwords, hafter, -⟩ := secondWords_of_idle h.regs hidle sec
    exact ⟨[], after, _, by simpa using hwords, by simpa using hafter⟩

/-- Every pulse is followed by exactly one metadata block if and only if every pulse meets
`ST_IDLE`. -/
theorem secondsSent_iff (g : Generics) (lead : Between) (secs : List Second) :
    Along second (fun s sec => OneBlock (secondWords s sec))
        (run step (St.reset g) lead.cycles) secs ↔
      Along second (fun s _ => s.fsm.stateReg = .stIdle)
        (run step (St.reset g) lead.cycles) secs :=
  along_congr ((St.NoMetadata.reset g).between lead).1 (fun _ sec hs => hs.second sec)
    (fun _ sec hs => oneBlock_iff hs sec) secs

/-- One sample above the level, and no further trigger. -/
def hit : In := { In.quiet with trigLvlAI := 5, sAxisTdata := 8, sAxisTvalid := true }

def hits (k : ℕ) : Between where
  cycles := List.replicate k hit
  ready i hi := by rw [List.eq_of_mem_replicate hi]; exact ⟨rfl, rfl⟩
  noPulse i hi := by rw [List.eq_of_mem_replicate hi]; rfl

/-- A second that has room for a frame and a metadata block. -/
def lostSecond : Second where
  pulse := { hit with ppsI := true }
  ready := ⟨rfl, rfl⟩
  pulsed := rfl
  rest := hits 60
  long := by decide

/-- After thirty cycles the pulse meets the frame of the one sample, and its second is
lost. -/
theorem lostSecond_not_sent :
    Generics.blockDesign.dataArrayLength + 2 + metadataArrayLength <
        lostSecond.rest.cycles.length ∧
      ¬ Along second (fun s sec => OneBlock (secondWords s sec))
        (run step (St.reset .blockDesign) (hits 30).cycles) [lostSecond] := by
  refine ⟨by decide, fun hsent => ?_⟩
  have hframe : (run step (St.reset .blockDesign) (hits 30).cycles).fsm.stateReg = .stAttTr := by
    decide +kernel
  have hcalm := ((St.NoMetadata.reset .blockDesign).between (hits 30)).1
  obtain ⟨w, hw, hmeta⟩ := hsent.1.isMetadata
  exact (secondWords_of_busy hcalm (by rw [hframe]; decide) lostSecond).1 w hw hmeta

end LagoEcosystem.Trigger
