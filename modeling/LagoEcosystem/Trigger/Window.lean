import LagoEcosystem.Trigger.FrameStatus
import LagoEcosystem.Trigger.Decision

/-!
# The samples of a frame

A frame takes its samples from the end of the delay lines. The input registers hold their
sample while a block is sent, but the delay lines go on shifting, so for a while after the
block they are filled with copies of it, and after a reset with zeros. `Traced` runs the
core beside the number of the accepted sample that every register holds. All numbers of a
frame are settled when it starts: they are consecutive exactly when every cycle shortly
before it took a sample.
-/

namespace LagoEcosystem.Trigger

open Clocked ShiftRegister

variable {g : Generics}

attribute [local instance] positions_neZero

/-! ## Where the samples come from -/

/-- The core beside the words accepted since reset, the number of the word behind every
place of the delay lines and behind the input registers, which are the last place, and
whether the handshake took a word in each of the last cycles. Numbers count from one, zero
stands for the reset value. `fired` is the number of the sample at position 10 when the
flag of the channel was last up. -/
structure Traced (g : Generics) where
  st : St g
  inputs : List (BitVec 32)
  origin : Fin (g.dataArrayLength + 1) → ℕ
  taken : Fin g.dataArrayLength → Bool
  fired : Channel → Option ℕ

def Traced.reset (g : Generics) : Traced g := ⟨.reset g, [], fun _ => 0, fun _ => false, fun _ => none⟩

def Traced.step (t : Traced g) (i : In) : Traced g :=
  if i.aresetn then
    let takes := Channel.takes t.st i
    { st := t.st.next i
      inputs := if takes then t.inputs ++ [i.sAxisTdata] else t.inputs
      origin := shift (t.origin (Fin.last _) + takes.toNat) t.origin
      taken := shift takes t.taken
      fired := fun ch => if ch.tr t.st i then some (t.origin (g.bin 10).castSucc) else t.fired ch }
  else .reset g

/-- The sample of a channel with a number. -/
def Channel.value (ch : Channel) (inputs : List (BitVec 32)) : ℕ → BitVec 16
  | 0 => 0
  | n + 1 => (inputs[n]?.map fun w => extend (ch.half w)).getD 0

theorem Channel.value_append (ch : Channel) {inputs : List (BitVec 32)} (w : BitVec 32) {n : ℕ}
    (hn : n ≤ inputs.length) : ch.value (inputs ++ [w]) n = ch.value inputs n := by
  cases n with
  | zero => rfl
  | succ n => rw [Channel.value, Channel.value, List.getElem?_append_left hn]

theorem Channel.value_concat (ch : Channel) (inputs : List (BitVec 32)) (w : BitVec 32) :
    ch.value (inputs ++ [w]) (inputs.length + 1) = extend (ch.half w) := by
  simp [Channel.value]

/-- The last flag of a channel was raised one cycle ago, by the sample that is at position 9
now, or earlier. -/
def Traced.Flagged (t : Traced g) (ch : Channel) : Prop :=
  if ch.trDlyReg t.st then t.fired ch = some (t.origin (g.bin 9).castSucc)
  else ∀ n ∈ t.fired ch, n ≤ t.origin (g.bin 8).castSucc

structure Traced.Inv (t : Traced g) : Prop where
  counts : Counts t.origin t.taken
  last : t.origin (Fin.last _) = t.inputs.length
  adcReg : ∀ ch : Channel, ch.adcReg t.st = ch.value t.inputs (t.origin (Fin.last _))
  adcDatReg : ∀ (ch : Channel) k, ch.adcDatReg t.st k = ch.value t.inputs (t.origin k.castSucc)
  flagged : ∀ ch, t.Flagged ch

theorem Traced.inv_reset (g : Generics) : (Traced.reset g).Inv where
  counts := counts_const 0
  last := rfl
  adcReg ch := by cases ch <;> rfl
  adcDatReg ch k := by cases ch <;> rfl
  flagged ch := by cases ch <;> simp [Traced.Flagged, Channel.trDlyReg, Traced.reset, St.reset]

theorem Traced.Inv.le {t : Traced g} (h : t.Inv) (k : Fin (g.dataArrayLength + 1)) :
    t.origin k ≤ t.inputs.length := h.last ▸ h.counts.mono (Fin.le_last k)

theorem Traced.Inv.flagged_step {t : Traced g} (h : t.Inv) {i : In} (hr : i.aresetn = true)
    (ch : Channel) : (t.step i).Flagged ch := by
  have hnine : (g.bin 9).succ = (g.bin 10).castSucc := rfl
  have height : (g.bin 8).succ = (g.bin 9).castSucc := rfl
  have hflagged := h.flagged ch
  simp only [Traced.Flagged, Traced.step, hr, if_true, ch.trDlyReg_next, shift_castSucc, hnine,
    height]
  cases htr : ch.tr t.st i with
  | true => simp
  | false =>
    simp only [Bool.false_eq_true, if_false]
    unfold Traced.Flagged at hflagged
    split at hflagged
    · simp [hflagged]
    · exact fun n hn => (hflagged n hn).trans (h.counts.mono (by simp [Fin.le_def, Generics.bin]))

theorem Traced.inv_step {t : Traced g} (h : t.Inv) (i : In) : (t.step i).Inv := by
  have hflagged := fun hr => h.flagged_step (i := i) hr
  unfold Traced.step at *
  split
  swap
  · exact Traced.inv_reset g
  rename_i hr
  rw [if_pos hr] at hflagged
  refine ⟨h.counts.shift _, ?_, ?_, ?_, hflagged hr⟩
  · simp only [shift_last, h.last]
    cases Channel.takes t.st i <;> simp
  · intro ch
    simp only [shift_last, h.last, ch.adcReg_next]
    cases Channel.takes t.st i
    · simpa [h.last] using h.adcReg ch
    · simp [ch.value_concat]
  · intro ch k
    simp only [ch.adcDatReg_next, shift_castSucc]
    have hgrow : ch.value (if Channel.takes t.st i then t.inputs ++ [i.sAxisTdata] else t.inputs)
        (t.origin k.succ) = ch.value t.inputs (t.origin k.succ) := by
      split
      · exact ch.value_append _ (h.le _)
      · rfl
    rw [hgrow]
    rw [h.adcReg, funext (h.adcDatReg ch)]
    exact (succ_eq_shift (fun k => ch.value t.inputs (t.origin k)) k).symm

/-! ## Frames -/

/-- What is known when a frame starts: the numbers that will leave the delay lines next,
which of the last cycles took a word, the words accepted since reset, the numbers of the
samples that raised the flags of the channels with a tick, and whether each of these flags
was up in the cycle before. -/
structure Start (g : Generics) where
  line : Fin g.dataArrayLength → ℕ
  taken : Fin g.dataArrayLength → Bool
  count : ℕ
  fired : List (Option ℕ)
  followed : Bool

/-- The samples are up to date: every cycle before the start took a word, except perhaps the
one that took the first, there have been enough words since reset, and the ticks follow
their flags. -/
def Start.Settled (r : Start g) : Prop :=
  (∀ k : Fin g.dataArrayLength, 1 ≤ k.val → r.taken k = true) ∧ g.dataArrayLength ≤ r.count ∧
    r.followed = true

instance (r : Start g) : Decidable r.Settled := by unfold Start.Settled; infer_instance

/-- The numbers of the frame are consecutive, and a sample that fired is at index 8. -/
def Start.Consecutive (r : Start g) : Prop :=
  (∃ p, ∀ k, r.line k = p + 1 + k.val) ∧ ∀ n ∈ r.fired, n = some (r.line (g.bin 8))

/-- The channels with a tick. -/
def ticking (s : St g) (i : In) : List Channel := [Channel.a, .b].filter (·.maxTick s i)

def Traced.start (t : Traced g) (i : In) : Start g where
  line k := t.origin k.succ
  taken := t.taken
  count := t.inputs.length
  fired := (ticking t.st i).map t.fired
  followed := (ticking t.st i).all (·.trDlyReg t.st)

theorem Traced.Inv.flagged_iff {t : Traced g} (h : t.Inv) (ch : Channel)
    (hsucc : t.origin (g.bin 8).castSucc < t.origin (g.bin 9).castSucc) :
    t.fired ch = some (t.origin (g.bin 9).castSucc) ↔ ch.trDlyReg t.st = true := by
  have hflagged := h.flagged ch
  unfold Traced.Flagged at hflagged
  split at hflagged
  · simp_all
  · rename_i hdly
    refine iff_of_false (fun hfired => ?_) hdly
    have hle := hflagged _ hfired
    omega

section Consecutive

variable {t : Traced g} {p : ℕ}

/-- Among consecutive numbers, a tick that follows its flag has its sample at index 8, and
no other tick has. -/
theorem Traced.Inv.fired_iff (h : t.Inv) (i : In)
    (hline : ∀ k : Fin g.dataArrayLength, t.origin k.succ = p + k.val) :
    (∀ n ∈ (t.start i).fired, n = some ((t.start i).line (g.bin 8))) ↔
      (t.start i).followed = true := by
  have h7 : t.origin (g.bin 8).castSucc = p + 7 := hline (g.bin 7)
  have h8 : t.origin (g.bin 9).castSucc = p + 8 := hline (g.bin 8)
  simp only [Traced.start, List.mem_map, forall_exists_index, and_imp, forall_apply_eq_imp_iff₂,
    List.all_eq_true]
  exact forall₂_congr fun ch _ => h.flagged_iff ch (by omega)

/-- The last number is that of the last accepted word. -/
theorem Traced.Inv.line_last (h : t.Inv)
    (hline : ∀ k : Fin g.dataArrayLength, t.origin k.succ = p + k.val) :
    p + (g.dataArrayLength - 1) = t.inputs.length := by
  have hreaches := g.reaches
  have htop : Fin.last _ = (⟨g.dataArrayLength - 1, by omega⟩ : Fin g.dataArrayLength).succ := by
    apply Fin.ext
    simp
    omega
  rw [← h.last, htop, hline]

/-- The numbers are consecutive if and only if the samples are up to date. -/
theorem Traced.Inv.consecutive_iff (h : t.Inv) (i : In) :
    (t.start i).Consecutive ↔ (t.start i).Settled := by
  have hreaches := g.reaches
  have hn : 0 < g.dataArrayLength := by omega
  constructor
  · rintro ⟨⟨p, hline⟩, hfired⟩
    have hlast := h.line_last hline
    refine ⟨((h.counts.consecutive_iff _).mp hline).1, ?_, (h.fired_iff i hline).mp hfired⟩
    simp only [Traced.start]
    omega
  · rintro ⟨htaken, hcount, hfollowed⟩
    have hline := (h.counts.consecutive_iff (t.origin (Fin.succ ⟨0, hn⟩))).mpr
      ⟨htaken, fun _ => rfl⟩
    have hlast := h.line_last hline
    have hpos : t.origin (Fin.succ ⟨0, hn⟩) = t.origin (Fin.succ ⟨0, hn⟩) - 1 + 1 := by
      simp only [Traced.start] at hcount
      omega
    rw [hpos] at hline
    exact ⟨⟨_, hline⟩, (h.fired_iff i hline).mpr hfollowed⟩

end Consecutive

/-- A complete frame: the sample words with the numbers of their samples, the words accepted
since reset, and what was known when it started. -/
structure Frame (g : Generics) where
  samples : List (BitVec 32 × ℕ)
  inputs : List (BitVec 32)
  start : Start g

/-- The core beside the frame that is being sent. -/
structure Windowed (g : Generics) extends Traced g where
  start : Start g
  samples : List (BitVec 32 × ℕ)

def Windowed.reset (g : Generics) : Windowed g :=
  { toTraced := .reset g, start := ⟨fun _ => 0, fun _ => false, 0, [], true⟩, samples := [] }

/-- The sample word put into the output register at this edge, with the number of its
sample. -/
def Windowed.sampled (t : Windowed g) (i : In) : List (BitVec 32 × ℕ) :=
  if t.st.fsm.stateReg == .stAttTr then (load t.st i).map (·, t.origin (g.bin 0).castSucc) else []

def Windowed.step (t : Windowed g) (i : In) : Windowed g :=
  if i.aresetn then
    { toTraced := t.toTraced.step i
      start := if t.st.starts i then t.toTraced.start i else t.start
      samples := if t.st.starts i then [] else t.samples ++ t.sampled i }
  else .reset g

/-- The frame whose last sample is put into the output register at this edge. -/
def Windowed.finish (t : Windowed g) (i : In) : List (Frame g) :=
  if i.aresetn && t.st.fsm.stateReg == .stAttTr && i.mAxisTready &&
      t.st.fsm.wrCountReg.toNat == g.dataArrayLength - 1 then
    [⟨t.samples ++ t.sampled i, t.inputs, t.start⟩]
  else []

/-- The frames of a run. -/
def frames (g : Generics) (is : List In) : List (Frame g) :=
  collect Windowed.step Windowed.finish (Windowed.reset g) is

/-- The sample word of an input word. -/
def frameWord (w : BitVec 32) : BitVec 32 := sampleWord (Channel.b.half w) (Channel.a.half w)

/-- The words of the frame are consecutive accepted samples, each taken once, and every
sample that fired is at index 8. -/
def Frame.Window (f : Frame g) : Prop :=
  (∃ p, f.samples = ((f.inputs.drop p).take g.dataArrayLength).mapIdx
    fun k w => (frameWord w, p + 1 + k)) ∧ f.samples.length = g.dataArrayLength ∧
    ∀ n ∈ f.start.fired, (f.samples[8]?).map Prod.snd = n

/-! ## From the start to the end of a frame -/

/-- A sample word from the words accepted since reset, with its number. -/
def entry (inputs : List (BitVec 32)) (n : ℕ) : BitVec 32 × ℕ :=
  (sampleWord ((Channel.b.value inputs n).extractLsb' 0 14)
    ((Channel.a.value inputs n).extractLsb' 0 14), n)

theorem entry_append {inputs : List (BitVec 32)} (w : BitVec 32) {n : ℕ}
    (hn : n ≤ inputs.length) : entry (inputs ++ [w]) n = entry inputs n := by
  rw [entry, entry, Channel.value_append _ w hn, Channel.value_append _ w hn]

theorem entry_succ {inputs : List (BitVec 32)} {n : ℕ} (hn : n < inputs.length) :
    entry inputs (n + 1) = (frameWord inputs[n], n + 1) := by
  simp [entry, frameWord, Channel.value, hn, extend_extractLsb]

/-- The number of sample words that have been put into the output register. -/
def Windowed.sent (t : Windowed g) : ℕ := t.st.fsm.wrCountReg.toNat

/-- The samples sent so far are the first of those that were known when the frame started,
and the rest is on its way through the delay lines. -/
structure Windowed.Sends (t : Windowed g) : Prop where
  sound : t.start.Consecutive ↔ t.start.Settled
  le : ∀ k, t.start.line k ≤ t.inputs.length
  samples : t.samples = ((List.ofFn t.start.line).take t.sent).map (entry t.inputs)
  ahead : Shifted t.sent t.start.line fun k => t.origin k.castSucc

structure Windowed.Inv (t : Windowed g) : Prop where
  traced : t.toTraced.Inv
  inRange : t.st.fsm.InRange g
  sends : t.st.fsm.stateReg = .stAttTr → t.Sends

section Sends

variable {t : Windowed g} {i : In}

theorem Windowed.inv_reset (g : Generics) : (Windowed.reset g).Inv :=
  ⟨Traced.inv_reset g, trivial, fun h => by cases h⟩

@[simp] theorem Windowed.step_toTraced (t : Windowed g) (i : In) :
    (t.step i).toTraced = t.toTraced.step i := by
  unfold Windowed.step Traced.step
  split <;> rfl

theorem Windowed.step_fsm (hr : i.aresetn = true) : (t.step i).st.fsm = t.st.fsmNext i := by
  simp [Traced.step, hr, St.next]

theorem Windowed.step_inputs (hr : i.aresetn = true) : (t.step i).inputs =
    if Channel.takes t.st i then t.inputs ++ [i.sAxisTdata] else t.inputs := by
  simp [Traced.step, hr]

/-- What was accepted before is not changed by another word. -/
theorem Windowed.step_entries (hr : i.aresetn = true) {ns : List ℕ}
    (hns : ∀ n ∈ ns, n ≤ t.inputs.length) :
    (∀ n ∈ ns, n ≤ (t.step i).inputs.length) ∧
      ns.map (entry (t.step i).inputs) = ns.map (entry t.inputs) := by
  rw [Windowed.step_inputs hr]
  split
  · refine ⟨fun n hn => ?_, List.map_congr_left fun n hn => entry_append _ (hns n hn)⟩
    have := hns n hn
    simp
    omega
  · exact ⟨hns, rfl⟩

/-- `ST_IDLE` starts a frame: nothing is sent, and all its samples are in the delay lines
after this edge. -/
theorem Windowed.sends_of_starts (h : t.Inv) (hr : i.aresetn = true)
    (hs : t.st.starts i = true) : (t.step i).Sends := by
  have hcount : (t.step i).sent = 0 := by
    have hidle : t.st.fsm.stateReg = .stIdle := by grind [St.starts]
    rw [Windowed.sent, Windowed.step_fsm hr]
    simp [St.fsmNext, hidle]
  have hstart : (t.step i).start = t.toTraced.start i := by simp [Windowed.step, hr, hs]
  have hsamples : (t.step i).samples = [] := by simp [Windowed.step, hr, hs]
  have hle : ∀ n ∈ List.ofFn (t.toTraced.start i).line, n ≤ t.inputs.length := by
    simp only [List.mem_ofFn, forall_exists_index, forall_apply_eq_imp_iff]
    exact fun k => h.traced.le _
  refine ⟨?_, ?_, ?_, ?_⟩
  · rw [hstart]
    exact h.traced.consecutive_iff i
  · rw [hstart]
    simpa using (Windowed.step_entries hr hle).1
  · rw [hsamples, hcount]
    simp
  · rw [hcount, hstart]
    intro k hk
    simp [Traced.step, hr, Traced.start]

/-- The next sample is the next one of those that were known. -/
theorem Windowed.Sends.push (h : t.Sends) (hinv : t.Inv) (hi : i.mAxisTready = true)
    (hst : t.st.fsm.stateReg = .stAttTr) (hlt : t.sent < g.dataArrayLength) :
    t.samples ++ t.sampled i =
      ((List.ofFn t.start.line).take (t.sent + 1)).map (entry t.inputs) := by
  have hload : load t.st i = [(entry t.inputs (t.origin (g.bin 0).castSucc)).1] := by
    have ha := hinv.traced.adcDatReg .a (g.bin 0)
    have hb := hinv.traced.adcDatReg .b (g.bin 0)
    simp only [Channel.adcDatReg] at ha hb
    simp [load, hi, hst, St.fsmNext, St.sampleA, St.sampleB, entry, ha, hb]
  have hnext : t.origin (g.bin 0).castSucc = t.start.line ⟨t.sent, hlt⟩ := h.ahead.head hlt
  have hsampled : t.sampled i = [entry t.inputs (t.start.line ⟨t.sent, hlt⟩)] := by
    simp [Windowed.sampled, hst, hload, hnext, entry]
  rw [h.samples, hsampled, List.take_succ_eq_append_getElem (by simpa using hlt)]
  simp

theorem Windowed.Sends.step (h : t.Sends) (hinv : t.Inv) (hr : i.aresetn = true)
    (hi : i.mAxisTready = true) (hst : t.st.fsm.stateReg = .stAttTr)
    (hlast : t.sent ≠ g.dataArrayLength - 1) : (t.step i).Sends := by
  have hlt : t.sent < g.dataArrayLength := by
    simpa [Windowed.sent, Fsm.InRange, hst] using hinv.inRange
  have hstarts : t.st.starts i = false := by grind [St.starts]
  have hsent : (t.step i).sent = t.sent + 1 := by
    have hcount : (t.st.fsm.wrCountReg + 1).toNat = t.sent + 1 :=
      toNat_count_succ g.counts hlt hlast
    rw [Windowed.sent, Windowed.step_fsm hr, ← hcount]
    simp [St.fsmNext, hst, hi]
  have hstart : (t.step i).start = t.start := by simp [Windowed.step, hr, hstarts]
  have hsamples : (t.step i).samples = t.samples ++ t.sampled i := by
    simp [Windowed.step, hr, hstarts]
  have hle : ∀ n ∈ List.ofFn t.start.line, n ≤ t.inputs.length := by
    simp only [List.mem_ofFn, forall_exists_index, forall_apply_eq_imp_iff]
    exact h.le
  refine ⟨hstart ▸ h.sound, ?_, ?_, ?_⟩
  · rw [hstart]
    simpa using (Windowed.step_entries hr hle).1
  · rw [hsamples, h.push hinv hi hst hlt, hsent, hstart]
    exact (Windowed.step_entries hr fun n hn => hle n (List.mem_of_mem_take hn)).2.symm
  · have hshift := h.ahead.shift (t.origin (Fin.last _))
    have horigin : (fun k : Fin g.dataArrayLength => (t.step i).origin k.castSucc) =
        shift (t.origin (Fin.last _)) fun k => t.origin k.castSucc := by
      funext k
      rw [← succ_eq_shift]
      simp [Traced.step, hr]
    rw [hsent, hstart, horigin]
    exact hshift

theorem Windowed.inv_step (h : t.Inv) (hi : i.mAxisTready = true) : (t.step i).Inv := by
  cases hr : i.aresetn
  · have hreset : t.step i = .reset g := by simp [Windowed.step, hr]
    rw [hreset]
    exact Windowed.inv_reset g
  refine ⟨?_, ?_, fun hnext => ?_⟩
  · rw [Windowed.step_toTraced]
    exact Traced.inv_step h.traced i
  · rw [Windowed.step_fsm hr]
    exact St.fsmNext_inRange h.inRange i
  rw [Windowed.step_fsm hr] at hnext
  -- a frame is entered from ST_IDLE or goes on with a further sample
  by_cases hst : t.st.fsm.stateReg = .stIdle
  · refine Windowed.sends_of_starts h hr ?_
    rw [St.fsmNext_stateReg_of_idle hst, if_pos hi, idleNext_eq_attTr_iff] at hnext
    simp [St.starts, hst, hi, hnext]
  · have hatt : t.st.fsm.stateReg = .stAttTr := by
      rcases St.fsmNext_stateReg_of_busy (i := i) hst with hstay | hafter
      · exact hstay ▸ hnext
      · rw [hafter] at hnext
        cases hs : t.st.fsm.stateReg <;> simp [hs, StateT.after] at hnext
    refine (h.sends hatt).step h hr hi hatt fun hlast => ?_
    rw [Windowed.sent] at hlast
    simp [St.fsmNext, hatt, hi, hlast] at hnext

end Sends

/-! ## The window of a frame -/

section Frame

variable {f : Frame g}

/-- What a frame that was sent to its end carries. -/
structure Frame.Whole (f : Frame g) : Prop where
  sound : f.start.Consecutive ↔ f.start.Settled
  le : ∀ k, f.start.line k ≤ f.inputs.length
  samples : f.samples = (List.ofFn f.start.line).map (entry f.inputs)

theorem Frame.Whole.length (h : f.Whole) : f.samples.length = g.dataArrayLength := by
  simp [h.samples]

theorem Frame.Whole.number (h : f.Whole) (k : Fin g.dataArrayLength) :
    (f.samples[k.val]?).map Prod.snd = some (f.start.line k) := by
  simp [h.samples, entry]

theorem Frame.Whole.window_iff (h : f.Whole) : f.Window ↔ f.start.Consecutive := by
  have h8 : (f.samples[8]?).map Prod.snd = some (f.start.line (g.bin 8)) := h.number (g.bin 8)
  have hfired : (∀ n ∈ f.start.fired, (f.samples[8]?).map Prod.snd = n) ↔
      ∀ n ∈ f.start.fired, n = some (f.start.line (g.bin 8)) := by
    rw [h8]
    exact forall₂_congr fun _ _ => eq_comm
  rw [Frame.Window, hfired]
  constructor
  · rintro ⟨⟨p, hp⟩, -, hfire⟩
    refine ⟨⟨p, fun k => ?_⟩, hfire⟩
    have hk := h.number k
    have hlength := congrArg List.length hp
    rw [h.length] at hlength
    rw [hp, List.getElem?_mapIdx] at hk
    rw [List.getElem?_eq_getElem (by simp at hlength ⊢; omega)] at hk
    simpa using hk.symm
  · rintro ⟨⟨p, hline⟩, hfire⟩
    refine ⟨⟨p, ?_⟩, h.length, hfire⟩
    have hreaches := g.reaches
    have hfit := h.le ⟨g.dataArrayLength - 1, by omega⟩
    rw [hline] at hfit
    simp only at hfit
    apply List.ext_getElem
    · rw [h.length]
      simp
      omega
    · intro k hk hk'
      rw [h.length] at hk
      have hnumber : p + 1 + k = p + k + 1 := by omega
      simp only [h.samples, List.getElem_map, List.getElem_ofFn, hline, List.getElem_mapIdx,
        List.getElem_take, List.getElem_drop]
      rw [hnumber, entry_succ]

theorem Frame.Whole.window_iff_settled (h : f.Whole) : f.Window ↔ f.start.Settled :=
  h.window_iff.trans h.sound

end Frame

theorem Windowed.whole_of_finish {t : Windowed g} (h : t.Inv) {i : In} {f : Frame g}
    (hf : f ∈ t.finish i) : f.Whole := by
  unfold Windowed.finish at hf
  split at hf
  · rename_i hend
    simp only [Bool.and_eq_true, beq_iff_eq] at hend
    obtain ⟨⟨⟨-, hst⟩, hi⟩, hlast⟩ := hend
    obtain rfl := List.mem_singleton.mp hf
    have hreaches := g.reaches
    have hsent : t.sent + 1 = g.dataArrayLength := by rw [Windowed.sent]; omega
    have hsends := h.sends hst
    refine ⟨hsends.sound, hsends.le, ?_⟩
    rw [hsends.push h hi hst (by omega), hsent, List.take_of_length_le (by simp)]
  · simp at hf

theorem whole_of_mem_frames {is : List In} (h : ∀ i ∈ is, i.mAxisTready = true) :
    ∀ f ∈ frames g is, f.Whole := by
  have hrun := along_of_forall Windowed.step (Windowed.reset g) h
  have hinv := hrun.strengthen (P := Windowed.Inv) (Windowed.inv_reset g)
    fun t i ht hi => Windowed.inv_step ht hi
  exact hinv.forall_collect fun t i ht f hf => Windowed.whole_of_finish ht.1 hf

/-- Every frame of the run is a window of consecutive samples. -/
def WindowLaw (g : Generics) (is : List In) : Prop := ∀ f ∈ frames g is, f.Window

/-- With the next stage always ready, the frames are windows of consecutive samples with
the sample that fired at index 8 if and only if every frame starts with up-to-date samples. -/
theorem windowLaw_iff (is : List In) (h : ∀ i ∈ is, i.mAxisTready = true) :
    WindowLaw g is ↔ ∀ f ∈ frames g is, f.start.Settled :=
  forall₂_congr fun f hf => (whole_of_mem_frames h f hf).window_iff_settled

/-- A frame long after reset. -/
theorem windowLaw_oneSpike :
    WindowLaw .blockDesign ((List.range 67).map (spikes [10] 1)) ∧
      (frames .blockDesign ((List.range 67).map (spikes [10] 1))).length = 1 :=
  ⟨(windowLaw_iff _ (by decide)).mpr (by decide +kernel), by decide +kernel⟩

/-- A second spike right after the frame of the first: its frame begins with copies of the
sample that the input registers held meanwhile. -/
theorem not_windowLaw_twoSpikes :
    (∀ i ∈ (List.range 127).map (spikes [10, 70] 1), i.Ready ∧ i.sAxisTvalid = true) ∧
      ¬ WindowLaw .blockDesign ((List.range 127).map (spikes [10, 70] 1)) := by
  have hready : ∀ i ∈ (List.range 127).map (spikes [10, 70] 1),
      i.Ready ∧ i.sAxisTvalid = true := by
    simp [spikes, In.quiet, In.Ready]
  refine ⟨hready, fun hlaw => ?_⟩
  have hsettled : ∀ f ∈ frames .blockDesign ((List.range 127).map (spikes [10, 70] 1)),
      f.start.Settled := fun f hf =>
    (whole_of_mem_frames (fun i hi => (hready i hi).1.2) f hf).window_iff_settled.mp (hlaw f hf)
  exact absurd hsettled (by decide +kernel)

end LagoEcosystem.Trigger
