import LagoEcosystem.Library.Framing
import LagoEcosystem.Trigger.Stream
import Mathlib.Data.Set.Image

/-!
# The grammar of the output stream

The stream is meant to be a sequence of blocks: a frame of samples closed by its two
status words, the metadata of a second, or a sub-trigger record. The state machine keeps
to that grammar as long as `m_axis_tready` is only withdrawn where a stall is harmless
(`Harmless`). In the states that count words a stall clears `wr_count_reg`, in their first
cycle it makes the old contents of the output register valid, and in `ST_IDLE` it drops
the word that is still waiting there.
-/

namespace LagoEcosystem.Trigger

open Clocked Framing

variable {g : Generics}

/-! ## The grammar -/

def sampleWords : Set (BitVec 32) := Set.range fun p : BitVec 14 × BitVec 14 => sampleWord p.1 p.2

def trStatusWords : Set (BitVec 32) := {w | ∃ tr2 tr1 clkCntPps, w = trStatusWord tr2 tr1 clkCntPps}

def cntStatusWords : Set (BitVec 32) := Set.range cntStatusWord

/-- `DATA_ARRAY_LENGTH` samples, one trigger status, one counter status. -/
def frameLayout (g : Generics) : List (Set (BitVec 32)) :=
  List.replicate g.dataArrayLength sampleWords ++ [trStatusWords, cntStatusWords]

/-- The metadata words in index order. -/
def metadataLayout : List (Set (BitVec 32)) :=
  List.ofFn fun k : Fin 12 => Set.range fun m : Metadata => m.word k

/-- The sub-trigger words in index order. -/
def subtrigLayout : List (Set (BitVec 32)) :=
  List.ofFn fun k : Fin 3 => Set.range fun r : Subtrig => r.word k

def layouts (g : Generics) : Set (List (Set (BitVec 32))) :=
  {frameLayout g, metadataLayout, subtrigLayout}

/-! The same blocks with what their words stand for. -/

def sampleItems : Set Item := {it | ∃ a b, it = .sample a b}

def trStatusItems : Set Item := {it | ∃ tr2 tr1 clkCntPps, it = .trStatus tr2 tr1 clkCntPps}

def cntStatusItems : Set Item := Set.range Item.cntStatus

def frameItems (g : Generics) : List (Set Item) :=
  List.replicate g.dataArrayLength sampleItems ++ [trStatusItems, cntStatusItems]

def metadataItems : List (Set Item) := List.ofFn fun k : Fin 12 => Set.range (Item.metadata k)

def subtrigItems : List (Set Item) := List.ofFn fun k : Fin 3 => Set.range (Item.subtrig k)

def itemLayouts (g : Generics) : Set (List (Set Item)) := {frameItems g, metadataItems, subtrigItems}

/-- The words transferred in a run from reset are the loaded words, in order and each at
most once, and these are a stream of blocks. Word `k` of a record is element `k` of its array.
A capture that comes while a record is sent renews the array, so a record may mix two
captures. -/
structure WellFramed (g : Generics) (is : List In) : Prop where
  once : transferred (St.reset g) is <+: loaded (St.reset g) is
  blocks : Stream (layouts g) (loaded (St.reset g) is)
  items : ∃ its, loaded (St.reset g) is = its.map Item.word ∧ Stream (itemLayouts g) its

theorem WellFramed.stream {is : List In} (h : WellFramed g is) :
    Stream (layouts g) (transferred (St.reset g) is) := h.blocks.of_isPrefix h.once

/-! ## Harmless stalls -/

/-- A cycle outside reset in which a low `m_axis_tready` does no harm: the status words
wait in the output register, and `ST_IDLE` with an empty one only postpones its choice. -/
def Harmless (s : St g) (i : In) : Prop :=
  i.aresetn = true ∧ (i.mAxisTready = true ∨ s.fsm.stateReg = .stSendTrStatus ∨
    s.fsm.stateReg = .stSendCntStatus ∨
    (s.fsm.stateReg = .stIdle ∧ s.fsm.axisTvalidReg = false))

instance (s : St g) (i : In) : Decidable (Harmless s i) := by
  unfold Harmless; infer_instance

/-- A cycle outside reset with the next stage ready. -/
def In.Ready (i : In) : Prop := i.aresetn = true ∧ i.mAxisTready = true

theorem In.Ready.harmless {i : In} (h : i.Ready) (s : St g) : Harmless s i := ⟨h.1, .inl h.2⟩

/-! ## Every loaded word is transferred once -/

/-- The word waiting in the output register. -/
def St.pending (s : St g) : List (BitVec 32) :=
  if s.fsm.axisTvalidReg then [s.fsm.dataToFifoReg] else []

/-- The status states are entered with a word waiting. -/
def Fsm.Armed (f : Fsm) : Prop :=
  f.stateReg = .stSendTrStatus ∨ f.stateReg = .stSendCntStatus → f.axisTvalidReg = true

theorem step_of_harmless {s : St g} {i : In} (h : Harmless s i) : step s i = s.next i := by
  simp [step, h.1]

/-- The status states follow a frame only. -/
theorem idleNext_ne_status (tr subtr pps : Bool) :
    idleNext tr subtr pps ≠ .stSendTrStatus ∧ idleNext tr subtr pps ≠ .stSendCntStatus := by
  cases tr <;> cases subtr <;> cases pps <;> decide

theorem Fsm.armed_step {s : St g} {i : In} (hc : Harmless s i) : (step s i).fsm.Armed := by
  rw [step_of_harmless hc]
  show (s.fsmNext i).Armed
  by_cases hst : s.fsm.stateReg = .stIdle
  · have hne := idleNext_ne_status (s.trS i) (s.subtrS i) i.ppsI
    rw [Fsm.Armed, St.fsmNext_stateReg_of_idle hst]
    split
    · rintro (h | h)
      · exact absurd h hne.1
      · exact absurd h hne.2
    · simp
  · exact fun _ => St.fsmNext_axisTvalidReg_of_busy hst

theorem transfer_eq_pending {s : St g} {i : In} (hr : i.mAxisTready = true) :
    transfer s i = s.pending := by
  simp [transfer, St.pending, hr]

theorem load_eq_pending {s : St g} {i : In} (hr : i.mAxisTready = true) :
    load s i = (s.next i).pending := by
  by_cases hst : s.fsm.stateReg = .stIdle
  · simp [load, St.pending, St.next, St.fsmNext, hst]
  · have hvalid := St.fsmNext_axisTvalidReg_of_busy (i := i) hst
    simp [load, hr, hst, St.pending, St.next, hvalid]

/-- A harmless stall keeps the waiting word. -/
theorem pending_stall {s : St g} {i : In} (ha : s.fsm.Armed) (hc : Harmless s i)
    (hr : i.mAxisTready = false) : (s.next i).pending = s.pending := by
  rcases hc.2 with hready | hst | hst | ⟨hst, hempty⟩
  · simp [hr] at hready
  · have hvalid := ha (.inl hst)
    simp [St.pending, St.next, St.fsmNext, hst, hr, hvalid]
  · have hvalid := ha (.inr hst)
    simp [St.pending, St.next, St.fsmNext, hst, hr, hvalid]
  · simp [St.pending, St.next, St.fsmNext, hst, hempty]

/-- One cycle passes the waiting word on and loads the next one behind it. -/
theorem pending_load {s : St g} {i : In} (ha : s.fsm.Armed) (hc : Harmless s i) :
    s.pending ++ load s i = transfer s i ++ (step s i).pending := by
  rw [step_of_harmless hc]
  cases hr : i.mAxisTready with
  | true => rw [transfer_eq_pending hr, load_eq_pending hr]
  | false =>
    have hload : load s i = [] := by simp [load, hr]
    have hout : transfer s i = [] := by simp [transfer, hr]
    rw [hload, hout, pending_stall ha hc hr, List.append_nil, List.nil_append]

theorem pending_loaded {s : St g} (ha : s.fsm.Armed) {is : List In}
    (h : Along step Harmless s is) :
    s.pending ++ loaded s is = transferred s is ++ (run step s is).pending := by
  have harmed := h.strengthen (P := fun s => s.fsm.Armed) ha fun s i _ hc => Fsm.armed_step hc
  exact harmed.conserve fun s i hs => pending_load hs.1 hs.2

theorem Fsm.armed_reset : Fsm.reset.Armed := by simp [Fsm.Armed, Fsm.reset]

theorem transferred_isPrefix {is : List In} (h : Along step Harmless (St.reset g) is) :
    transferred (St.reset g) is <+: loaded (St.reset g) is := by
  have hpending : (St.reset g).pending = [] := rfl
  have hcons := pending_loaded (s := St.reset g) Fsm.armed_reset h
  rw [hpending, List.nil_append] at hcons
  rw [hcons]
  exact List.prefix_append _ _

/-! ## The loaded words form blocks -/

theorem length_frameItems (g : Generics) : (frameItems g).length = g.dataArrayLength + 2 := by
  simp [frameItems]

theorem frameItems_sample {k : ℕ} (hk : k < g.dataArrayLength) :
    (frameItems g)[k]? = some sampleItems := by
  simp [frameItems, List.getElem?_append, hk]

theorem frameItems_trStatus (g : Generics) :
    (frameItems g)[g.dataArrayLength]? = some trStatusItems := by
  simp [frameItems]

theorem frameItems_cntStatus (g : Generics) :
    (frameItems g)[g.dataArrayLength + 1]? = some cntStatusItems := by
  simp [frameItems]

theorem metadataItems_get (k : Fin 12) :
    metadataItems[k.val]? = some (Set.range (Item.metadata k)) := by
  rw [metadataItems, List.getElem?_ofFn, dif_pos k.isLt]

theorem subtrigItems_get (k : Fin 3) :
    subtrigItems[k.val]? = some (Set.range (Item.subtrig k)) := by
  rw [subtrigItems, List.getElem?_ofFn, dif_pos k.isLt]

/-- Where the state machine stands in the grammar after putting `its` into the stream. -/
def Phase (g : Generics) (f : Fsm) (its : List Item) : Prop :=
  match f.stateReg with
  | .stIdle => Closed (itemLayouts g) its
  | .stAttTr => Inside (itemLayouts g) (frameItems g) f.wrCountReg.toNat its
  | .stSendTrStatus => Inside (itemLayouts g) (frameItems g) g.dataArrayLength its
  | .stSendCntStatus => Inside (itemLayouts g) (frameItems g) (g.dataArrayLength + 1) its
  | .stAttSubtr => Inside (itemLayouts g) subtrigItems f.wrCountReg.toNat its
  | .stAttPps => Inside (itemLayouts g) metadataItems f.wrCountReg.toNat its

/-- Any block may follow in `ST_IDLE`. -/
theorem phase_idleNext {its : List Item} (h : Closed (itemLayouts g) its) {f : Fsm}
    (tr subtr pps : Bool) (hf : f.stateReg = idleNext tr subtr pps) (hc : f.wrCountReg = 0) :
    Phase g f its := by
  cases tr <;> cases subtr <;> cases pps <;> simp only [idleNext] at hf <;>
    simp only [Phase, hf, hc] <;> first | exact h | exact h.start _

/-- A record goes on with its next word or is complete with this one. -/
theorem closed_or_inside {L : List (Set Item)} {c : BitVec 8} {its : List Item}
    {it : Item} {place : Set Item} (h : Inside (itemLayouts g) L c.toNat its)
    (hL : L ∈ itemLayouts g) (hlen : L.length ≤ 256) (hplace : L[c.toNat]? = some place)
    (hit : it ∈ place) :
    (c.toNat = L.length - 1 → Closed (itemLayouts g) (its ++ [it])) ∧
      (c.toNat ≠ L.length - 1 → Inside (itemLayouts g) L (c + 1).toNat (its ++ [it])) := by
  obtain ⟨hlt, -⟩ := List.getElem?_eq_some_iff.mp hplace
  have hpush := h.push hplace hit
  refine ⟨fun hlast => hpush.close hL (by omega), fun hnext => ?_⟩
  rw [toNat_count_succ hlen hlt hnext]
  exact hpush

section PhaseStep

variable {t : Tracked g} {its : List Item} {i : In}

/-- A harmless stall: the machine stays where it is and loads nothing. -/
theorem phase_stall (hc : Harmless t.st i) (hr : i.mAxisTready = false)
    (h : Phase g t.st.fsm its) : Phase g (t.st.fsmNext i) (its ++ t.put i) := by
  have hput : t.put i = [] := by simp [Tracked.put, hr]
  rw [hput, List.append_nil]
  obtain ⟨-, hstates⟩ := hc
  rcases hf : t.st.fsm with ⟨st, c, d, v, r⟩
  rw [hf] at hstates h
  cases st <;> simp_all [Phase, St.fsmNext]

/-- A sample is loaded, and the trigger status follows the last one. -/
theorem phase_attTr (hinv : t.Inv) (hr : i.mAxisTready = true)
    (hst : t.st.fsm.stateReg = .stAttTr) (h : Phase g t.st.fsm its) :
    Phase g (t.st.fsmNext i) (its ++ t.put i) := by
  have hlt : t.st.fsm.wrCountReg.toNat < g.dataArrayLength := by
    simpa [Fsm.InRange, hst] using hinv.inRange
  have hput : t.put i = [.sample t.st.sampleA t.st.sampleB] := by
    simp [Tracked.put, hr, hst]
  simp only [Phase, hst] at h
  have hpush := h.push (frameItems_sample hlt) ⟨t.st.sampleA, t.st.sampleB, rfl⟩
  rw [hput]
  by_cases hlast : t.st.fsm.wrCountReg.toNat = g.dataArrayLength - 1
  · have hn : t.st.fsm.wrCountReg.toNat + 1 = g.dataArrayLength := by omega
    rw [hn] at hpush
    simpa [Phase, St.fsmNext, hst, hr, hlast] using hpush
  · have hsucc := toNat_count_succ g.counts hlt hlast
    rw [← hsucc] at hpush
    simpa [Phase, St.fsmNext, hst, hr, hlast] using hpush

theorem phase_sendTrStatus (hinv : t.Inv) (hr : i.mAxisTready = true)
    (hst : t.st.fsm.stateReg = .stSendTrStatus) (h : Phase g t.st.fsm its) :
    Phase g (t.st.fsmNext i) (its ++ t.put i) := by
  have hcov := hinv.covers
  rw [hst] at hcov
  obtain ⟨e, he⟩ := Option.isSome_iff_exists.mp hcov
  have hput : t.put i = [.trStatus e.tr2 e.tr1 e.clkCntPps] := by
    simp [Tracked.put, hr, hst, he]
  simp only [Phase, hst] at h
  have hpush := h.push (frameItems_trStatus g) ⟨e.tr2, e.tr1, e.clkCntPps, rfl⟩
  rw [hput]
  simpa [Phase, St.fsmNext, hst, hr] using hpush

theorem phase_sendCntStatus (hinv : t.Inv) (hr : i.mAxisTready = true)
    (hst : t.st.fsm.stateReg = .stSendCntStatus) (h : Phase g t.st.fsm its) :
    Phase g (t.st.fsmNext i) (its ++ t.put i) := by
  have hcov := hinv.covers
  rw [hst] at hcov
  obtain ⟨e, he⟩ := Option.isSome_iff_exists.mp hcov
  have hput : t.put i = [.cntStatus e.trigCnt] := by simp [Tracked.put, hr, hst, he]
  simp only [Phase, hst] at h
  have hpush := h.push (frameItems_cntStatus g) ⟨e.trigCnt, rfl⟩
  have hclosed := hpush.close (by simp [itemLayouts]) (length_frameItems g).symm
  rw [hput]
  simpa [Phase, St.fsmNext, hst, hr] using hclosed

theorem phase_attSubtr (hinv : t.Inv) (hr : i.mAxisTready = true)
    (hst : t.st.fsm.stateReg = .stAttSubtr) (h : Phase g t.st.fsm its) :
    Phase g (t.st.fsmNext i) (its ++ t.put i) := by
  have hcov := hinv.covers
  have hlt : t.st.fsm.wrCountReg.toNat < 3 := by simpa [Fsm.InRange, hst] using hinv.inRange
  rw [hst] at hcov
  obtain ⟨e, he⟩ := Option.isSome_iff_exists.mp hcov
  have hput : t.put i = [.subtrig ⟨_, hlt⟩ e] := by simp [Tracked.put, hr, hst, hlt, he]
  simp only [Phase, hst] at h
  obtain ⟨hlast, hnext⟩ := closed_or_inside h (by simp [itemLayouts]) (by simp [subtrigItems])
    (subtrigItems_get ⟨_, hlt⟩) ⟨e, rfl⟩
  have hlen : subtrigItems.length - 1 = 3 - 1 := by simp [subtrigItems]
  rw [hlen] at hlast hnext
  rw [hput]
  by_cases hend : t.st.fsm.wrCountReg.toNat = 3 - 1
  · simpa [Phase, St.fsmNext, hst, hr, subtrigArrayLength, hend] using hlast hend
  · simpa [Phase, St.fsmNext, hst, hr, subtrigArrayLength, hend] using hnext hend

theorem phase_attPps (hinv : t.Inv) (hr : i.mAxisTready = true)
    (hst : t.st.fsm.stateReg = .stAttPps) (h : Phase g t.st.fsm its) :
    Phase g (t.st.fsmNext i) (its ++ t.put i) := by
  have hcov := hinv.covers
  have hlt : t.st.fsm.wrCountReg.toNat < 12 := by simpa [Fsm.InRange, hst] using hinv.inRange
  rw [hst] at hcov
  obtain ⟨e, he⟩ := Option.isSome_iff_exists.mp hcov
  have hput : t.put i = [.metadata ⟨_, hlt⟩ e] := by simp [Tracked.put, hr, hst, hlt, he]
  simp only [Phase, hst] at h
  obtain ⟨hlast, hnext⟩ := closed_or_inside h (by simp [itemLayouts]) (by simp [metadataItems])
    (metadataItems_get ⟨_, hlt⟩) ⟨e, rfl⟩
  have hlen : metadataItems.length - 1 = 12 - 1 := by simp [metadataItems]
  rw [hlen] at hlast hnext
  rw [hput]
  by_cases hend : t.st.fsm.wrCountReg.toNat = 12 - 1
  · simpa [Phase, St.fsmNext, hst, hr, metadataArrayLength, hend] using hlast hend
  · simpa [Phase, St.fsmNext, hst, hr, metadataArrayLength, hend] using hnext hend

theorem phase_step (hinv : t.Inv) (hc : Harmless t.st i) (h : Phase g t.st.fsm its) :
    Phase g (t.step i).st.fsm (its ++ t.put i) := by
  rw [Tracked.step_st, step_of_harmless hc]
  show Phase g (t.st.fsmNext i) _
  cases hr : i.mAxisTready with
  | false => exact phase_stall hc hr h
  | true =>
    cases hst : t.st.fsm.stateReg with
    | stIdle =>
      have hput : t.put i = [] := by simp [Tracked.put, hst]
      simp only [Phase, hst] at h
      rw [hput, List.append_nil]
      exact phase_idleNext h (t.st.trS i) (t.st.subtrS i) i.ppsI
        (by simp [St.fsmNext, hst, hr]) (by simp [St.fsmNext, hst])
    | stAttTr => exact phase_attTr hinv hr hst h
    | stSendTrStatus => exact phase_sendTrStatus hinv hr hst h
    | stSendCntStatus => exact phase_sendCntStatus hinv hr hst h
    | stAttSubtr => exact phase_attSubtr hinv hr hst h
    | stAttPps => exact phase_attPps hinv hr hst h

end PhaseStep

/-- No place of a layout is empty. -/
theorem itemLayouts_nonempty {L : List (Set Item)} (hL : L ∈ itemLayouts g) :
    ∀ s ∈ L, s.Nonempty := by
  intro s hs
  simp only [itemLayouts, Set.mem_insert_iff, Set.mem_singleton_iff] at hL
  rcases hL with rfl | rfl | rfl
  · simp only [frameItems, List.mem_append, List.mem_replicate, List.mem_cons,
      List.not_mem_nil, or_false] at hs
    rcases hs with ⟨-, rfl⟩ | rfl | rfl
    · exact ⟨_, 0, 0, rfl⟩
    · exact ⟨_, false, false, 0, rfl⟩
    · exact ⟨_, 0, rfl⟩
  · obtain ⟨k, rfl⟩ := List.mem_ofFn.mp hs
    exact ⟨_, ⟨0, 0, 0, 0, 0, 0, 0, 0, 0, 0, 0⟩, rfl⟩
  · obtain ⟨k, rfl⟩ := List.mem_ofFn.mp hs
    exact ⟨_, ⟨false, false, 0, 0, 0, 0, 0⟩, rfl⟩

theorem Phase.stream {f : Fsm} {its : List Item} (h : Phase g f its) :
    Stream (itemLayouts g) its := by
  unfold Phase at h
  split at h
  · exact h.stream
  all_goals
    exact h.stream (by simp [itemLayouts]) (itemLayouts_nonempty (g := g) (by simp [itemLayouts]))

theorem put_stream {is : List In} (h : Along step Harmless (St.reset g) is) :
    Stream (itemLayouts g) (collect Tracked.step Tracked.put (Tracked.reset g) is) := by
  have ht : Along Tracked.step (fun t i => Harmless t.st i) (Tracked.reset g) is :=
    (along_map Tracked.step_st _ is).mpr h
  have hinv := ht.strengthen (P := Tracked.Inv) (Tracked.inv_reset g)
    fun t i ht _ => Tracked.inv_step ht i
  have hstart : Phase g (Tracked.reset g).st.fsm [] := closed_nil
  have hphase := hinv.history Tracked.put (P := fun its t => Phase g t.st.fsm its) hstart
    fun its t i hp hc => phase_step hc.1 hc.2 hp
  rw [List.nil_append] at hphase
  exact hphase.stream

/-- The words of the places are those of the items. -/
theorem layouts_of_itemLayouts {M : List (Set Item)} (hM : M ∈ itemLayouts g) :
    ∃ L ∈ layouts g, List.Forall₂ (Set.MapsTo Item.word) M L := by
  simp only [itemLayouts, Set.mem_insert_iff, Set.mem_singleton_iff] at hM
  rcases hM with rfl | rfl | rfl
  · refine ⟨frameLayout g, by simp [layouts], List.rel_append ?_ ?_⟩
    · rw [List.forall₂_iff_get]
      refine ⟨by simp, fun k hk _ => ?_⟩
      simp only [List.get_eq_getElem, List.getElem_replicate]
      rintro - ⟨a, b, rfl⟩
      exact ⟨(b, a), rfl⟩
    · refine .cons ?_ (.cons ?_ .nil)
      · rintro - ⟨tr2, tr1, clkCntPps, rfl⟩
        exact ⟨tr2, tr1, clkCntPps, rfl⟩
      · rintro - ⟨trigCnt, rfl⟩
        exact ⟨trigCnt, rfl⟩
  · refine ⟨metadataLayout, by simp [layouts], ?_⟩
    rw [List.forall₂_iff_get]
    refine ⟨by simp [metadataItems, metadataLayout], fun k hk _ => ?_⟩
    simp only [metadataItems, metadataLayout, List.get_eq_getElem, List.getElem_ofFn]
    rintro - ⟨m, rfl⟩
    exact ⟨m, rfl⟩
  · refine ⟨subtrigLayout, by simp [layouts], ?_⟩
    rw [List.forall₂_iff_get]
    refine ⟨by simp [subtrigItems, subtrigLayout], fun k hk _ => ?_⟩
    simp only [subtrigItems, subtrigLayout, List.get_eq_getElem, List.getElem_ofFn]
    rintro - ⟨r, rfl⟩
    exact ⟨r, rfl⟩

/-! ## The stream is well framed as long as every stall is harmless -/

theorem two_le_length {L : List (Set (BitVec 32))} (hL : L ∈ layouts g) : 2 ≤ L.length := by
  simp only [layouts, Set.mem_insert_iff, Set.mem_singleton_iff] at hL
  rcases hL with rfl | rfl | rfl <;> simp [frameLayout, metadataLayout, subtrigLayout]

theorem frameLayout_sample {k : ℕ} (hk : k < g.dataArrayLength) :
    (frameLayout g)[k]? = some sampleWords := by
  simp [frameLayout, List.getElem?_append, hk]

theorem metadataLayout_get (k : Fin 12) :
    metadataLayout[k.val]? = some (Set.range fun m : Metadata => m.word k) := by
  rw [metadataLayout, List.getElem?_ofFn, dif_pos k.isLt]

theorem subtrigLayout_get (k : Fin 3) :
    subtrigLayout[k.val]? = some (Set.range fun r : Subtrig => r.word k) := by
  rw [subtrigLayout, List.getElem?_ofFn, dif_pos k.isLt]

/-- A second begins while the next stage is busy for a cycle. -/
def pulse : In := { In.quiet with ppsI := true }
def stall : In := { In.quiet with mAxisTready := false }

end LagoEcosystem.Trigger
