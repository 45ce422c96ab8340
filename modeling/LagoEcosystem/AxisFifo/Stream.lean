import LagoEcosystem.AxisFifo.Core

/-!
# What passes through the stream FIFO

The write enable does not wait for `s_axis_tready`, and the read enable does not wait for
`m_axis_tvalid`. A word is stored in the cycles in which the flag says so and transferred
in those in which the register says so, and these are not the same cycles. `Tracked` runs
the core beside two bits about the word on the master side, and `Lossless` is the condition
under which every word is stored once and taken once.
-/

namespace LagoEcosystem.AxisFifo

open LaggedCounters Clocked

variable {g : Generics}

/-! ## The law -/

section Law

variable (s : St g) (is : List (In g))

/-- The words transferred on the two sides in a run that starts in `s`. -/
def accepted : List (Word g) := collect step acceptOut s is
def delivered : List (Word g) := collect step deliverOut s is

/-- The words come out in order, none twice and none that did not go in; those that have
not come out yet are no more than the memory and the output register hold. -/
structure StreamLaw : Prop where
  inOrder : delivered s is <+: accepted s is
  held : (accepted s is).length ≤ (delivered s is).length + (2 ^ g.awidth + 1)

end Law

/-! ## The condition -/

/-- The core beside what its outputs do not show: whether the last edge of the master side
moved the read pointer on, past the word on the output, and whether that word was taken
already. -/
structure Tracked (g : Generics) where
  st : St g
  popped : Bool
  taken : Bool

def Tracked.reset (ram : BitVec g.awidth → Word g) (dob : Word g) : Tracked g :=
  ⟨.reset ram dob, false, false⟩

def Tracked.step (t : Tracked g) (i : In g) : Tracked g where
  st := AxisFifo.step t.st i
  popped := i.mAxis.elim t.popped fun p => t.st.rdS p
  taken := i.mAxis.elim t.taken fun p => t.st.mTvalidReg && p.tready && !t.popped

/-- A word is offered only while `s_axis_tready` says the same as the full flag, and a word
that the read pointer has passed is taken now or was taken before, not both. -/
def Lossless (t : Tracked g) (i : In g) : Prop :=
  i.Running ∧
  (∀ p ∈ i.sAxis, p.tvalid = true → t.st.sTreadyReg = !t.st.fullS) ∧
  (∀ p ∈ i.mAxis, t.st.mTvalidReg = true → t.popped = true → p.tready = !t.taken)

instance (t : Tracked g) (i : In g) : Decidable (Lossless t i) :=
  inferInstanceAs (Decidable (_ ∧ _ ∧ _))

/-! ## The invariant -/

/-- After the words `A` went in and the words `D` came out. -/
structure Holds (t : Tracked g) (A D : List (Word g)) (w r : Lag) : Prop where
  safe : Safe (2 ^ g.awidth) w r
  ctrl : t.st.ctrl = .ofLags _ w r
  stored : A.length = w.now
  ram : ∀ k, r.now ≤ k → k < w.now → A[k]? = some (t.st.ram (slot _ k))
  shown : t.st.mTvalidReg = true → A[r.now - t.popped.toNat]? = some t.st.dob
  poppedShown : t.popped = true → t.st.mTvalidReg = true
  takenPopped : t.taken = true → t.popped = true
  waits : t.st.mTvalidReg = true → t.popped = false → r.now < w.seen
  inOrder : D <+: A
  count : D.length + (t.popped && !t.taken).toNat = r.now

theorem isPrefix_append_singleton {α : Type*} {D A : List α} {x : α} (h : D <+: A)
    (hx : A[D.length]? = some x) : D ++ [x] <+: A := by
  obtain ⟨B, rfl⟩ := h
  rw [List.getElem?_append_right (le_refl _), Nat.sub_self] at hx
  cases B with
  | nil => simp at hx
  | cons y B =>
    simp only [List.getElem?_cons_zero, Option.some.injEq] at hx
    exact ⟨B, by simp [hx]⟩

section Step

variable {t : Tracked g} {A D : List (Word g)} {w r : Lag} {i : In g}

/-- What is transferred on the slave side is what is stored. -/
theorem acceptOut_eq_stored (hi : Lossless t i) :
    acceptOut t.st i = i.sAxis.elim [] fun p => if t.st.weS p then [p.tdata] else [] := by
  have hwrite := hi.2.1
  unfold acceptOut
  cases hs : i.sAxis with
  | none => rfl
  | some p =>
    have hready := hwrite p hs
    have hsame : (p.tvalid && t.st.sTreadyReg) = t.st.weS p := by
      unfold St.weS
      cases hv : p.tvalid <;> simp [hready, hv]
    rw [Option.elim_some, Option.elim_some, hsame]

theorem wrLag_eq (s : St g) (i : In g) (w : Lag) :
    s.ctrl.wrLag (s.ctrlIn i) w = i.sAxis.elim w fun p => w.tick (s.weS p) := by
  unfold Ctrl.wrLag St.ctrlIn
  cases i.sAxis with
  | none => rfl
  | some p => cases hf : s.ctrl.full <;> simp [Ctrl.writes, St.weS, St.fullS, hf]

theorem rdLag_eq (s : St g) (i : In g) (r : Lag) :
    s.ctrl.rdLag (s.ctrlIn i) r = i.mAxis.elim r fun p => r.tick (s.rdS p) := by
  unfold Ctrl.rdLag St.ctrlIn
  cases i.mAxis with
  | none => rfl
  | some p => cases he : s.ctrl.empty <;> simp [Ctrl.reads, St.rdS, St.emptyS, he]

/-- A write finds a slot free. -/
theorem Holds.free (h : Holds t A D w r) {p : Slave g} (hwe : t.st.weS p = true) :
    w.now < r.now + 2 ^ g.awidth := by
  have hfull : t.st.ctrl.full = false := by grind [St.weS, St.fullS]
  rw [h.ctrl] at hfull
  exact lt_of_not_full g.awidth_pos h.safe hfull

/-- The memory after an event still holds the words that wait. -/
theorem Holds.ramNext_old (h : Holds t A D w r) (i : In g) {k : ℕ} (hk : r.now ≤ k)
    (hlt : k < w.now) : t.st.ramNext i (slot _ k) = t.st.ram (slot _ k) := by
  unfold St.ramNext
  cases i.sAxis with
  | none => rfl
  | some p =>
    rw [Option.elim_some]
    split
    case isTrue hwe =>
      have hfree := h.free hwe
      have haddr : t.st.ctrl.wAddr = slot _ w.now := by
        rw [h.ctrl]
        exact addrAll_ptr w.now
      rw [haddr, Function.update_of_ne (slot_ne hlt (by omega)).symm]
    case isFalse => rfl

/-- The words of the slave side are counted and in the memory after an event. -/
theorem Holds.slave (h : Holds t A D w r) (hi : Lossless t i) :
    (A ++ acceptOut t.st i).length = (t.st.ctrl.wrLag (t.st.ctrlIn i) w).now ∧
    ∀ k, r.now ≤ k → k < (t.st.ctrl.wrLag (t.st.ctrlIn i) w).now →
      (A ++ acceptOut t.st i)[k]? = some (t.st.ramNext i (slot _ k)) := by
  have hold : ∀ k, r.now ≤ k → k < w.now → A[k]? = some (t.st.ramNext i (slot _ k)) := by
    intro k hk hlt
    rw [h.ramNext_old i hk hlt]
    exact h.ram k hk hlt
  rw [acceptOut_eq_stored hi, wrLag_eq]
  cases hs : i.sAxis with
  | none => simpa using ⟨h.stored, hold⟩
  | some p =>
    cases hwe : t.st.weS p with
    | false => simpa [hwe, Lag.tick] using ⟨h.stored, hold⟩
    | true =>
      simp only [Option.elim_some, hwe, if_true, Lag.tick, Bool.toNat_true]
      refine ⟨by simp [h.stored], fun k hk hlt => ?_⟩
      rcases Nat.lt_succ_iff_lt_or_eq.mp hlt with hlt | rfl
      · rw [List.getElem?_append_left (by rw [h.stored]; exact hlt)]
        exact hold k hk hlt
      · have haddr : t.st.ctrl.wAddr = slot _ w.now := by
          rw [h.ctrl]
          exact addrAll_ptr w.now
        have hram : t.st.ramNext i (slot _ w.now) = p.tdata := by
          simp [St.ramNext, hs, hwe, haddr]
        rw [hram, ← h.stored]
        simp

/-- A word that the reader sees is in the memory. -/
theorem Holds.notEmpty (h : Holds t A D w r) (he : t.st.emptyS = false) : r.now < w.seen := by
  have hempty : t.st.ctrl.empty = false := he
  rw [h.ctrl] at hempty
  exact lt_of_not_empty g.awidth_pos h.safe hempty

theorem Holds.emptyS_eq (h : Holds t A D w r) (hlt : r.now < w.seen) : t.st.emptyS = false := by
  have hiff := empty_ofLags g.awidth_pos h.safe
  rw [← h.ctrl] at hiff
  have hnot : ¬ t.st.ctrl.empty = true := by
    rw [hiff]
    omega
  simpa [St.emptyS] using hnot

/-- The output register is loaded with the word under the read pointer. -/
theorem Holds.dobNext_eq (h : Holds t A D w r) {p : Master} (hm : i.mAxis = some p)
    (he : t.st.emptyS = false) : A[r.now]? = some (t.st.dobNext i) := by
  have hseen := h.notEmpty he
  have hlt : r.now < w.now := hseen.trans_le h.safe.writtenSeen
  have haddr : t.st.ctrl.rAddr = slot _ r.now := by
    rw [h.ctrl]
    exact addrAll_ptr r.now
  have hram := h.ram r.now (le_refl _) hlt
  have hkeep := h.ramNext_old i (le_refl _) hlt
  rw [St.dobNext, hm, Option.elim_some, haddr]
  split
  · rw [hkeep]
    exact hram
  · exact hram

/-- The read pointer has passed the word on the output, which is taken once. -/
theorem Holds.deliver_popped (h : Holds t A D w r) (hv : t.st.mTvalidReg = true)
    (hp : t.popped = true) :
    D ++ (if !t.taken then [t.st.dob] else []) <+: A ∧
    (D ++ if !t.taken then [t.st.dob] else []).length = r.now := by
  have hshown := h.shown hv
  have hcount := h.count
  rw [hp] at hshown hcount
  cases hk : t.taken with
  | true =>
    simp only [hk] at hcount
    simpa using ⟨h.inOrder, hcount⟩
  | false =>
    simp only [hk, Bool.not_false, Bool.and_true, Bool.toNat_true] at hcount
    have hlen : D.length = r.now - 1 := by omega
    have hlast : A[D.length]? = some t.st.dob := by
      rw [hlen]
      exact hshown
    simpa [hcount] using isPrefix_append_singleton h.inOrder hlast

/-- The read pointer still stands on the word on the output. -/
theorem Holds.deliver_waiting (h : Holds t A D w r) (hv : t.st.mTvalidReg = true)
    (hp : t.popped = false) (tready : Bool) :
    D ++ (if tready then [t.st.dob] else []) <+: A ∧
    (D ++ if tready then [t.st.dob] else []).length = r.now + tready.toNat := by
  have hshown := h.shown hv
  have hcount := h.count
  rw [hp] at hshown hcount
  simp only [Bool.false_and, Bool.toNat_false, Nat.add_zero, Nat.sub_zero] at hshown hcount
  cases tready with
  | true =>
    have hnext : A[D.length]? = some t.st.dob := by
      rw [hcount]
      exact hshown
    simpa [hcount] using isPrefix_append_singleton h.inOrder hnext
  | false => simpa [hcount] using h.inOrder

/-- The words taken on the master side up to an event, and the counter of the reads. -/
theorem Holds.master (h : Holds t A D w r) (hi : Lossless t i) {p : Master}
    (hm : i.mAxis = some p) :
    D ++ deliverOut t.st i <+: A ∧
    (D ++ deliverOut t.st i).length + ((t.step i).popped && !(t.step i).taken).toNat =
      r.now + (t.st.rdS p).toNat ∧
    ((t.step i).taken = true → (t.step i).popped = true) := by
  have hready := hi.2.2 p hm
  have hout : deliverOut t.st i = if t.st.mTvalidReg && p.tready then [t.st.dob] else [] := by
    simp [deliverOut, hm]
  have hpopped : (t.step i).popped = t.st.rdS p := by simp [Tracked.step, hm]
  have htaken : (t.step i).taken = (t.st.mTvalidReg && p.tready && !t.popped) := by
    simp [Tracked.step, hm]
  rw [hout, hpopped, htaken]
  cases hv : t.st.mTvalidReg with
  | false =>
    have hnot : t.popped = false := by grind [h.poppedShown]
    have hcount := h.count
    simp only [hnot, Bool.false_and, Bool.toNat_false] at hcount
    simp only [Bool.false_and, Bool.not_false, Bool.and_true, Bool.false_eq_true, if_false,
      List.append_nil]
    exact ⟨h.inOrder, by omega, by simp⟩
  | true =>
    cases hp : t.popped with
    | true =>
      obtain ⟨horder, hlen⟩ := h.deliver_popped hv hp
      rw [← hready hv hp] at horder hlen
      simpa [hlen] using horder
    | false =>
      obtain ⟨horder, hlen⟩ := h.deliver_waiting hv hp p.tready
      have hrd : t.st.rdS p = p.tready := by simp [St.rdS, h.emptyS_eq (h.waits hv hp)]
      rw [Bool.true_and, Bool.not_false, Bool.and_true, hlen, hrd]
      exact ⟨horder, by cases p.tready <;> rfl, id⟩

/-- The controller and the counters after an event. -/
theorem Holds.lags (h : Holds t A D w r) (hi : i.Running) :
    Safe (2 ^ g.awidth) (t.st.ctrl.wrLag (t.st.ctrlIn i) w) (t.st.ctrl.rdLag (t.st.ctrlIn i) r) ∧
    (t.step i).st.ctrl = .ofLags _ (t.st.ctrl.wrLag (t.st.ctrlIn i) w)
      (t.st.ctrl.rdLag (t.st.ctrlIn i) r) := by
  constructor
  · rw [h.ctrl]
    exact safe_step g.awidth_pos h.safe _
  · show t.st.ctrl.step (t.st.ctrlIn i) = _
    rw [h.ctrl]
    exact step_ofLags (t.st.ctrlIn_running hi)

/-- The reader's view of the writes only moves forward. -/
theorem Holds.seen_le (h : Holds t A D w r) :
    w.seen ≤ (t.st.ctrl.wrLag (t.st.ctrlIn i) w).seen := by
  rw [wrLag_eq]
  cases i.sAxis with
  | none => exact le_refl _
  | some p => exact h.safe.writtenMid

/-- A word that went in keeps its place. -/
theorem getElem?_append_of_eq {α : Type*} {A B : List α} {k : ℕ} {x : α} (hx : A[k]? = some x) :
    (A ++ B)[k]? = some x := by
  rw [List.getElem?_append_left (List.getElem?_eq_some_iff.mp hx).1, hx]

/-- An event without an edge of the master side. -/
theorem Holds.step_slave (h : Holds t A D w r) (hi : Lossless t i) (hm : i.mAxis = none) :
    Holds (t.step i) (A ++ acceptOut t.st i) D (t.st.ctrl.wrLag (t.st.ctrlIn i) w) r := by
  have hr : t.st.ctrl.rdLag (t.st.ctrlIn i) r = r := by
    rw [rdLag_eq, hm]
    rfl
  obtain ⟨hsafe, hctrl⟩ := h.lags hi.1
  rw [hr] at hctrl hsafe
  obtain ⟨hstored, hram⟩ := h.slave hi
  have hvalid : (t.step i).st.mTvalidReg = t.st.mTvalidReg := by
    simp [Tracked.step, AxisFifo.step, hm]
  have hdob : (t.step i).st.dob = t.st.dob := by
    simp [Tracked.step, AxisFifo.step, St.dobNext, hm]
  have hpopped : (t.step i).popped = t.popped := by simp [Tracked.step, hm]
  have htaken : (t.step i).taken = t.taken := by simp [Tracked.step, hm]
  constructor
  case safe => exact hsafe
  case ctrl => exact hctrl
  case stored => exact hstored
  case ram => exact hram
  case shown =>
    rw [hvalid, hpopped, hdob]
    exact fun hv => getElem?_append_of_eq (h.shown hv)
  case poppedShown =>
    rw [hvalid, hpopped]
    exact h.poppedShown
  case takenPopped =>
    rw [hpopped, htaken]
    exact h.takenPopped
  case waits =>
    rw [hvalid, hpopped]
    exact fun hv hp => (h.waits hv hp).trans_le h.seen_le
  case inOrder => exact h.inOrder.trans (List.prefix_append _ _)
  case count =>
    rw [hpopped, htaken]
    exact h.count

/-- An event with an edge of the master side. -/
theorem Holds.step_master (h : Holds t A D w r) (hi : Lossless t i) {p : Master}
    (hm : i.mAxis = some p) :
    Holds (t.step i) (A ++ acceptOut t.st i) (D ++ deliverOut t.st i)
      (t.st.ctrl.wrLag (t.st.ctrlIn i) w) (r.tick (t.st.rdS p)) := by
  have hr : t.st.ctrl.rdLag (t.st.ctrlIn i) r = r.tick (t.st.rdS p) := by
    rw [rdLag_eq, hm]
    rfl
  obtain ⟨hsafe, hctrl⟩ := h.lags hi.1
  rw [hr] at hctrl hsafe
  obtain ⟨hstored, hram⟩ := h.slave hi
  obtain ⟨horder, hcount, htp⟩ := h.master hi hm
  have hres : p.aresetn = true := hi.1.2 p hm
  have hvalid : (t.step i).st.mTvalidReg = !t.st.emptyS := by
    simp [Tracked.step, AxisFifo.step, hm, hres]
  have hpopped : (t.step i).popped = t.st.rdS p := by simp [Tracked.step, hm]
  constructor
  case safe => exact hsafe
  case ctrl => exact hctrl
  case stored => exact hstored
  case ram => exact fun k hk hlt => hram k ((Nat.le_add_right _ _).trans hk) hlt
  case shown =>
    intro hv
    have he : t.st.emptyS = false := by simpa [hvalid] using hv
    have hat : (r.tick (t.st.rdS p)).now - (t.step i).popped.toNat = r.now := by
      rw [hpopped]
      exact Nat.add_sub_cancel _ _
    rw [hat]
    exact getElem?_append_of_eq (h.dobNext_eq hm he)
  case poppedShown => grind [St.rdS]
  case takenPopped => exact htp
  case waits =>
    intro hv hp
    have he : t.st.emptyS = false := by simpa [hvalid] using hv
    have hnow : (r.tick (t.st.rdS p)).now = r.now := by simp [Lag.tick, ← hpopped, hp]
    rw [hnow]
    exact (h.notEmpty he).trans_le h.seen_le
  case inOrder => exact horder.trans (List.prefix_append _ _)
  case count => exact hcount

theorem Holds.step (h : Holds t A D w r) (hi : Lossless t i) :
    ∃ w' r', Holds (t.step i) (A ++ acceptOut t.st i) (D ++ deliverOut t.st i) w' r' := by
  cases hm : i.mAxis with
  | none =>
    have hd : D ++ deliverOut t.st i = D := by simp [deliverOut, hm]
    rw [hd]
    exact ⟨_, _, h.step_slave hi hm⟩
  | some p => exact ⟨_, _, h.step_master hi hm⟩

end Step

/-! ## Runs -/

theorem holds_after {ram : BitVec g.awidth → Word g} {dob : Word g} {is : List (In g)}
    (h : Along Tracked.step Lossless (.reset ram dob) is) :
    ∃ w r, Holds (run Tracked.step (.reset ram dob) is) (accepted (.reset ram dob) is)
      (delivered (.reset ram dob) is) w r := by
  have hst : ∀ (t : Tracked g) i, (t.step i).st = AxisFifo.step t.st i := fun _ _ => rfl
  have hacc := collect_map hst acceptOut (Tracked.reset ram dob) is
  have hdel := collect_map hst deliverOut (Tracked.reset ram dob) is
  have hstart : Holds (Tracked.reset ram dob) [] [] ⟨0, 0, 0⟩ ⟨0, 0, 0⟩ := by
    constructor
    case safe => exact safe_zero _
    case ctrl => exact Ctrl.reset_eq _
    all_goals simp [Tracked.reset, St.reset]
  have hend := h.induction_on_past (P := fun js => ∃ w r,
    Holds (run Tracked.step (.reset ram dob) js)
      (collect Tracked.step (fun t i => acceptOut t.st i) (.reset ram dob) js)
      (collect Tracked.step (fun t i => deliverOut t.st i) (.reset ram dob) js) w r)
    ⟨_, _, hstart⟩ (by
      rintro js i - ⟨w, r, hjs⟩ hi
      simp only [run_append, run_cons, run_nil, collect_append, collect_cons, collect_nil,
        List.append_nil]
      exact hjs.step hi)
  rw [hacc, hdel] at hend
  exact hend

/-- Whatever the order of the clock edges, the stream passes unharmed as long as every word
is stored once and taken once. -/
theorem streamLaw_of_lossless (ram : BitVec g.awidth → Word g) (dob : Word g) (is : List (In g))
    (h : Along Tracked.step Lossless (.reset ram dob) is) :
    StreamLaw (.reset ram dob) is := by
  obtain ⟨w, r, hend⟩ := holds_after h
  refine ⟨hend.inOrder, ?_⟩
  have hcount := hend.count
  have hbound := hend.safe.written_le
  have hstored := hend.stored
  have hle := Bool.toNat_le ((run Tracked.step (Tracked.reset ram dob) is).popped &&
    !(run Tracked.step (Tracked.reset ram dob) is).taken)
  omega

/-! An edge of the slave clock offering a word or none, and one of the master clock. -/

def offer (w : BitVec 32) : In .default := ⟨some ⟨true, true, w⟩, none, false⟩
def idle : In .default := ⟨some ⟨true, false, 0⟩, none, false⟩
def take : In .default := ⟨none, some ⟨true, true⟩, false⟩

/-- Two words are offered when the core is ready, and then read. -/
theorem streamLaw_twoWords :
    StreamLaw (.reset (fun _ => 0) 0)
      [idle, offer 7, offer 8, idle, idle, take, take, take, take] :=
  streamLaw_of_lossless (fun _ => 0) 0 _ (by decide +kernel)

/-- The word offered at the first edge after reset waits for `s_axis_tready` as it must,
and is stored in both cycles. -/
theorem not_streamLaw_firstWord :
    (∀ i ∈ [offer 7, offer 7, idle, idle, take, take, take], i.Running) ∧
    accepted (.reset (fun _ => 0) 0) [offer 7, offer 7, idle, idle, take, take, take] = [7] ∧
    delivered (.reset (fun _ => 0) 0) [offer 7, offer 7, idle, idle, take, take, take] =
      [7, 7] ∧
    ¬ StreamLaw (.reset (fun _ => 0) 0) [offer 7, offer 7, idle, idle, take, take, take] := by
  have hacc : accepted (.reset (fun _ => 0) 0)
      [offer 7, offer 7, idle, idle, take, take, take] = [7] := by decide +kernel
  have hdel : delivered (.reset (fun _ => 0) 0)
      [offer 7, offer 7, idle, idle, take, take, take] = [7, 7] := by decide +kernel
  refine ⟨by decide, hacc, hdel, ?_⟩
  intro hlaw
  have hlen := hlaw.inOrder.length_le
  rw [hacc, hdel] at hlen
  exact absurd hlen (by decide)

end LagoEcosystem.AxisFifo
