import LagoEcosystem.AxisFifo.Controller

/-!
# The controller is safe

The registers mirror two lagging counters, one for each side, through the Gray code. What
the flags say follows from the order of the counters, for every order of the clock edges.
-/

namespace LagoEcosystem.AxisFifo

open GrayCode LaggedCounters Clocked

variable {n : ℕ}

/-- No reset at the edges of the event. -/
def CtrlIn.Running (i : CtrlIn) : Prop :=
  (∀ p ∈ i.clkw, p.reset = true) ∧ (∀ p ∈ i.clkr, p.reset = true)

instance (i : CtrlIn) : Decidable i.Running := inferInstanceAs (Decidable (_ ∧ _))

/-- The addresses of the accepted writes and reads of a run after reset. -/
def written (n : ℕ) (is : List CtrlIn) : List (BitVec n) :=
  collect Ctrl.step Ctrl.writeOut (.reset n) is
def readBack (n : ℕ) (is : List CtrlIn) : List (BitVec n) :=
  collect Ctrl.step Ctrl.readOut (.reset n) is
def Ctrl.after (n : ℕ) (is : List CtrlIn) : Ctrl n := run Ctrl.step (.reset n) is

/-- The controller after the events of `is`, and at the next one whatever it is. -/
structure CtrlLaw (n : ℕ) (is : List CtrlIn) : Prop where
  nonneg : (readBack n is).length ≤ (written n is).length
  bounded : (written n is).length ≤ (readBack n is).length + 2 ^ n
  full : (written n is).length = (readBack n is).length + 2 ^ n → (Ctrl.after n is).full = true
  empty : (written n is).length = (readBack n is).length → (Ctrl.after n is).empty = true
  /-- The `k`-th read uses the address of the `k`-th write, which came before. -/
  sameAddress : readBack n is <+: written n is
  /-- A write lands on no slot that waits to be read. -/
  freeSlot : ∀ i, ∀ a ∈ (Ctrl.after n is).writeOut i,
    a ∉ (written n is).drop (readBack n is).length
  /-- A read takes the oldest slot that waits to be read. -/
  writtenSlot : ∀ i, ∀ a ∈ (Ctrl.after n is).readOut i,
    (written n is)[(readBack n is).length]? = some a

/-! ## The registers mirror the counters -/

def Ctrl.ofLags (n : ℕ) (w r : Lag) : Ctrl n where
  wr := ⟨ptr n w.now, ptr n w.mid, ptr n w.seen⟩
  rd := ⟨ptr n r.now, ptr n r.mid, ptr n r.seen⟩

theorem Ctrl.reset_eq (n : ℕ) : Ctrl.reset n = .ofLags n ⟨0, 0, 0⟩ ⟨0, 0, 0⟩ := by
  have hzero : ptr n 0 = 0 := gray_zero
  simp [Ctrl.reset, WrSide.reset, RdSide.reset, NSync.reset, Ctrl.ofLags, hzero]

/-- The counters after an event. -/
def Ctrl.wrLag (c : Ctrl n) (i : CtrlIn) (w : Lag) : Lag :=
  i.clkw.elim w fun p => w.tick (c.writes p)
def Ctrl.rdLag (c : Ctrl n) (i : CtrlIn) (r : Lag) : Lag :=
  i.clkr.elim r fun p => r.tick (c.reads p)

section Mirror

variable {w r : Lag}

theorem full_ofLags (hn : 0 < n) (h : Safe (2 ^ n) w r) :
    (Ctrl.ofLags n w r).full = true ↔ w.now = r.seen + 2 ^ n := by
  rw [← h.full_iff (Nat.two_pow_pos n)]
  exact fullFlag_iff hn r.seen w.now

theorem empty_ofLags (hn : 0 < n) (h : Safe (2 ^ n) w r) :
    (Ctrl.ofLags n w r).empty = true ↔ r.now = w.seen := by
  rw [← h.empty_iff (Nat.two_pow_pos n)]
  exact emptyFlag_iff hn w.seen r.now

/-- While the full flag is clear, a slot is free. -/
theorem lt_of_not_full (hn : 0 < n) (h : Safe (2 ^ n) w r)
    (hfull : (Ctrl.ofLags n w r).full = false) : w.now < r.now + 2 ^ n := by
  have hne : w.now ≠ r.seen + 2 ^ n := by
    intro heq
    simp [(full_ofLags hn h).mpr heq] at hfull
  have := h.written
  have := h.readSeen
  omega

/-- While the empty flag is clear, the reader has seen a word that waits. -/
theorem lt_of_not_empty (hn : 0 < n) (h : Safe (2 ^ n) w r)
    (hempty : (Ctrl.ofLags n w r).empty = false) : r.now < w.seen := by
  have hne : r.now ≠ w.seen := by
    intro heq
    simp [(empty_ofLags hn h).mpr heq] at hempty
  exact lt_of_le_of_ne h.read hne

/-- An accepted write takes the slot under the write pointer. -/
theorem mem_writeOut {i : CtrlIn} {a : BitVec n} (ha : a ∈ (Ctrl.ofLags n w r).writeOut i) :
    a = slot n w.now ∧ (Ctrl.ofLags n w r).full = false := by
  have haddr : (Ctrl.ofLags n w r).wAddr = slot n w.now := addrAll_ptr w.now
  unfold Ctrl.writeOut at ha
  cases hw : i.clkw with
  | none => simp [hw] at ha
  | some p => grind [Ctrl.writes]

/-- An accepted read takes the slot under the read pointer. -/
theorem mem_readOut {i : CtrlIn} {a : BitVec n} (ha : a ∈ (Ctrl.ofLags n w r).readOut i) :
    a = slot n r.now ∧ (Ctrl.ofLags n w r).empty = false := by
  have haddr : (Ctrl.ofLags n w r).rAddr = slot n r.now := addrAll_ptr r.now
  unfold Ctrl.readOut at ha
  cases hr : i.clkr with
  | none => simp [hr] at ha
  | some p => grind [Ctrl.reads]

/-- One event on the registers is one event on the counters. -/
theorem step_ofLags {i : CtrlIn} (hi : i.Running) :
    (Ctrl.ofLags n w r).step i =
      .ofLags n ((Ctrl.ofLags n w r).wrLag i w) ((Ctrl.ofLags n w r).rdLag i r) := by
  obtain ⟨hiw, hir⟩ := hi
  have hcount : ∀ (go : Bool) (k : ℕ),
      (if go then gray1 (ptr n k) else ptr n k) = ptr n (k + go.toNat) := by
    intro go k
    cases go with
    | false => rfl
    | true => exact gray1_ptr k
  have hwr : i.clkw.elim (Ctrl.ofLags n w r).wr (Ctrl.ofLags n w r).wrEdge =
      (Ctrl.ofLags n ((Ctrl.ofLags n w r).wrLag i w) r).wr := by
    cases hw : i.clkw with
    | none => simp [Ctrl.wrLag, hw, Ctrl.ofLags]
    | some p =>
      have hp := hiw p hw
      simp [Ctrl.wrEdge, Ctrl.wrLag, hw, hp, Ctrl.ofLags, Lag.tick, NSync.next, ← hcount]
  have hrd : i.clkr.elim (Ctrl.ofLags n w r).rd (Ctrl.ofLags n w r).rdEdge =
      (Ctrl.ofLags n w ((Ctrl.ofLags n w r).rdLag i r)).rd := by
    cases hr : i.clkr with
    | none => simp [Ctrl.rdLag, hr, Ctrl.ofLags]
    | some p =>
      have hp := hir p hr
      simp [Ctrl.rdEdge, Ctrl.rdLag, hr, hp, Ctrl.ofLags, Lag.tick, NSync.next, ← hcount]
  rw [Ctrl.step, hwr, hrd]
  rfl

theorem safe_step (hn : 0 < n) (h : Safe (2 ^ n) w r) (i : CtrlIn) :
    Safe (2 ^ n) ((Ctrl.ofLags n w r).wrLag i w) ((Ctrl.ofLags n w r).rdLag i r) := by
  refine h.move ?_ ?_
  · unfold Ctrl.wrLag
    cases i.clkw with
    | none => exact .inl rfl
    | some p =>
      refine .inr ⟨_, rfl, fun hgo => ?_⟩
      rw [← full_ofLags hn h]
      grind [Ctrl.writes]
  · unfold Ctrl.rdLag
    cases i.clkr with
    | none => exact .inl rfl
    | some p =>
      refine .inr ⟨_, rfl, fun hgo => ?_⟩
      rw [← empty_ofLags hn h]
      grind [Ctrl.reads]

/-- The accesses so far, and those of an event. -/
theorem slots_append_writeOut (i : CtrlIn) :
    (List.range w.now).map (slot n) ++ (Ctrl.ofLags n w r).writeOut i =
      (List.range ((Ctrl.ofLags n w r).wrLag i w).now).map (slot n) := by
  unfold Ctrl.writeOut Ctrl.wrLag
  cases i.clkw with
  | none => simp
  | some p =>
    have haddr : (Ctrl.ofLags n w r).wAddr = slot n w.now := addrAll_ptr w.now
    cases hgo : (Ctrl.ofLags n w r).writes p <;> simp [Lag.tick, hgo, haddr, List.range_succ]

theorem slots_append_readOut (i : CtrlIn) :
    (List.range r.now).map (slot n) ++ (Ctrl.ofLags n w r).readOut i =
      (List.range ((Ctrl.ofLags n w r).rdLag i r).now).map (slot n) := by
  unfold Ctrl.readOut Ctrl.rdLag
  cases i.clkr with
  | none => simp
  | some p =>
    have haddr : (Ctrl.ofLags n w r).rAddr = slot n r.now := addrAll_ptr r.now
    cases hgo : (Ctrl.ofLags n w r).reads p <;> simp [Lag.tick, hgo, haddr, List.range_succ]

end Mirror

/-- After a run the registers mirror counters in safe order, which number the accesses. -/
def Mirrored (n : ℕ) (is : List CtrlIn) : Prop :=
  ∃ w r, Safe (2 ^ n) w r ∧ Ctrl.after n is = .ofLags n w r ∧
    written n is = (List.range w.now).map (slot n) ∧
    readBack n is = (List.range r.now).map (slot n)

theorem mirrored_after (hn : 0 < n) {is : List CtrlIn} (h : ∀ i ∈ is, i.Running) :
    Mirrored n is := by
  have halong := along_of_forall Ctrl.step (Ctrl.reset n) h
  refine halong.induction_on_past (P := Mirrored n)
    ⟨_, _, safe_zero _, Ctrl.reset_eq n, rfl, rfl⟩ ?_
  rintro js i - ⟨w, r, hsafe, hafter, hwritten, hread⟩ hi
  have hrun : run Ctrl.step (Ctrl.reset n) js = .ofLags n w r := hafter
  refine ⟨_, _, safe_step hn hsafe i, ?_, ?_, ?_⟩
  · rw [Ctrl.after, run_append, hrun]
    exact step_ofLags hi
  · rw [← slots_append_writeOut, ← hwritten]
    simp [written, hrun]
  · rw [← slots_append_readOut, ← hread]
    simp [readBack, hrun]

/-- Slots of accesses less than `2 ^ n` apart are different. -/
theorem slot_ne {a b : ℕ} (hab : a < b) (hlt : b < a + 2 ^ n) : slot n b ≠ slot n a := by
  intro h
  have := eq_of_mod_eq hab.le hlt (slot_eq_iff.mp h).symm
  omega

/-- The controller is safe in every run, whatever the order of the clock edges. -/
theorem ctrlLaw (n : ℕ) (hn : 2 ≤ n) (is : List CtrlIn) (h : ∀ i ∈ is, i.Running) :
    CtrlLaw n is := by
  have hn : 0 < n := by omega
  obtain ⟨w, r, hsafe, hafter, hwritten, hread⟩ := mirrored_after hn h
  have hlenw : (written n is).length = w.now := by simp [hwritten]
  have hlenr : (readBack n is).length = r.now := by simp [hread]
  have hle := hsafe.read_le_written
  refine ⟨by omega, ?_, ?_, ?_, ?_, ?_, ?_⟩
  · rw [hlenw, hlenr]
    exact hsafe.written_le
  · intro hfull
    rw [hafter, full_ofLags hn hsafe]
    exact hsafe.full (by omega)
  · intro hempty
    rw [hafter, empty_ofLags hn hsafe]
    exact hsafe.empty (by omega)
  · obtain ⟨k, hk⟩ := Nat.exists_eq_add_of_le hle
    rw [hwritten, hread, hk, List.range_add, List.map_append]
    exact List.prefix_append _ _
  · intro i a ha hmem
    rw [hafter] at ha
    obtain ⟨rfl, hnotfull⟩ := mem_writeOut ha
    have hfree := lt_of_not_full hn hsafe hnotfull
    rw [hwritten, hlenr, ← List.map_drop, List.mem_map] at hmem
    obtain ⟨k, hk, hslot⟩ := hmem
    obtain ⟨j, hj, rfl⟩ := List.mem_iff_getElem.mp hk
    rw [List.getElem_drop, List.getElem_range] at hslot
    simp only [List.length_drop, List.length_range] at hj
    exact slot_ne (by omega) (by omega) hslot.symm
  · intro i a ha
    rw [hafter] at ha
    obtain ⟨rfl, hnotempty⟩ := mem_readOut ha
    have hseen := lt_of_not_empty hn hsafe hnotempty
    have hlt : r.now < w.now :=
      Nat.lt_of_lt_of_le hseen hsafe.writtenSeen
    rw [hwritten, hlenr, List.getElem?_map, List.getElem?_range hlt]
    rfl

/-- The four slots of a small FIFO are filled, then both clocks run. -/
def fillAndDrain : List CtrlIn :=
  List.replicate 6 ⟨some ⟨true, true⟩, none⟩ ++
    List.replicate 8 ⟨some ⟨true, true⟩, some ⟨true, true⟩⟩

theorem ctrlLaw_fillAndDrain :
    (written 2 fillAndDrain).length = 8 ∧ CtrlLaw 2 fillAndDrain :=
  ⟨by decide +kernel, ctrlLaw 2 (by decide) fillAndDrain (by decide)⟩

end LagoEcosystem.AxisFifo
