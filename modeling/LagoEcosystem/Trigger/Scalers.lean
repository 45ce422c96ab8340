import LagoEcosystem.Trigger.Decision

/-!
# Scalers and rates

A channel counts its trigger flags and ticks once it has counted as many as its scaler
says; the ticks are triggers, and a rate counter counts them from one PPS pulse to the
next. In both counters counting goes before clearing. The scaler gets away with it, since
two flags are never next to each other: the sample that raised the first has become one of
the nine that must be below the level. The rate counter does not.
-/

namespace LagoEcosystem.Trigger

open BitFields Clocked ShiftRegister

variable {g : Generics}

/-! ## Flags keep their distance -/

/-- A flag is not followed by another one at the same level. -/
theorem fires_shift {dat : Fin g.dataArrayLength → BitVec 16} {lvl : BitVec 16}
    (h : fires dat lvl = true) (x : BitVec 16) : fires (shift x dat) lvl = false := by
  have hreaches := g.reaches
  have hreached : (magnitude lvl).sle (magnitude (dat (g.bin 10))) = true := by
    simp only [fires, Bool.and_eq_true] at h
    exact h.1.2
  have hmoved : shift x dat (g.bin 9) = dat (g.bin 10) :=
    shift_of_lt x dat (k := g.bin 9) (by simp [Generics.bin]; omega)
  by_contra hfires
  simp only [fires, Bool.not_eq_false, Bool.and_eq_true, List.all_eq_true] at hfires
  have hbelow := hfires.2 9 (by decide)
  rw [hmoved, BitVec.slt_iff_toInt_lt] at hbelow
  rw [BitVec.sle_iff_toInt_le] at hreached
  omega

theorem Channel.tr_next_of_tr {ch : Channel} {s : St g} {i j : In} (h : ch.tr s i = true)
    (hlvl : ch.lvlI j = ch.lvlI i) : ch.tr (s.next i) j = false := by
  rw [ch.tr_eq] at h
  rw [ch.tr_eq, ch.adcDatReg_next, hlvl]
  exact fires_shift h _

/-! ## Prescaling -/

/-- A cycle outside reset with the settings of the channel. -/
structure Channel.Set (ch : Channel) (lvl : BitVec 16) (scaler : BitVec 32) (i : In) : Prop where
  running : i.aresetn = true
  lvl_eq : ch.lvlI i = lvl
  scaler_eq : ch.scalerI i = scaler

/-- After `flags` flags and `ticks` ticks. A full count has just counted a flag. -/
structure Channel.Prescaled (ch : Channel) (lvl : BitVec 16) (scaler : BitVec 32) (s : St g)
    (flags ticks : ℕ) : Prop where
  account : (ch.scalerCntReg s).toNat + scaler.toNat * ticks = flags
  le : (ch.scalerCntReg s).toNat ≤ scaler.toNat
  full : ch.scalerCntReg s = scaler → ∀ i, ch.lvlI i = lvl → ch.tr s i = false

section Prescaled

variable {ch : Channel} {lvl : BitVec 16} {scaler : BitVec 32} {s : St g} {flags ticks : ℕ}

theorem Channel.prescaled_reset (hscaler : 1 ≤ scaler.toNat) :
    ch.Prescaled lvl scaler (St.reset g) 0 0 := by
  have hzero : ch.scalerCntReg (St.reset g) = 0 := by cases ch <;> rfl
  refine ⟨by simp [hzero], by simp [hzero], fun hfull => ?_⟩
  rw [hzero] at hfull
  simp [← hfull] at hscaler

theorem Channel.maxTick_eq_true_iff {i : In} (hi : ch.Set lvl scaler i) :
    ch.maxTick s i = true ↔ ch.scalerCntReg s = scaler := by
  simp [Channel.maxTick, scalerMaxTick, hi.scaler_eq]

/-- No flag meets a tick, so the tick clears the count. -/
theorem Channel.Prescaled.clear (h : ch.Prescaled lvl scaler s flags ticks) {i : In}
    (hi : ch.Set lvl scaler i) (hfull : ch.scalerCntReg s = scaler) :
    ch.tr s i = false ∧ ch.scalerCntReg (s.next i) = 0 := by
  have htr : ch.tr s i = false := h.full hfull i hi.lvl_eq
  refine ⟨htr, ?_⟩
  rw [ch.scalerCntReg_next, scalerCntNext, hi.scaler_eq, htr]
  simp [hfull]

theorem Channel.Prescaled.full_or_lt (h : ch.Prescaled lvl scaler s flags ticks) {i : In}
    (hi : ch.Set lvl scaler i) :
    (ch.scalerCntReg s = scaler ∧ ch.maxTick s i = true) ∨
      ((ch.scalerCntReg s).toNat < scaler.toNat ∧ ch.maxTick s i = false) := by
  have htick := Channel.maxTick_eq_true_iff (s := s) hi
  by_cases hfull : ch.scalerCntReg s = scaler
  · exact .inl ⟨hfull, htick.mpr hfull⟩
  · have hlt := lt_of_le_of_ne h.le fun heq => hfull (BitVec.eq_of_toNat_eq heq)
    exact .inr ⟨hlt, Bool.eq_false_iff.mpr (mt htick.mp hfull)⟩

/-- The ticks up to this cycle are the flags before it divided by the scaler. -/
theorem Channel.Prescaled.ticks_eq (h : ch.Prescaled lvl scaler s flags ticks)
    (hscaler : 1 ≤ scaler.toNat) {i : In} (hi : ch.Set lvl scaler i) :
    ticks + (ch.maxTick s i).toNat = flags / scaler.toNat := by
  have haccount := h.account
  rcases h.full_or_lt hi with ⟨hfull, htick⟩ | ⟨hlt, htick⟩
  · rw [htick, ← haccount, hfull, Nat.add_comm scaler.toNat, ← Nat.mul_succ,
      Nat.mul_div_cancel_left _ hscaler]
    rfl
  · rw [htick, ← haccount, Nat.add_mul_div_left _ _ hscaler, Nat.div_eq_of_lt hlt, Nat.zero_add]
    rfl

/-- A tick clears the count. -/
theorem Channel.Prescaled.next_of_full (h : ch.Prescaled lvl scaler s flags ticks)
    (hscaler : 1 ≤ scaler.toNat) {i : In} (hi : ch.Set lvl scaler i)
    (hfull : ch.scalerCntReg s = scaler) :
    ch.Prescaled lvl scaler (s.next i) (flags + (ch.tr s i).toNat) (ticks + 1) := by
  obtain ⟨htr, hzero⟩ := h.clear hi hfull
  have haccount := h.account
  have hempty : (0 : BitVec 32).toNat = 0 := rfl
  rw [hfull] at haccount
  refine ⟨?_, by simp [hzero], fun hfull' => ?_⟩
  · rw [hzero, htr, hempty, Nat.mul_succ]
    simp only [Bool.toNat_false]
    omega
  · rw [hzero] at hfull'
    simp [← hfull'] at hscaler

/-- Below the scaler a flag is counted. -/
theorem Channel.Prescaled.next_of_lt (h : ch.Prescaled lvl scaler s flags ticks) {i : In}
    (hi : ch.Set lvl scaler i) (hlt : (ch.scalerCntReg s).toNat < scaler.toNat) :
    ch.Prescaled lvl scaler (s.next i) (flags + (ch.tr s i).toNat) ticks := by
  have haccount := h.account
  have hfull : ch.scalerCntReg s ≠ scaler := fun heq => hlt.ne (congrArg BitVec.toNat heq)
  have hcnt := ch.scalerCntReg_next s i
  rw [hi.scaler_eq, scalerCntNext] at hcnt
  cases htr : ch.tr s i with
  | false =>
    have hsame : ch.scalerCntReg (s.next i) = ch.scalerCntReg s := by simpa [htr, hfull] using hcnt
    refine ⟨by simpa [hsame] using haccount, hsame ▸ h.le, fun hfull' => ?_⟩
    exact absurd (hsame ▸ hfull') hfull
  | true =>
    have hnext : ch.scalerCntReg (s.next i) = ch.scalerCntReg s + 1 := by simpa [htr] using hcnt
    have hsucc : (ch.scalerCntReg s + 1).toNat = (ch.scalerCntReg s).toNat + 1 :=
      toNat_add_one (by have := scaler.isLt; omega)
    refine ⟨?_, by rw [hnext, hsucc]; omega, fun _ j hj => ?_⟩
    · rw [hnext, hsucc]
      simp only [Bool.toNat_true]
      omega
    · exact ch.tr_next_of_tr htr (hj.trans hi.lvl_eq.symm)

theorem Channel.Prescaled.step (h : ch.Prescaled lvl scaler s flags ticks)
    (hscaler : 1 ≤ scaler.toNat) {i : In} (hi : ch.Set lvl scaler i) :
    ch.Prescaled lvl scaler (Trigger.step s i) (flags + (ch.tr s i).toNat)
      (ticks + (ch.maxTick s i).toNat) := by
  have hstep : Trigger.step s i = s.next i := by simp [Trigger.step, hi.running]
  rw [hstep]
  rcases h.full_or_lt hi with ⟨hfull, htick⟩ | ⟨hlt, htick⟩
  · rw [htick]
    exact h.next_of_full hscaler hi hfull
  · rw [htick]
    exact h.next_of_lt hi hlt

theorem Channel.prescaled_run (hscaler : 1 ≤ scaler.toNat) {is : List In}
    (h : ∀ i ∈ is, ch.Set lvl scaler i) :
    ch.Prescaled lvl scaler (run Trigger.step (St.reset g) is)
      (tally Trigger.step ch.tr (St.reset g) is)
      (tally Trigger.step ch.maxTick (St.reset g) is) :=
  (along_of_forall Trigger.step (St.reset g) h).induction_on_past
    (P := fun js => ch.Prescaled lvl scaler (run Trigger.step (St.reset g) js)
      (tally Trigger.step ch.tr (St.reset g) js) (tally Trigger.step ch.maxTick (St.reset g) js))
    (Channel.prescaled_reset hscaler) fun js i _ hjs hi => by simpa using hjs.step hscaler hi

end Prescaled

/-- In every cycle the ticks so far are the flags before it divided by the scaler, a tick
lasts one cycle, and the count does not pass the scaler. -/
structure Channel.Prescales (g : Generics) (ch : Channel) (scaler : BitVec 32) (is : List In) :
    Prop where
  ticks : ∀ js i, js ++ [i] <+: is → tally step ch.maxTick (St.reset g) (js ++ [i]) =
    tally step ch.tr (St.reset g) js / scaler.toNat
  single : ∀ js i j, js ++ [i, j] <+: is → ch.maxTick (run step (St.reset g) js) i = true →
    ch.maxTick (run step (St.reset g) (js ++ [i])) j = false
  count_le : ∀ js, js <+: is → (ch.scalerCntReg (run step (St.reset g) js)).toNat ≤ scaler.toNat

/-- With constant settings the scaler divides by its value. -/
theorem Channel.prescales (g : Generics) (ch : Channel) {lvl : BitVec 16} {scaler : BitVec 32}
    (hscaler : 1 ≤ scaler.toNat) {is : List In} (h : ∀ i ∈ is, ch.Set lvl scaler i) :
    ch.Prescales g scaler is := by
  have hrun : ∀ js, js <+: is → ch.Prescaled lvl scaler (run step (St.reset g) js)
      (tally step ch.tr (St.reset g) js) (tally step ch.maxTick (St.reset g) js) :=
    fun js hjs => Channel.prescaled_run hscaler fun i hi => h i (hjs.subset hi)
  refine ⟨fun js i hjs => ?_, fun js i j hjs htick => ?_, fun js hjs => (hrun js hjs).le⟩
  · have hpre := hrun js ((List.prefix_append js [i]).trans hjs)
    rw [tally_append, tally_cons, tally_nil, Nat.add_zero]
    exact hpre.ticks_eq hscaler (h i (hjs.subset (by simp)))
  · have hpre := hrun js ((List.prefix_append js [i, j]).trans hjs)
    have hi : ch.Set lvl scaler i := h i (hjs.subset (by simp))
    have hj : ch.Set lvl scaler j := h j (hjs.subset (by simp))
    obtain ⟨-, hzero⟩ := hpre.clear hi ((Channel.maxTick_eq_true_iff hi).mp htick)
    rw [← Bool.not_eq_true, Channel.maxTick_eq_true_iff hj, run_append, run_cons, run_nil, step,
      if_pos hi.running, hzero]
    intro hfull
    simp [← hfull] at hscaler

/-- Two of three flags make a tick. -/
theorem Channel.prescales_threeFlags :
    Channel.a.Prescales .blockDesign 2 ((List.range 60).map (spikes [1, 14, 26] 2)) ∧
    tally step Channel.a.tr (St.reset .blockDesign)
      ((List.range 60).map (spikes [1, 14, 26] 2)) = 3 ∧
    tally step Channel.a.maxTick (St.reset .blockDesign)
      ((List.range 60).map (spikes [1, 14, 26] 2)) = 1 := by
  have hset : ∀ i ∈ (List.range 60).map (spikes [1, 14, 26] 2), Channel.a.Set 5 2 i := by
    intro i hi
    obtain ⟨n, -, rfl⟩ := List.mem_map.mp hi
    exact ⟨rfl, rfl, rfl⟩
  exact ⟨Channel.a.prescales _ (by decide) hset, by decide +kernel, by decide +kernel⟩

/-! ## Rates -/

/-- A PPS pulse and the cycles up to the next one, outside reset. -/
structure Interval where
  pulse : In
  rest : List In
  pulsed : pulse.ppsI = true
  noPulse : ∀ i ∈ rest, i.ppsI = false
  running : ∀ i ∈ pulse :: rest, i.aresetn = true

def Interval.cycles (v : Interval) : List In := v.pulse :: v.rest

/-- The state at the next pulse. -/
def interval (s : St g) (v : Interval) : St g := run step s v.cycles

/-- The rate that a pulse captures. -/
def Channel.rate : Channel → Metadata → BitVec 24
  | .a, m => m.rateA
  | .b, m => m.rateB

@[simp] theorem Channel.rate_metadata (ch : Channel) (s : St g) (i : In) :
    ch.rate (s.metadata i) = ch.rateCntReg s := by cases ch <;> rfl

/-- The rate that the pulse `next` captures at the end of an interval is the number of ticks
in it. -/
def Channel.RateKept (ch : Channel) (next : In) (s : St g) (v : Interval) : Prop :=
  ch.rate ((interval s v).metadata next) = BitVec.ofNat 24 (tally step ch.maxTick s v.cycles)

instance (ch : Channel) (next : In) (s : St g) (v : Interval) :
    Decidable (ch.RateKept next s v) := by
  unfold Channel.RateKept; infer_instance

/-- Every rate is the number of ticks in its interval, and the rates add up to the ticks of
all intervals. -/
structure Channel.RateLaw (ch : Channel) (next : In) (s : St g) (vs : List Interval) : Prop where
  each : Along interval (ch.RateKept next) s vs
  total : (collect interval (fun s v => [ch.rate ((interval s v).metadata next)]) s vs).sum =
    BitVec.ofNat 24 (tally step ch.maxTick s (vs.flatMap Interval.cycles))

/-- Between two pulses every tick is counted. -/
theorem Channel.rateCntReg_rest (ch : Channel) {s : St g} {is : List In}
    (hpps : ∀ i ∈ is, i.ppsI = false) (hrun : ∀ i ∈ is, i.aresetn = true) :
    ch.rateCntReg (run step s is) =
      ch.rateCntReg s + BitVec.ofNat 24 (tally step ch.maxTick s is) := by
  induction is generalizing s with
  | nil => simp
  | cons i is ih =>
    have hstep : step s i = s.next i := by simp [step, hrun i (by simp)]
    have hone : ch.rateCntReg (s.next i) =
        ch.rateCntReg s + BitVec.ofNat 24 (ch.maxTick s i).toNat := by
      rw [ch.rateCntReg_next, rateCntNext, hpps i (by simp)]
      cases ch.maxTick s i <;> simp
    rw [run_cons, tally_cons, ih (fun j hj => hpps j (by simp [hj])) fun j hj => hrun j (by simp [hj]),
      hstep, hone, BitVec.ofNat_add, BitVec.add_assoc]

theorem Channel.rateKept_iff (ch : Channel) (next : In) (s : St g) (v : Interval) :
    ch.RateKept next s v ↔ (ch.maxTick s v.pulse = true → ch.rateCntReg s = 0) := by
  have hstep : step s v.pulse = s.next v.pulse := by
    simp [step, v.running v.pulse (by simp)]
  have hrest := ch.rateCntReg_rest (s := step s v.pulse) v.noPulse fun i hi =>
    v.running i (by simp [hi])
  have hpulse := ch.rateCntReg_next s v.pulse
  rw [rateCntNext, v.pulsed] at hpulse
  rw [Channel.RateKept, Channel.rate_metadata, interval, Interval.cycles, run_cons, tally_cons,
    hrest, BitVec.ofNat_add, BitVec.add_left_inj, hstep, hpulse]
  -- without a tick the pulse clears the count, with one it does not
  cases ch.maxTick s v.pulse
  · simp
  · simp

theorem Channel.rates_sum {ch : Channel} {next : In} {s : St g} {vs : List Interval}
    (h : Along interval (ch.RateKept next) s vs) :
    (collect interval (fun s v => [ch.rate ((interval s v).metadata next)]) s vs).sum =
      BitVec.ofNat 24 (tally step ch.maxTick s (vs.flatMap Interval.cycles)) := by
  induction vs generalizing s with
  | nil => rfl
  | cons v vs ih =>
    obtain ⟨hv, hvs⟩ := h
    rw [collect_cons, List.flatMap_cons, tally_append, List.singleton_append, List.sum_cons,
      ih hvs, hv, BitVec.ofNat_add]
    rfl

/-- The captured rates are the ticks of their intervals if and only if no tick meets a pulse
while the rate counter is not zero. -/
theorem Channel.rateLaw_iff (ch : Channel) (lead : List In) (next : In) (vs : List Interval) :
    ch.RateLaw next (run step (St.reset g) lead) vs ↔
      Along interval (fun s v => ch.maxTick s v.pulse = true → ch.rateCntReg s = 0)
        (run step (St.reset g) lead) vs := by
  have heach : ∀ s : St g, Along interval (ch.RateKept next) s vs ↔
      Along interval (fun s v => ch.maxTick s v.pulse = true → ch.rateCntReg s = 0) s vs :=
    fun s => along_congr (P := fun _ => True) trivial (fun _ _ _ => trivial)
      (fun s v _ => ch.rateKept_iff next s v) vs
  rw [← heach]
  exact ⟨fun h => h.each, fun h => ⟨h, Channel.rates_sum h⟩⟩

/-- The cycles from `a` to `b`, in which channel A ticks in the cycles 25 and 50. -/
def twoTicks (a b : ℕ) : List In := (List.range' a (b - a)).map (spikes [1, 26] 1)

/-- A pulse in cycle `a` and the cycles up to `b`. -/
def pulseAt (a b : ℕ) : Interval where
  pulse := { spikes [1, 26] 1 a with ppsI := true }
  rest := twoTicks (a + 1) b
  pulsed := rfl
  noPulse i hi := by
    obtain ⟨n, -, rfl⟩ := List.mem_map.mp hi
    rfl
  running i hi := by
    rcases List.mem_cons.mp hi with rfl | hi
    · rfl
    · obtain ⟨n, -, rfl⟩ := List.mem_map.mp hi
      rfl

/-- The second tick falls into the cycle of the second pulse, and the first second is counted
into the next one. -/
theorem Channel.not_rateLaw_coincidence :
    ¬ Channel.a.RateLaw .quiet (run step (St.reset .blockDesign) (twoTicks 0 10))
      [pulseAt 10 50, pulseAt 50 53] := by
  intro h
  exact absurd h.each (by decide +kernel)

end LagoEcosystem.Trigger
