import LagoEcosystem.Avgr.Core
import LagoEcosystem.Averager.Sweeps

/-!
# What the scope mode adds up

The read port answers one cycle after its address, and nothing delays the sample that is
added to the answer. In the first cycle after a trigger the answer is word 0, which has been
addressed while the trigger was waited for, and from then on it is the word before the one
that is written. So every sum moves up by one word at each trigger: word `a` collects word
`a - d` of a trigger that `d` others follow.
-/

namespace LagoEcosystem.Avgr

open Averager Acquisition BitFields Clocked

variable {g : Generics}

/-- The settings of the scope mode: a power of two of samples, at least a word and at most half
of the memory, and at least one trigger. -/
structure Settings where
  nsamples : BitVec 32
  naverages : BitVec 32
  deriving DecidableEq

def In.settings (i : In) : Settings := ⟨i.nsamples, i.naverages⟩

def Settings.words (c : Settings) : ℕ := c.nsamples.toNat / ratio

structure Settings.Valid (g : Generics) (c : Settings) : Prop where
  power : ∃ k < 32, c.nsamples.toNat = 2 ^ k
  pos : ratio ≤ c.nsamples.toNat
  half : 2 * c.nsamples.toNat ≤ g.memDepth
  average : 1 ≤ c.naverages.toNat

instance (c : Settings) : Decidable (c.Valid g) :=
  decidable_of_iff ((∃ k < 32, c.nsamples.toNat = 2 ^ k) ∧ ratio ≤ c.nsamples.toNat ∧
      2 * c.nsamples.toNat ≤ g.memDepth ∧ 1 ≤ c.naverages.toNat)
    ⟨fun ⟨h1, h2, h3, h4⟩ => ⟨h1, h2, h3, h4⟩, fun ⟨h1, h2, h3, h4⟩ => ⟨h1, h2, h3, h4⟩⟩

variable {c : Settings} {s : St g} {i : In} {sw done : List (List Word)} {cur : List Word}

theorem Settings.Valid.words_pos (hc : c.Valid g) : 1 ≤ c.words :=
  (Nat.one_le_div_iff (by decide)).mpr hc.pos

/-- All addresses of a measuring phase are addresses of the memory. -/
theorem Settings.Valid.words_lt (hc : c.Valid g) : c.words < 2 ^ g.awidth := by
  have hpos := hc.words_pos
  have hle := (Cores.log2c_spec (g.memDepth / ratio)).1
  have htwice : 2 * c.words ≤ g.memDepth / ratio := by
    have hhalf := hc.half
    simp only [Settings.words, ratio] at *
    omega
  rw [Generics.awidth]
  omega

/-! ## Sums -/

/-- Lane `I` of word `a`. -/
def wordLane (I : Fin 8) (a : ℕ) (words : List Word) : BitVec 16 := (words[a]?.map (lane I)).getD 0

/-- Lane `I` of word `a`, summed over the triggers. -/
def aligned (I : Fin 8) (a : ℕ) (sw : List (List Word)) : BitVec 16 := (sw.map (wordLane I a)).sum

/-- The same sum with every trigger moved up by a word for each trigger after it. -/
def skewed (I : Fin 8) (a : ℕ) (sw : List (List Word)) : BitVec 16 :=
  (sw.reverse.mapIdx fun d words => wordLane I (a - d) words).sum

theorem skewed_snoc (I : Fin 8) (a : ℕ) (done : List (List Word)) (cur : List Word) :
    skewed I a (done ++ [cur]) = wordLane I a cur + skewed I (a - 1) done := by
  have hshift : (fun d words => wordLane I (a - (d + 1)) words) =
      fun d words => wordLane I (a - 1 - d) words := by
    funext d words
    rw [Nat.sub_sub, Nat.add_comm d 1]
  rw [skewed, skewed, List.reverse_append, List.reverse_singleton, List.singleton_append,
    List.mapIdx_cons, List.sum_cons, Nat.sub_zero, hshift]

theorem wordLane_snoc_of_lt (I : Fin 8) {a : ℕ} (h : a < cur.length) (x : Word) :
    wordLane I a (cur ++ [x]) = wordLane I a cur := by
  rw [wordLane, wordLane, List.getElem?_append_left h]

theorem wordLane_snoc_length (I : Fin 8) (x : Word) :
    wordLane I cur.length (cur ++ [x]) = lane I x := by
  simp [wordLane]

/-! ## The record of an acquisition -/

/-- The words after each trigger; a trigger counts in a cycle with a valid word. -/
def St.record (s : St g) (i : In) (sw : List (List Word)) : List (List Word) :=
  Averager.record (s.stateReg == .stIdle) (s.stateReg == .stWaitTrig && (i.trigI && i.sAxisTvalid))
    (s.treadyReg && i.sAxisTvalid) i.sAxisTdata sw

/-- The core as a machine that works through acquisitions. -/
def machine (g : Generics) : Machine (St g) In Settings (List (List Word)) where
  step := step
  idle s := s.stateReg == .stIdle
  settings := In.settings
  record := St.record

/-- The core after a reset. The memory may hold anything. -/
def afterReset (ram : BitVec g.awidth → Word) (doutB : Word) :
    Tracked (St g) Settings (List (List Word)) :=
  ⟨.reset ram doutB, none, []⟩

/-- A cycle of the scope mode out of reset, with a valid sample. -/
def In.Scope (i : In) : Prop := i.aresetn = true ∧ i.mode = false ∧ i.sAxisTvalid = true

instance (i : In) : Decidable i.Scope := inferInstanceAs (Decidable (_ ∧ _ ∧ _))

/-- During an acquisition the settings are valid and stay. -/
def Steady (t : Tracked (St g) Settings (List (List Word))) (i : In) : Prop :=
  i.Scope ∧ (machine g).Steady (Settings.Valid g) t i

instance (t : Tracked (St g) Settings (List (List Word))) (i : In) : Decidable (Steady t i) :=
  inferInstanceAs (Decidable (_ ∧ _))

/-! ## The invariant -/

/-- Words after a trigger. One word more is accepted than is stored. -/
def Settings.accepted (c : Settings) : ℕ := c.words + 1

/-- The memory holds the sums of the triggers. -/
def Sums (c : Settings) (ram : BitVec g.awidth → Word) (sw : List (List Word)) : Prop :=
  ∀ a, a.toNat < c.words → ∀ I, lane I (ram a) = skewed I a.toNat sw

/-- The write that is under way in a measuring or clearing phase: none in the first cycle, and
then that of the word before. -/
def Writing (s : St g) : Prop :=
  (s.addrReg = 0 ∧ s.wrenReg = false) ∨
    (s.wrenReg = true ∧ s.addrDlyReg.toNat + 1 = s.addrReg.toNat)

/-- The memory in a measuring phase, with the write under way: new sums below the address,
those of the triggers before from there on. -/
def Measuring (c : Settings) (s : St g) (done : List (List Word)) (cur : List Word) : Prop :=
  ∀ a, a.toNat < c.words → ∀ I, lane I (s.written a) =
    if a.toNat < s.addrReg.toNat then skewed I a.toNat (done ++ [cur])
    else skewed I a.toNat done

/-- What holds in each state of an acquisition with the settings `c`. -/
def Body (c : Settings) (s : St g) (sw : List (List Word)) : Prop :=
  match s.stateReg with
  | .stIdle => True
  | .stWriteZeros => sw = [] ∧ s.averagesReg = 0 ∧ s.treadyReg = false ∧ s.dataReg = 0 ∧
      s.addrReg.toNat ≤ c.words ∧ Writing s ∧ ∀ a, a.toNat < s.addrReg.toNat → s.written a = 0
  | .stWaitTrig => Counting c.accepted c.naverages s.averagesReg sw ∧ Sums c s.ram sw ∧
      s.addrReg = 0 ∧ s.wrenReg = false ∧ s.treadyReg = false
  | .stAvgScope => ∃ done cur, sw = done ++ [cur] ∧
      Counting c.accepted c.naverages s.averagesReg done ∧ s.treadyReg = true ∧
      cur.length = s.addrReg.toNat ∧ s.addrReg.toNat ≤ c.words ∧ Writing s ∧
      Measuring c s done cur ∧ ∀ I, lane I s.doutB = skewed I (s.addrReg.toNat - 1) done
  | .stFinish => Complete c.accepted sw ∧ sw.length = c.naverages.toNat ∧ Sums c s.ram sw ∧
      s.wrenReg = false ∧ s.treadyReg = false
  | .stAvgN1 | .stWriteAvg => False

/-! ## Addresses -/

theorem atEnd_iff (hi : i.settings = c) : s.atEnd i = true ↔ s.addrReg.toNat = c.words := by
  rw [St.atEnd, beq_iff_eq, ← hi]
  rfl

theorem toNat_addr_succ (hc : c.Valid g) (h : s.addrReg.toNat < c.words) :
    (s.addrReg + 1).toNat = s.addrReg.toNat + 1 :=
  toNat_add_one (Nat.lt_of_le_of_lt h hc.words_lt)

/-- The word at the read address is not the one that is being written. -/
theorem Writing.written_addr (h : Writing s) : s.written s.addrReg = s.ram s.addrReg := by
  rcases h with ⟨-, hw⟩ | ⟨hw, ha⟩
  · simp [St.written, hw]
  · have hne : s.addrReg ≠ s.addrDlyReg := by
      intro heq
      rw [heq] at ha
      omega
    simp [St.written, hw, Function.update_of_ne hne]

/-- The write that is under way after a cycle of a phase that goes on. -/
theorem writing_succ (h : (s.addrReg + 1).toNat = s.addrReg.toNat + 1) {t : St g}
    (haddr : t.addrReg = s.addrReg + 1) (hdly : t.addrDlyReg = s.addrReg)
    (hwren : t.wrenReg = true) : Writing t :=
  .inr ⟨hwren, by rw [haddr, hdly, h]⟩

/-! ## One edge -/

theorem record_eq_self (hidle : s.stateReg ≠ .stIdle)
    (htrig : s.stateReg = .stWaitTrig → (i.trigI && i.sAxisTvalid) = false)
    (hready : s.treadyReg = false) : s.record i sw = sw := by
  by_cases hw : s.stateReg = .stWaitTrig
  · rw [St.record, htrig hw, hready, hw]
    rfl
  · simp [St.record, record, hidle, hw, hready]

theorem body_idle (hst : s.stateReg = .stIdle) : Body c (s.next i) (s.record i sw) := by
  have hrec : s.record i sw = [] := by simp [St.record, record, hst]
  rw [hrec, next_stIdle hst]
  cases i.start with
  | false => trivial
  | true =>
    refine ⟨rfl, rfl, rfl, rfl, Nat.zero_le _, .inl ⟨rfl, rfl⟩, ?_⟩
    intro a ha
    exact absurd ha (Nat.not_lt_zero _)

theorem body_writeZeros (hc : c.Valid g) (hi : i.settings = c) (hst : s.stateReg = .stWriteZeros)
    (h : Body c s sw) : Body c (s.next i) (s.record i sw) := by
  simp only [Body, hst] at h
  obtain ⟨rfl, havg, hready, hdata, haddr, hwriting, hzero⟩ := h
  rw [record_eq_self (by simp [hst]) (by simp [hst]) hready]
  by_cases hend : s.addrReg.toNat = c.words
  case pos =>
    have hcounting : Counting c.accepted c.naverages s.averagesReg [] := by
      rw [havg]
      exact counting_nil hc.average
    rw [next_stWriteZeros_end hst ((atEnd_iff hi).mpr hend)]
    refine ⟨hcounting, ?_, rfl, rfl, hready⟩
    intro a ha I
    show lane I (s.written a) = skewed I a.toNat []
    rw [hzero a (by omega), lane_zero]
    rfl
  case neg =>
    have hsucc := toNat_addr_succ hc (s := s) (by omega)
    rw [next_stWriteZeros hst (by simpa using mt (atEnd_iff hi).mp hend)]
    refine ⟨rfl, havg, hready, hdata, ?_, writing_succ hsucc rfl rfl rfl, ?_⟩
    · show (s.addrReg + 1).toNat ≤ c.words
      omega
    · intro a ha
      show Function.update s.written s.addrReg s.dataReg a = 0
      have hlt : a.toNat < (s.addrReg + 1).toNat := ha
      rw [hdata]
      exact update_clears fun hne => hzero a (by omega)

theorem body_waitTrig (hc : c.Valid g) (hmode : i.mode = false) (hst : s.stateReg = .stWaitTrig)
    (h : Body c s sw) : Body c (s.next i) (s.record i sw) := by
  simp only [Body, hst] at h
  obtain ⟨hcounting, hsums, haddr, hwren, hready⟩ := h
  have hwritten : s.written = s.ram := by simp [St.written, hwren]
  cases hgo : i.trigI && i.sAxisTvalid with
  | false =>
    rw [record_eq_self (by simp [hst]) (fun _ => hgo) hready, next_stWaitTrig_wait hst hgo]
    refine ⟨hcounting, ?_, haddr, hwren, hready⟩
    show Sums c s.written sw
    rw [hwritten]
    exact hsums
  | true =>
    have hrec : s.record i sw = sw ++ [[]] := by
      rw [St.record, hgo, hst]
      rfl
    rw [hrec, next_stWaitTrig hst hgo, hmode]
    have hzero : s.addrReg.toNat = 0 := by
      rw [haddr]
      rfl
    refine ⟨sw, [], rfl, hcounting, rfl, hzero.symm, ?_, .inl ⟨haddr, hwren⟩, ?_, ?_⟩
    · show s.addrReg.toNat ≤ c.words
      omega
    · intro a ha I
      simpa [St.written, St.tick, hwren, hzero] using hsums a ha I
    · intro I
      show lane I (s.ram s.addrReg) = skewed I (s.addrReg.toNat - 1) sw
      rw [hsums s.addrReg (by have := hc.words_pos; omega) I, hzero]

/-- The sum that is written next: what the read port shows, which belongs to the word before,
and the sample of the word itself. -/
theorem lane_assign {x : Word} (hdout : ∀ I, lane I s.doutB = skewed I (cur.length - 1) done)
    (I : Fin 8) : lane I (assign s.doutB x) = skewed I cur.length (done ++ [cur ++ [x]]) := by
  rw [assign, lane_ofLanes, hdout I, skewed_snoc, wordLane_snoc_length, add_comm]

/-- A word more does not change the sums of the words below it. -/
theorem skewed_snoc_of_lt (I : Fin 8) {a : ℕ} (h : a < cur.length) (x : Word) :
    skewed I a (done ++ [cur ++ [x]]) = skewed I a (done ++ [cur]) := by
  rw [skewed_snoc, skewed_snoc, wordLane_snoc_of_lt I h]

theorem body_scope_last (hi : i.settings = c) (hst : s.stateReg = .stAvgScope)
    (hend : s.addrReg.toNat = c.words)
    (hcounting : Counting c.accepted c.naverages s.averagesReg done)
    (hlen : cur.length = s.addrReg.toNat) (hmeasuring : Measuring c s done cur) :
    Body c (s.next i) (done ++ [cur ++ [i.sAxisTdata]]) := by
  have hcur : (cur ++ [i.sAxisTdata]).length = c.accepted := by
    rw [List.length_append, hlen, hend]
    rfl
  have hsums : Sums c s.written (done ++ [cur ++ [i.sAxisTdata]]) := by
    intro a ha I
    rw [hmeasuring a ha I, if_pos (by omega), skewed_snoc_of_lt I (by omega)]
  have hlast : s.atLastTrig i = true ↔ done.length + 1 = c.naverages.toNat := by
    rw [St.atLastTrig, ← hcounting.last_iff, ← hi]
    rfl
  rw [next_stAvgScope_end hst ((atEnd_iff hi).mpr hend)]
  by_cases hall : done.length + 1 = c.naverages.toNat
  · rw [if_pos (hlast.mpr hall)]
    obtain ⟨hcomplete, hsweeps⟩ := hcounting.finish hcur hall
    exact ⟨hcomplete, hsweeps, hsums, rfl, rfl⟩
  · rw [if_neg (mt hlast.mp hall)]
    exact ⟨hcounting.snoc hcur hall, hsums, rfl, rfl, rfl⟩

theorem body_scope (hc : c.Valid g) (hi : i.settings = c) (hv : i.sAxisTvalid = true)
    (hst : s.stateReg = .stAvgScope) (h : Body c s sw) :
    Body c (s.next i) (s.record i sw) := by
  simp only [Body, hst] at h
  obtain ⟨done, cur, rfl, hcounting, hready, hlen, hle, hwriting, hmeasuring, hdout⟩ := h
  have hrec : s.record i (done ++ [cur]) = done ++ [cur ++ [i.sAxisTdata]] := by
    simp [St.record, record, hst, hready, hv]
  rw [hrec]
  by_cases hend : s.addrReg.toNat = c.words
  · exact body_scope_last hi hst hend hcounting hlen hmeasuring
  have hsucc := toNat_addr_succ hc (s := s) (by omega)
  have hnew : (cur ++ [i.sAxisTdata]).length = s.addrReg.toNat + 1 := by
    rw [List.length_append, hlen]
    rfl
  rw [next_stAvgScope hst (by simpa using mt (atEnd_iff hi).mp hend)]
  refine ⟨done, _, rfl, hcounting, hready, ?_, ?_, writing_succ hsucc rfl rfl rfl,
    ?_, ?_⟩
  · show (cur ++ [i.sAxisTdata]).length = (s.addrReg + 1).toNat
    rw [hnew, hsucc]
  · show (s.addrReg + 1).toNat ≤ c.words
    omega
  · intro a ha I
    show lane I (Function.update s.written s.addrReg (assign s.doutB i.sAxisTdata) a) =
      if a.toNat < (s.addrReg + 1).toNat then _ else _
    rw [hsucc]
    by_cases heq : a = s.addrReg
    · rw [heq, Function.update_self, if_pos (Nat.lt_succ_self _), ← hlen]
      exact lane_assign (fun I => by rw [hdout I, hlen]) I
    · have hne : a.toNat ≠ s.addrReg.toNat := fun h => heq (BitVec.eq_of_toNat_eq h)
      rw [Function.update_of_ne heq, hmeasuring a ha I]
      by_cases hlt : a.toNat < s.addrReg.toNat
      · rw [if_pos hlt, if_pos (by omega), skewed_snoc_of_lt I (by omega)]
      · rw [if_neg hlt, if_neg (by omega)]
  · intro I
    show lane I (s.ram s.addrReg) = skewed I ((s.addrReg + 1).toNat - 1) done
    rw [hsucc, Nat.add_sub_cancel, ← hwriting.written_addr, hmeasuring s.addrReg (by omega) I,
      if_neg (Nat.lt_irrefl _)]

theorem body_finish (hst : s.stateReg = .stFinish) (h : Body c s sw) :
    Body c (s.next i) (s.record i sw) := by
  simp only [Body, hst] at h
  obtain ⟨hcomplete, hlen, hsums, hwren, hready⟩ := h
  have hwritten : s.written = s.ram := by simp [St.written, hwren]
  rw [record_eq_self (by simp [hst]) (by simp [hst]) hready, next_stFinish hst]
  cases i.restart with
  | true => trivial
  | false =>
    refine ⟨hcomplete, hlen, ?_, hwren, hready⟩
    show Sums c s.written sw
    rw [hwritten]
    exact hsums

/-- Every edge of an acquisition in the scope mode keeps its invariant. -/
theorem body_next (hc : c.Valid g) (hmode : i.mode = false) (hv : i.sAxisTvalid = true)
    (hi : s.stateReg ≠ .stIdle → i.settings = c) (h : Body c s sw) :
    Body c (s.next i) (s.record i sw) := by
  cases hst : s.stateReg with
  | stIdle => exact body_idle hst
  | stWriteZeros => exact body_writeZeros hc (hi (by simp [hst])) hst h
  | stWaitTrig => exact body_waitTrig hc hmode hst h
  | stAvgScope => exact body_scope hc (hi (by simp [hst])) hv hst h
  | stFinish => exact body_finish hst h
  | stAvgN1 | stWriteAvg =>
    simp only [Body, hst] at h

/-! ## Runs -/

theorem carries (g : Generics) : (machine g).Carries (Settings.Valid g) In.Scope
    (fun _ => True) Body where
  stay _ _ _ _ _ _ := trivial
  enter c s i sw _ hscope hidle _ := by
    show Body c (Avgr.step s i) (s.record i sw)
    rw [step_of_aresetn hscope.1]
    exact body_idle (beq_iff_eq.mp hidle)
  next s i sw hc hscope _ h := by
    obtain ⟨hres, hmode, hv⟩ := hscope
    show Body i.settings (Avgr.step s i) (s.record i sw)
    rw [step_of_aresetn hres]
    exact body_next hc hmode hv (fun _ => rfl) h
  leave _ _ _ _ _ := trivial

theorem not_finish_of_idle (s : St g) (i : In) (hscope : i.Scope)
    (hs : (machine g).idle s = true) : ¬((machine g).step s i).stateReg = .stFinish := by
  show ¬(Avgr.step s i).stateReg = .stFinish
  rw [step_of_aresetn hscope.1, next_stIdle (beq_iff_eq.mp hs)]
  cases i.start <;> simp

theorem finish_of_body (hst : s.stateReg = .stFinish) (h : Body c s sw) :
    Complete c.accepted sw ∧ sw.length = c.naverages.toNat ∧ Sums c s.ram sw ∧ s.wrenReg = false ∧
      s.treadyReg = false := by
  simpa only [Body, hst] using h

/-- What the scope mode is to store: every word of the memory is the sum of the words of its
number. -/
def Averages (c : Settings) (ram : BitVec g.awidth → Word) (sw : List (List Word)) : Prop :=
  ∀ a, a.toNat < c.words → ∀ I, lane I (ram a) = aligned I a.toNat sw

/-- The words that arrive after the triggers cannot be told from the same words moved up by
one for each later trigger, as far as their sums go. -/
def Insensitive (c : Settings) (sw : List (List Word)) : Prop :=
  ∀ a < c.words, ∀ I, skewed I a sw = aligned I a sw

/-- In `ST_FINISH` all triggers have been added up, and the sums are right if and only if the
words that arrived hide the delay of the read port. -/
theorem averages_iff_insensitive (ram : BitVec g.awidth → Word) (doutB : Word) (is : List In)
    (h : Along (machine g).track Steady (afterReset ram doutB) is)
    (hend : (run (machine g).track (afterReset ram doutB) is).st.stateReg = .stFinish) :
    ∃ c ∈ (run (machine g).track (afterReset ram doutB) is).settings,
      (run (machine g).track (afterReset ram doutB) is).record.length = c.naverages.toNat ∧
      (Averages c (run (machine g).track (afterReset ram doutB) is).st.ram
          (run (machine g).track (afterReset ram doutB) is).record ↔
        Insensitive c (run (machine g).track (afterReset ram doutB) is).record) := by
  obtain ⟨c, hc, hvalid, hbody⟩ := (carries g).body_of_done (fun s => s.stateReg = .stFinish)
    (fun s hs => beq_eq_false_iff_ne.mpr (by simp [hs])) not_finish_of_idle rfl trivial [] h hend
  obtain ⟨-, hlen, hsums, -⟩ := finish_of_body hend hbody
  refine ⟨c, hc, hlen, ?_, ?_⟩
  · intro hright a ha I
    have hlt : a < 2 ^ g.awidth := ha.trans hvalid.words_lt
    have hval : (BitVec.ofNat g.awidth a).toNat = a := by
      rw [BitVec.toNat_ofNat, Nat.mod_eq_of_lt hlt]
    have hword := hsums (BitVec.ofNat g.awidth a) (hval.symm ▸ ha) I
    have hgoal := hright (BitVec.ofNat g.awidth a) (hval.symm ▸ ha) I
    rw [hval] at hword hgoal
    exact hword.symm.trans hgoal
  · intro hsame a ha I
    exact (hsums a ha I).trans (hsame a.toNat ha I)

/-- One trigger does not show the delay. -/
theorem insensitive_single (c : Settings) (words : List Word) : Insensitive c [words] := by
  intro a _ I
  simp [skewed, aligned]

/-! A cycle of an acquisition of two triggers with two words of the memory each. -/

def scopeCycle (start trig : Bool) (x : Word) : In :=
  ⟨true, start, false, false, trig, 16, 2, true, x⟩

/-- The first word after the first trigger is 1 in its last lane, all others are 0. -/
def twoSweeps : List In :=
  [scopeCycle true false 0,
   scopeCycle false false 0, scopeCycle false false 0, scopeCycle false false 0,
   scopeCycle false true 0, scopeCycle false false 1, scopeCycle false false 0,
   scopeCycle false false 0,
   scopeCycle false true 0, scopeCycle false false 0, scopeCycle false false 0,
   scopeCycle false false 0]

/-- The core after them, with a memory of 32 samples. -/
def afterTwoSweeps : Tracked (St ⟨32⟩) Settings (List (List Word)) :=
  run (machine ⟨32⟩).track (afterReset (fun _ => 0) 0) twoSweeps

theorem averages_iff_insensitive_twoSweeps :
    ∃ c ∈ afterTwoSweeps.settings, afterTwoSweeps.record.length = c.naverages.toNat ∧
      (Averages c afterTwoSweeps.st.ram afterTwoSweeps.record ↔
        Insensitive c afterTwoSweeps.record) :=
  averages_iff_insensitive (fun _ => 0) 0 twoSweeps (by decide +kernel) (by decide +kernel)

/-- The 1 of word 0 is found in word 1, too. -/
theorem averages_twoSweeps_wrong :
    Along (machine ⟨32⟩).track Steady (afterReset (fun _ => 0) 0) twoSweeps ∧
      afterTwoSweeps.st.stateReg = .stFinish ∧ afterTwoSweeps.settings = some ⟨16, 2⟩ ∧
      ¬Averages ⟨16, 2⟩ afterTwoSweeps.st.ram afterTwoSweeps.record := by
  refine ⟨by decide +kernel, by decide +kernel, by decide +kernel, fun h => ?_⟩
  exact absurd (h 1 (by decide +kernel) 7) (by decide +kernel)

end LagoEcosystem.Avgr
