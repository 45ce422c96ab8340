import LagoEcosystem.Averager.Sweeps

/-!
# Acquisitions

The invariant of an acquisition, state by state, and its preservation by every clock edge.
-/

namespace LagoEcosystem.Averager

open Acquisition BitFields Clocked

variable {g : Generics} {c : Settings} {s : St g} {i : In} {sw : List (List Word)}

/-- The memory holds the sums of the sweeps. -/
def Sums (ram : Addr g → Word) (sw : List (List Word)) : Prop :=
  ∀ a I, lane I (ram a) = total I a.toNat sw

/-- What holds in each state of an acquisition with the settings `c`. -/
def Body (c : Settings) (s : St g) (sw : List (List Word)) : Prop :=
  match s.stateReg with
  | .stIdle => ∀ a, s.ram a = 0
  | .stWaitTrig => s.tdpAddraReg = 0 ∧ s.tdpAddrbReg = 0 ∧ Sums s.ram sw ∧
      Counting c.words c.naverages s.avgReg sw
  | .stEnTdpb => s.tdpAddraReg = 0 ∧ s.tdpAddrbReg = 0 ∧ Sums s.ram sw ∧
      ∃ done, sw = done ++ [[]] ∧ Counting c.words c.naverages s.avgReg done
  | .stAvgScope => s.tdpAddrbReg = s.tdpAddraReg + 1 ∧ s.bReg = s.ram s.tdpAddraReg ∧
      Sums s.ram sw ∧ ∃ done cur, sw = done ++ [cur] ∧
        Counting c.words c.naverages s.avgReg done ∧
        cur.length = s.tdpAddraReg.toNat ∧ cur.length < c.words
  | .stFinish => s.tdpAddraReg = 0 ∧ Sums s.ram sw ∧ Complete c.words sw ∧ sw.length = c.sweeps
  | .stWrZeros => s.tdpAddraReg.toNat < c.words ∧
      ∀ a, a.toNat < s.tdpAddraReg.toNat ∨ c.words ≤ a.toNat → s.ram a = 0

/-! ## Addresses -/

/-- The comparison with the last address of a sweep. -/
theorem atLast_iff (hc : c.Valid g) (hi : i.settings = c) :
    s.atLast i = true ↔ s.tdpAddraReg.toNat + 1 = c.words := by
  have hpos := Settings.words_pos hc.pos
  have hval := toNat_nsamples hi
  rw [St.atLast, beq_iff_eq, toNat_sub_one (hval ▸ hpos), hval]
  omega

/-- The address of the word after one that is not the last. -/
theorem toNat_addr_succ (hc : c.Valid g) (h : s.tdpAddraReg.toNat + 1 < c.words) :
    (s.tdpAddraReg + 1).toNat = s.tdpAddraReg.toNat + 1 :=
  toNat_add_one (Nat.lt_of_lt_of_le h hc.words_le)

/-! ## Sums -/

/-- Writing the sum of one word back adds the sample to its lanes. -/
theorem sums_write {done : List (List Word)} {cur : List Word} (h : Sums s.ram (done ++ [cur]))
    (hb : s.bReg = s.ram s.tdpAddraReg) (hlen : cur.length = s.tdpAddraReg.toNat) (i : In) :
    Sums (Function.update s.ram s.tdpAddraReg (s.summed i))
      (done ++ [cur ++ [i.sAxisTdata]]) := by
  intro a I
  have hterm := term_snoc I a.toNat cur i.sAxisTdata
  have hold := h a I
  rw [total_snoc] at hold ⊢
  rw [hterm, hlen, ← add_assoc, ← hold]
  by_cases ha : a = s.tdpAddraReg
  · subst ha
    rw [Function.update_self, if_pos rfl, St.summed, lane_ofLanes, hb]
  · have hne : a.toNat ≠ s.tdpAddraReg.toNat := fun h => ha (BitVec.eq_of_toNat_eq h)
    rw [Function.update_of_ne ha, if_neg hne, add_zero]

/-- A word beyond the sweeps is zero. -/
theorem ram_eq_zero (h : Sums s.ram sw) (hsw : Complete c.words sw) {a : Addr g}
    (ha : c.words ≤ a.toNat) : s.ram a = 0 := by
  apply ext_lanes
  intro I
  rw [h a I, lane_zero]
  exact total_eq_zero I fun w hw => by rw [hsw w hw]; exact ha

/-! ## One edge -/

/-- A cycle without a trigger that is waited for and without a handshake leaves the sweeps
as they are. -/
theorem record_eq_self (hidle : s.stateReg ≠ .stIdle)
    (htrig : s.stateReg = .stWaitTrig → i.trigI = false)
    (hvalid : s.stateReg = .stAvgScope → i.sAxisTvalid = false) : s.record i sw = sw := by
  cases hst : s.stateReg with
  | stIdle => exact absurd hst hidle
  | stWaitTrig => simp [St.record, record, hst, htrig hst, St.ctl, St.hold]
  | stAvgScope => simp [St.record, record, hst, hvalid hst]
  | stEnTdpb => cases hv : i.sAxisTvalid <;> simp [St.record, record, hst, St.ctl, hv, St.hold]
  | stFinish | stWrZeros => simp [St.record, record, hst, St.ctl, St.hold]

/-- A new sweep adds nothing yet. -/
theorem sums_newSweep {ram : Addr g → Word} (h : Sums ram sw) : Sums ram (sw ++ [[]]) := by
  intro a I
  rw [total_snoc, term_eq_zero I (by simp), add_zero]
  exact h a I

theorem body_idle (hc : c.Valid g) (hst : s.stateReg = .stIdle) (h : ∀ a, s.ram a = 0) :
    Body c (s.next i) (s.record i sw) := by
  have hrec : s.record i sw = [] := by simp [St.record, record, hst]
  rw [hrec, next_stIdle hst]
  cases hgo : i.enI && i.startI with
  | false => exact h
  | true =>
    refine ⟨rfl, rfl, fun a I => ?_, counting_nil hc.average⟩
    show lane I (s.ram a) = 0
    rw [h a, lane_zero]

theorem body_waitTrig (hst : s.stateReg = .stWaitTrig) (h : Body c s sw) :
    Body c (s.next i) (s.record i sw) := by
  simp only [Body, hst] at h
  obtain ⟨ha, hb, hsums, hcounting⟩ := h
  rw [next_stWaitTrig hst]
  cases ht : i.trigI with
  | false =>
    rw [record_eq_self (by simp [hst]) (fun _ => ht) (by simp [hst])]
    exact ⟨ha, hb, hsums, hcounting⟩
  | true =>
    have hrec : s.record i sw = sw ++ [[]] := by simp [St.record, record, hst, ht]
    rw [hrec]
    exact ⟨ha, hb, sums_newSweep hsums, sw, rfl, hcounting⟩

theorem body_enTdpb (hc : c.Valid g) (hst : s.stateReg = .stEnTdpb)
    (hv : i.sAxisTvalid = true) (h : Body c s sw) : Body c (s.next i) (s.record i sw) := by
  simp only [Body, hst] at h
  obtain ⟨ha, hb, hsums, done, hsw, hcounting⟩ := h
  rw [record_eq_self (by simp [hst]) (by simp [hst]) (by simp [hst]), next_stEnTdpb hst hv]
  refine ⟨?_, ?_, hsums, done, [], hsw, hcounting, ?_, Settings.words_pos hc.pos⟩
  · show s.tdpAddrbReg + 1 = s.tdpAddraReg + 1
    rw [ha, hb]
  · show s.ram s.tdpAddrbReg = s.ram s.tdpAddraReg
    rw [ha, hb]
  · show 0 = s.tdpAddraReg.toNat
    rw [ha]
    rfl

/-- A gap in the stream changes nothing that the invariant looks at. -/
theorem body_gap (hst : s.stateReg = .stEnTdpb ∨ s.stateReg = .stAvgScope)
    (hv : i.sAxisTvalid = false) (h : Body c s sw) : Body c (s.next i) (s.record i sw) := by
  have hrec : s.record i sw = sw :=
    record_eq_self (by grind) (by grind) (fun _ => hv)
  rw [hrec, next_of_gap hst hv]
  exact h

/-- The last word of a sweep. -/
theorem body_accept_last (hc : c.Valid g) (hi : i.settings = c) (hst : s.stateReg = .stAvgScope)
    (hv : i.sAxisTvalid = true) (hend : s.tdpAddraReg.toNat + 1 = c.words)
    {done : List (List Word)} {cur : List Word}
    (hcounting : Counting c.words c.naverages s.avgReg done)
    (hlen : cur.length = s.tdpAddraReg.toNat)
    (hsums : Sums (Function.update s.ram s.tdpAddraReg (s.summed i))
      (done ++ [cur ++ [i.sAxisTdata]])) :
    Body c (s.next i) (done ++ [cur ++ [i.sAxisTdata]]) := by
  have hcur : (cur ++ [i.sAxisTdata]).length = c.words := by
    rw [List.length_append, hlen]
    exact hend
  have hnavg : i.naveragesI = c.naverages := congrArg Settings.naverages hi
  rw [next_stAvgScope_last hst hv ((atLast_iff hc hi).mpr hend), hnavg]
  by_cases hall : done.length + 1 = c.naverages.toNat
  · rw [if_pos (hcounting.last_iff.mpr hall)]
    exact ⟨rfl, hsums, hcounting.finish hcur hall⟩
  · rw [if_neg (mt hcounting.last_iff.mp hall)]
    exact ⟨rfl, rfl, hsums, hcounting.snoc hcur hall⟩

theorem body_accept (hc : c.Valid g) (hi : i.settings = c) (hst : s.stateReg = .stAvgScope)
    (hv : i.sAxisTvalid = true) (h : Body c s sw) : Body c (s.next i) (s.record i sw) := by
  simp only [Body, hst] at h
  obtain ⟨haddrb, hbreg, hsums, done, cur, rfl, hcounting, hlen, hcur⟩ := h
  have hrec : s.record i (done ++ [cur]) = done ++ [cur ++ [i.sAxisTdata]] := by
    simp [St.record, record, hst, St.ctl, hv]
  have hwritten := sums_write hsums hbreg hlen i
  rw [hrec]
  by_cases hend : s.tdpAddraReg.toNat + 1 = c.words
  · exact body_accept_last hc hi hst hv hend hcounting hlen hwritten
  have hl : s.atLast i = false := by simpa using fun h => hend ((atLast_iff hc hi).mp h)
  -- the word read ahead is not the one being written
  have hne : s.tdpAddraReg + 1 ≠ s.tdpAddraReg := fun h =>
    toNat_add_one_ne (Nat.lt_of_lt_of_le (by decide) g.two_le_words) (congrArg BitVec.toNat h)
  have hsucc := toNat_addr_succ hc (s := s) (by omega)
  have hcur' : (cur ++ [i.sAxisTdata]).length = s.tdpAddraReg.toNat + 1 := by
    rw [List.length_append, hlen]
    rfl
  have hstate : (s.write i (s.summed i)).stateReg = .stAvgScope := hst
  rw [next_stAvgScope hst hv hl]
  simp only [Body, hstate]
  refine ⟨?_, ?_, hwritten, done, _, rfl, hcounting, ?_, by omega⟩
  · rw [haddrb]
  · show s.ram s.tdpAddrbReg = Function.update s.ram s.tdpAddraReg _ (s.tdpAddraReg + 1)
    rw [Function.update_of_ne hne, haddrb]
  · rw [hcur', hsucc]

theorem body_finish (hc : c.Valid g) (hst : s.stateReg = .stFinish) (h : Body c s sw) :
    Body c (s.next i) (s.record i sw) := by
  simp only [Body, hst] at h
  obtain ⟨haddra, hsums, hcomplete, hlen⟩ := h
  rw [record_eq_self (by simp [hst]) (by simp [hst]) (by simp [hst]), next_stFinish hst]
  cases hr : s.restartOs with
  | false => exact ⟨haddra, hsums, hcomplete, hlen⟩
  | true =>
    have hzero : s.tdpAddraReg.toNat = 0 := by
      rw [haddra]
      rfl
    refine ⟨?_, fun a ha => ?_⟩
    · show s.tdpAddraReg.toNat < c.words
      rw [hzero]
      exact Settings.words_pos hc.pos
    · rcases ha with ha | ha
      · have hlt : a.toNat < s.tdpAddraReg.toNat := ha
        omega
      · exact ram_eq_zero hsums hcomplete ha

theorem body_wrZeros (hc : c.Valid g) (hi : i.settings = c) (hst : s.stateReg = .stWrZeros)
    (h : Body c s sw) : Body c (s.next i) (s.record i sw) := by
  simp only [Body, hst] at h
  obtain ⟨hlt, hzero⟩ := h
  have hlast := atLast_iff (s := s) hc hi
  have hwritten : ∀ a : Addr g, a.toNat < s.tdpAddraReg.toNat + 1 ∨ c.words ≤ a.toNat →
      Function.update s.ram s.tdpAddraReg 0 a = 0 := by
    intro a ha
    exact update_clears fun hne => hzero a (by omega)
  rw [record_eq_self (by simp [hst]) (by simp [hst]) (by simp [hst]), next_stWrZeros hst]
  by_cases hend : s.tdpAddraReg.toNat + 1 = c.words
  · rw [if_pos (hlast.mpr hend)]
    exact fun a => hwritten a (by omega)
  · have hsucc := toNat_addr_succ hc (s := s) (by omega)
    rw [if_neg fun heq => hend (hlast.mp heq)]
    refine ⟨?_, fun a ha => hwritten a ?_⟩
    · show (s.tdpAddraReg + 1).toNat < c.words
      omega
    · rw [← hsucc]
      exact ha

/-- Every edge of an acquisition keeps its invariant. -/
theorem body_next (hc : c.Valid g) (hi : s.stateReg ≠ .stIdle → i.settings = c)
    (h : Body c s sw) : Body c (s.next i) (s.record i sw) := by
  cases hst : s.stateReg with
  | stIdle =>
    simp only [Body, hst] at h
    exact body_idle hc hst h
  | stWaitTrig => exact body_waitTrig hst h
  | stEnTdpb =>
    cases hv : i.sAxisTvalid with
    | false => exact body_gap (.inl hst) hv h
    | true => exact body_enTdpb hc hst hv h
  | stAvgScope =>
    cases hv : i.sAxisTvalid with
    | false => exact body_gap (.inr hst) hv h
    | true => exact body_accept hc (hi (by simp [hst])) hst hv h
  | stFinish => exact body_finish hc hst h
  | stWrZeros => exact body_wrZeros hc (hi (by simp [hst])) hst h

/-! ## The memory that is read out -/

theorem sampleAddr_eq_iff {a b : Addr g} {j k : Fin 8} :
    sampleAddr a j = sampleAddr b k ↔ a = b ∧ j = k := by
  refine ⟨fun h => ?_, fun ⟨ha, hj⟩ => by rw [ha, hj]⟩
  have hval := congrArg BitVec.toNat h
  simp only [sampleAddr, toNat_append, BitVec.toNat_ofFin] at hval
  have hj : (j : ℕ) < 2 ^ 3 := j.isLt
  have hk : (k : ℕ) < 2 ^ 3 := k.isLt
  refine ⟨BitVec.eq_of_toNat_eq (by omega), Fin.ext (by omega)⟩

/-- The write loop sets the samples of one word and no others. -/
theorem asymWrite_apply (m : BitVec (g.awidth + 3) → BitVec 16) (addrB : Addr g) (diB : Word)
    (a : Addr g) (j : Fin 8) : asymWrite m addrB diB (sampleAddr a j) =
      if a = addrB then diB.extractLsb' (j * 16) 16 else m (sampleAddr a j) := by
  have hloop : ∀ (is : List (Fin 8)) (m : BitVec (g.awidth + 3) → BitVec 16),
      (is.foldl (fun m i => Function.update m (sampleAddr addrB i)
        (diB.extractLsb' (i * 16) 16)) m) (sampleAddr a j) =
      if a = addrB ∧ j ∈ is then diB.extractLsb' (j * 16) 16 else m (sampleAddr a j) := by
    intro is
    induction is with
    | nil => simp
    | cons i is ih =>
      intro m
      rw [List.foldl_cons, ih]
      simp only [Function.update_apply, sampleAddr_eq_iff]
      grind
  rw [asymWrite, hloop]
  simp

/-- The second memory holds the samples of the first. -/
def Mirrored (s : St g) : Prop :=
  ∀ (a : Addr g) (j : Fin 8), s.myRam (sampleAddr a j) = (s.ram a).extractLsb' (j * 16) 16

theorem mirrored_next (h : Mirrored s) (i : In) : Mirrored (s.next i) := by
  intro a j
  show s.myRamNext i (sampleAddr a j) = (s.ramNext i a).extractLsb' (j * 16) 16
  unfold St.myRamNext St.ramNext
  split
  · rw [asymWrite_apply, Function.update_apply]
    split
    · rfl
    · exact h a j
  · exact h a j

/-! ## Runs -/

theorem carries (g : Generics) : (machine g).Carries (Settings.Valid g)
    (fun i => i.aresetn = true) (fun s => ∀ a, s.ram a = 0) Body where
  stay s i hres hidle hzero _ := by
    show ∀ a, (Averager.step s i).ram a = 0
    rw [step_of_aresetn hres, next_stIdle (beq_iff_eq.mp hidle)]
    exact hzero
  enter c s i sw hc hres hidle hzero := by
    show Body c (Averager.step s i) (s.record i sw)
    rw [step_of_aresetn hres]
    exact body_idle hc (beq_iff_eq.mp hidle) hzero
  next s i sw hc hres _ h := by
    show Body i.settings (Averager.step s i) (s.record i sw)
    rw [step_of_aresetn hres]
    exact body_next hc (fun _ => rfl) h
  leave c s sw hidle h := by
    have hst : s.stateReg = .stIdle := beq_iff_eq.mp hidle
    simpa only [Body, hst] using h

theorem not_finish_of_idle (s : St g) (i : In) (hres : i.aresetn = true)
    (hidle : (machine g).idle s = true) : ¬((machine g).step s i).stateReg = .stFinish := by
  show ¬(Averager.step s i).stateReg = .stFinish
  rw [step_of_aresetn hres, next_stIdle (beq_iff_eq.mp hidle)]
  cases hgo : i.enI && i.startI <;> simp

theorem finish_of_body (hst : s.stateReg = .stFinish) (h : Body c s sw) :
    Sums s.ram sw ∧ Complete c.words sw ∧ sw.length = c.sweeps := by
  simp only [Body, hst] at h
  exact h.2

/-- The averages are right in every run with steady settings, and every acquisition leaves
the memory as it found it. -/
theorem averageLaw (bReg : Word) (is : List In)
    (h : Along (machine g).track Steady (afterReset g bReg) is) :
    AverageLaw (run (machine g).track (afterReset g bReg) is) := by
  constructor
  case finish =>
    intro hfin
    obtain ⟨c, hc, -, hbody⟩ := (carries g).body_of_done (fun s => s.stateReg = .stFinish)
      (fun s hs => beq_eq_false_iff_ne.mpr (by simp [hs])) not_finish_of_idle rfl (fun _ => rfl) []
      h hfin
    obtain ⟨hsums, hcomplete, hlen⟩ := finish_of_body hfin hbody
    exact ⟨c, hc, hlen, hcomplete, fun a I _ => hsums a I⟩
  case idle =>
    intro hidle
    exact ((carries g).inv_run rfl (fun _ => rfl) [] h).rest (beq_iff_eq.mpr hidle)
  case readOut =>
    refine h.invariant (P := fun t => Mirrored t.st) (fun a j => ?_) fun t i ht hi => ?_
    · simp [afterReset, St.reset]
    · show Mirrored (Averager.step t.st i)
      rw [step_of_aresetn hi.1]
      exact mirrored_next ht i

/-! A cycle of an acquisition of two sweeps of one word. -/

def In.cycle (start trig valid : Bool) (x : Word) (restart : Bool) : In where
  aresetn := true
  startI := start
  trigI := trig
  enI := true
  naveragesI := 2
  nsamplesI := 8
  sAxisTvalid := valid
  sAxisTdata := x
  restartS := restart

/-- Both sweeps, the second one after a pause; the core ends in `ST_FINISH`. -/
def twoSweeps : List In :=
  [.cycle true false false 0 false, .cycle false true false 0 false,
   .cycle false false true 0 false, .cycle false false true 0x10 false,
   .cycle false false false 0 false, .cycle false true false 0 false,
   .cycle false false true 0 false, .cycle false false true 0xFFF0 false]

theorem averageLaw_twoSweeps :
    (run (machine .default).track (afterReset .default 0) twoSweeps).st.stateReg = .stFinish ∧
      AverageLaw (run (machine .default).track (afterReset .default 0) twoSweeps) :=
  ⟨by decide +kernel, averageLaw 0 twoSweeps (by decide +kernel)⟩

end LagoEcosystem.Averager
