import LagoEcosystem.Averager.Ntoone

/-!
# The results of the triggers

The invariant of `avg_ntoone`, state by state: the results of the triggers that are done lie
in the memory, and the lanes hold the sums of the words under way.
-/

namespace LagoEcosystem.Ntoone

open Averager Acquisition BitFields Clocked

variable {A : ℕ} {c : Settings} {s : St A} {i : In} {sw done : List (List Word)} {cur : List Word}

/-! ## Lanes and words -/

/-- The sum of lane `I` over the words. -/
def laneSum (I : Fin 8) (cur : List Word) : BitVec 16 := (cur.map (sampleOf I)).sum

/-- The lanes hold the sums of the words. -/
def Lanes (data : Word) (cur : List Word) : Prop := ∀ I, lane I data = laneSum I cur

theorem lanes_nil : Lanes 0 [] := fun I => by
  rw [lane_zero]
  rfl

theorem Lanes.assignN {data : Word} (h : Lanes data cur) (x : Word) :
    Lanes (assignN data x) (cur ++ [x]) := by
  intro I
  rw [Ntoone.assignN, lane_ofLanes, h I]
  simp [laneSum]

/-- The lanes added up are the result of the words: the order of the two sums does not
matter. -/
theorem Lanes.assignAvg {data : Word} (h : Lanes data cur) : assignAvg data = result cur := by
  have hfold : ∀ (Ks : List (Fin 8)) (acc : BitVec 16),
      Ks.foldl (fun dinbv K => dinbv + lane K data) acc =
        acc + (Ks.map fun K => laneSum K cur).sum := by
    intro Ks
    induction Ks with
    | nil => simp
    | cons K Ks ih =>
      intro acc
      rw [List.foldl_cons, ih, h K, List.map_cons, List.sum_cons, add_assoc]
  have hswap : ∀ ws : List Word, ((List.finRange 8).map fun K => laneSum K ws).sum = result ws := by
    intro ws
    induction ws with
    | nil => simp [laneSum, result]
    | cons x ws ih =>
      have hcons : ∀ K, laneSum K (x :: ws) = sampleOf K x + laneSum K ws := fun K => by
        simp [laneSum]
      simp only [hcons, List.sum_map_add, ih]
      simp [result]
  rw [Ntoone.assignAvg, hfold, hswap, zero_add]

/-! ## The invariant -/

/-- The results of the triggers that are done. -/
def Stored (ram : BitVec A → BitVec 16) (done : List (List Word)) : Prop :=
  ∀ (k : ℕ) (hk : k < done.length), ram (BitVec.ofNat A k) = result done[k]

/-- The triggers that are done, while more are to come. -/
structure Going (c : Settings) (s : St A) (done : List (List Word)) : Prop where
  counting : Counting c.words c.naverages s.avgReg done
  stored : Stored s.ram done
  addr : s.tdpAddraReg = BitVec.ofNat A done.length

/-- What holds in each state of an acquisition with the settings `c`. -/
def Body (c : Settings) (s : St A) (sw : List (List Word)) : Prop :=
  match s.stateReg with
  | .stIdle => True
  | .stWaitTrig => Going c s sw ∧ s.dataReg = 0 ∧ s.samplesReg = 0
  | .stAvgN1 => ∃ done cur, sw = done ++ [cur] ∧ Going c s done ∧ Lanes s.dataReg cur ∧
      s.samplesReg.toNat = cur.length ∧ cur.length < c.words
  | .stWriteAvg => ∃ done cur, sw = done ++ [cur] ∧ Going c s done ∧ Lanes s.dataReg cur ∧
      cur.length = c.words ∧ s.samplesReg = 0
  | .stFinish => Complete c.words sw ∧ Stored s.ram sw ∧ sw.length = c.sweeps

/-- The comparison with the last word of a trigger. -/
theorem atLast_iff (hc : Valid A c) (hi : i.settings = c) :
    s.atLast i = true ↔ s.samplesReg.toNat + 1 = c.words := by
  have hval := toNat_nsamples hi
  have hpos : 1 ≤ (i.nsamplesI / 8#16).toNat := hval ▸ Settings.words_pos hc.pos
  rw [St.atLast, beq_iff_eq, eq_sub_one_iff hpos, hval]

/-- A new result changes none of the others. -/
theorem Stored.write (h : Stored s.ram done) (haddr : s.tdpAddraReg = BitVec.ofNat A done.length)
    (hfits : done.length < 2 ^ A) (w : List Word) :
    Stored (Function.update s.ram s.tdpAddraReg (result w)) (done ++ [w]) := by
  intro k hk
  rw [List.length_append, List.length_singleton] at hk
  rcases Nat.lt_succ_iff_lt_or_eq.mp hk with hlt | rfl
  · have hne : BitVec.ofNat A k ≠ BitVec.ofNat A done.length := by
      intro heq
      have hval := congrArg BitVec.toNat heq
      rw [BitVec.toNat_ofNat, BitVec.toNat_ofNat, Nat.mod_eq_of_lt (by omega),
        Nat.mod_eq_of_lt hfits] at hval
      omega
    rw [haddr, Function.update_of_ne hne, List.getElem_append_left hlt]
    exact h k hlt
  · rw [haddr, Function.update_self]
    simp

/-! ## One edge -/

/-- A cycle without a trigger that is waited for and without a handshake leaves the words as
they are. -/
theorem record_eq_self (hidle : s.stateReg ≠ .stIdle)
    (htrig : s.stateReg = .stWaitTrig → i.trigI = false)
    (hvalid : s.stateReg = .stAvgN1 → i.sAxisTvalid = false) : s.record i sw = sw := by
  cases hst : s.stateReg with
  | stIdle => exact absurd hst hidle
  | stWaitTrig => simp [St.record, record, hst, htrig hst, St.ctl, St.hold]
  | stAvgN1 => simp [St.record, record, hst, hvalid hst]
  | stWriteAvg | stFinish => simp [St.record, record, hst, St.ctl, St.hold]

theorem body_idle (hc : Valid A c) (hst : s.stateReg = .stIdle) :
    Body c (s.next i) (s.record i sw) := by
  have hrec : s.record i sw = [] := by simp [St.record, record, hst]
  rw [hrec, next_stIdle hst]
  cases hgo : i.enI && i.startI with
  | false => trivial
  | true =>
    exact ⟨⟨counting_nil hc.average, fun k hk => absurd hk (Nat.not_lt_zero k), rfl⟩, rfl, rfl⟩

theorem body_waitTrig (hc : Valid A c) (hst : s.stateReg = .stWaitTrig) (h : Body c s sw) :
    Body c (s.next i) (s.record i sw) := by
  simp only [Body, hst] at h
  obtain ⟨hgoing, hdata, hsamples⟩ := h
  rw [next_stWaitTrig hst]
  cases ht : i.trigI with
  | false =>
    rw [record_eq_self (by simp [hst]) (fun _ => ht) (by simp [hst])]
    exact ⟨⟨hgoing.counting, hgoing.stored, hgoing.addr⟩, hdata, hsamples⟩
  | true =>
    have hrec : s.record i sw = sw ++ [[]] := by simp [St.record, record, hst, ht]
    rw [hrec]
    refine ⟨sw, [], rfl, ⟨hgoing.counting, hgoing.stored, hgoing.addr⟩, ?_, ?_,
      Settings.words_pos hc.pos⟩
    · show Lanes s.dataReg []
      rw [hdata]
      exact lanes_nil
    · show s.samplesReg.toNat = 0
      rw [hsamples]
      rfl

/-- A gap in the stream changes nothing that the invariant looks at. -/
theorem body_gap (hst : s.stateReg = .stAvgN1) (hv : i.sAxisTvalid = false) (h : Body c s sw) :
    Body c (s.next i) (s.record i sw) := by
  have hkeep : Body c (s.tick i) sw := by
    simp only [Body, hst] at h
    obtain ⟨done, cur, hsw, ⟨hcounting, hstored, haddr⟩, hrest⟩ := h
    simp only [Body, St.tick, hst]
    exact ⟨done, cur, hsw, ⟨hcounting, hstored, haddr⟩, hrest⟩
  rwa [record_eq_self (by simp [hst]) (by simp [hst]) (fun _ => hv), next_of_gap hst hv]

theorem body_accept (hc : Valid A c) (hi : i.settings = c) (hst : s.stateReg = .stAvgN1)
    (hv : i.sAxisTvalid = true) (h : Body c s sw) : Body c (s.next i) (s.record i sw) := by
  simp only [Body, hst] at h
  obtain ⟨done, cur, rfl, ⟨hcounting, hstored, haddr⟩, hlanes, hlen, hcur⟩ := h
  have hrec : s.record i (done ++ [cur]) = done ++ [cur ++ [i.sAxisTdata]] := by
    simp [St.record, record, hst, St.ctl, hv]
  have hlanes' := hlanes.assignN i.sAxisTdata
  have hcur' : (cur ++ [i.sAxisTdata]).length = cur.length + 1 := by simp
  have hlast := atLast_iff (s := s) hc hi
  rw [hrec, next_stAvgN1 hst hv]
  by_cases hend : s.samplesReg.toNat + 1 = c.words
  · rw [if_pos (hlast.mpr hend), if_pos (hlast.mpr hend)]
    exact ⟨done, _, rfl, ⟨hcounting, hstored, haddr⟩, hlanes', by omega, rfl⟩
  · rw [if_neg (mt hlast.mp hend), if_neg (mt hlast.mp hend)]
    have hwords : c.words < 2 ^ 16 :=
      Nat.lt_of_le_of_lt (Nat.div_le_self _ _) c.nsamples.isLt
    refine ⟨done, _, rfl, ⟨hcounting, hstored, haddr⟩, hlanes', ?_, by omega⟩
    rw [toNat_add_one (by omega), hlen, hcur']

theorem body_write (hc : Valid A c) (hi : i.settings = c) (hst : s.stateReg = .stWriteAvg)
    (h : Body c s sw) : Body c (s.next i) (s.record i sw) := by
  simp only [Body, hst] at h
  obtain ⟨done, cur, rfl, ⟨hcounting, hstored, haddr⟩, hlanes, hcur, hsamples⟩ := h
  have hlt : done.length < 2 ^ A := hcounting.lt.trans_le hc.fits
  have hstored' := hstored.write haddr hlt cur
  have hnavg : i.naveragesI = c.naverages := congrArg Settings.naverages hi
  rw [record_eq_self (by simp [hst]) (by simp [hst]) (by simp [hst]), next_stWriteAvg hst,
    hlanes.assignAvg, hnavg]
  by_cases hall : done.length + 1 = c.naverages.toNat
  · rw [if_pos (hcounting.last_iff.mpr hall)]
    obtain ⟨hcomplete, hlen⟩ := hcounting.finish hcur hall
    exact ⟨hcomplete, hstored', hlen⟩
  · rw [if_neg (mt hcounting.last_iff.mp hall)]
    refine ⟨⟨hcounting.snoc hcur hall, hstored', ?_⟩, rfl, hsamples⟩
    show s.tdpAddraReg + 1 = BitVec.ofNat A (done ++ [cur]).length
    rw [List.length_append, haddr, List.length_singleton, BitVec.ofNat_add]
    rfl

theorem body_finish (hst : s.stateReg = .stFinish) (h : Body c s sw) :
    Body c (s.next i) (s.record i sw) := by
  simp only [Body, hst] at h
  rw [record_eq_self (by simp [hst]) (by simp [hst]) (by simp [hst]), next_stFinish hst]
  cases hr : s.restartOs with
  | false => exact h
  | true => trivial

/-- Every edge of an acquisition keeps its invariant. -/
theorem body_next (hc : Valid A c) (hi : s.stateReg ≠ .stIdle → i.settings = c)
    (h : Body c s sw) : Body c (s.next i) (s.record i sw) := by
  cases hst : s.stateReg with
  | stIdle => exact body_idle hc hst
  | stWaitTrig => exact body_waitTrig hc hst h
  | stAvgN1 =>
    cases hv : i.sAxisTvalid with
    | false => exact body_gap hst hv h
    | true => exact body_accept hc (hi (by simp [hst])) hst hv h
  | stWriteAvg => exact body_write hc (hi (by simp [hst])) hst h
  | stFinish => exact body_finish hst h

/-! ## Runs -/

theorem carries (A : ℕ) : (machine A).Carries (Valid A) (fun i => i.aresetn = true)
    (fun _ => True) Body where
  stay _ _ _ _ _ _ := trivial
  enter c s i sw hc hres hidle _ := by
    show Body c (Ntoone.step s i) (s.record i sw)
    rw [step_of_aresetn hres]
    exact body_idle hc (beq_iff_eq.mp hidle)
  next s i sw hc hres _ h := by
    show Body i.settings (Ntoone.step s i) (s.record i sw)
    rw [step_of_aresetn hres]
    exact body_next hc (fun _ => rfl) h
  leave _ _ _ _ _ := trivial

theorem not_finish_of_idle (s : St A) (i : In) (hres : i.aresetn = true)
    (hidle : (machine A).idle s = true) : ¬((machine A).step s i).stateReg = .stFinish := by
  show ¬(Ntoone.step s i).stateReg = .stFinish
  rw [step_of_aresetn hres, next_stIdle (beq_iff_eq.mp hidle)]
  cases hgo : i.enI && i.startI <;> simp

theorem finish_of_body (hst : s.stateReg = .stFinish) (h : Body c s sw) :
    Complete c.words sw ∧ Stored s.ram sw ∧ sw.length = c.sweeps := by
  simpa only [Body, hst] using h

/-- The results are right in every run with steady settings. -/
theorem resultLaw (ram : BitVec A → BitVec 16) (is : List In)
    (h : Along (machine A).track Steady (afterReset ram) is) :
    ResultLaw (run (machine A).track (afterReset ram) is) := by
  intro hend
  obtain ⟨c, hc, -, hbody⟩ := (carries A).body_of_done (fun s => s.stateReg = .stFinish)
    (fun s hs => beq_eq_false_iff_ne.mpr (by simp [hs])) not_finish_of_idle rfl trivial [] h hend
  obtain ⟨hcomplete, hstored, hlen⟩ := finish_of_body hend hbody
  exact ⟨c, hc, hlen, hcomplete, hstored⟩

/-- Two triggers with one word each, and a gap in front of the second word. -/
def twoTriggers : List In :=
  let cycle (start trig valid : Bool) (x : Word) : In :=
    ⟨true, start, trig, true, 2, 8, valid, x, false⟩
  [cycle true false false 0, cycle false true false 0, cycle false false true 0x10,
   cycle false false false 0, cycle false true false 0, cycle false false false 0,
   cycle false false true 0xFFF0, cycle false false false 0]

theorem resultLaw_twoTriggers :
    (run (machine 4).track (afterReset fun _ => 0) twoTriggers).st.stateReg = .stFinish ∧
      ResultLaw (run (machine 4).track (afterReset fun _ => 0) twoTriggers) :=
  ⟨by decide +kernel, resultLaw _ twoTriggers (by decide +kernel)⟩

end LagoEcosystem.Ntoone
