import LagoEcosystem.Library.Acquisition
import LagoEcosystem.Library.BitFields
import Mathlib.Algebra.Group.Nat.Defs

/-!
# The oscilloscope

`axis_oscilloscope` lets a stream pass from a start on until some time after a trigger. It
counts the words before the trigger, so that the place of the trigger in the memory behind
it is known, and after the trigger it counts from `pre_data` on, with the low six bits of
the place added.
-/

namespace LagoEcosystem.Oscilloscope

open Acquisition BitFields Clocked

/-- `AXIS_TDATA_WIDTH` and `CNTR_WIDTH`. The source reads bits 5 to 0 of the counter. -/
structure Generics where
  tdataWidth : ℕ
  cntrWidth : ℕ
  six_le : 6 ≤ cntrWidth

variable {g : Generics}

/-- The input ports. -/
structure In (g : Generics) where
  aresetn : Bool
  runFlag : Bool
  trgFlag : Bool
  preData : BitVec g.cntrWidth
  totData : BitVec g.cntrWidth
  sAxisTdata : BitVec g.tdataWidth
  sAxisTvalid : Bool

/-- The values "00", "01", "10" and "11" of `int_case_reg`. -/
inductive Case where
  | idle
  | pre
  | wait
  | post
  deriving DecidableEq

/-- The registers. -/
structure St (g : Generics) where
  intAddrReg : BitVec g.cntrWidth
  intCntrReg : BitVec g.cntrWidth
  intCaseReg : Case
  intEnblReg : Bool

/-- The output ports. -/
structure Out (g : Generics) where
  stsData : BitVec (g.cntrWidth + 1)
  sAxisTready : Bool
  mAxisTdata : BitVec g.tdataWidth
  mAxisTvalid : Bool

def St.reset (g : Generics) : St g := ⟨0, 0, .idle, false⟩

def St.next (s : St g) (i : In g) : St g :=
  match s.intCaseReg with
  | .idle => if i.runFlag then ⟨0, 0, .pre, true⟩ else s
  | .pre =>
    if i.sAxisTvalid then
      { s with
        intCntrReg := s.intCntrReg + 1
        intCaseReg := if s.intCntrReg = i.preData then .wait else .pre }
    else s
  | .wait =>
    if i.sAxisTvalid then
      if i.trgFlag then
        { s with
          intAddrReg := s.intCntrReg
          intCntrReg := i.preData + (s.intCntrReg.extractLsb' 0 6).setWidth g.cntrWidth
          intCaseReg := .post }
      else { s with intCntrReg := s.intCntrReg + 1 }
    else s
  | .post =>
    if i.sAxisTvalid then
      if s.intCntrReg < i.totData then { s with intCntrReg := s.intCntrReg + 1 }
      else { s with intEnblReg := false, intCaseReg := .idle }
    else s

def step (s : St g) (i : In g) : St g := if i.aresetn then s.next i else .reset g

def St.out (s : St g) (i : In g) : Out g where
  stsData := s.intAddrReg ++ BitVec.ofBool s.intEnblReg
  sAxisTready := true
  mAxisTdata := i.sAxisTdata
  mAxisTvalid := s.intEnblReg && i.sAxisTvalid

/-- The word that is passed on in a cycle. -/
def forwarded (s : St g) (i : In g) : List (BitVec g.tdataWidth) :=
  if (s.out i).mAxisTvalid then [(s.out i).mAxisTdata] else []

/-! ## Recordings -/

structure Settings (g : Generics) where
  preData : BitVec g.cntrWidth
  totData : BitVec g.cntrWidth
  deriving DecidableEq

def In.settings (i : In g) : Settings g := ⟨i.preData, i.totData⟩

/-- A valid word, and the trigger flag that came with it. -/
abbrev Sample (g : Generics) := BitVec g.tdataWidth × Bool

/-- The valid words since the last start. -/
def St.record (s : St g) (i : In g) (ws : List (Sample g)) : List (Sample g) :=
  if s.intCaseReg = .idle then []
  else if i.sAxisTvalid then ws ++ [(i.sAxisTdata, i.trgFlag)]
  else ws

/-- The core as a machine that works through acquisitions. -/
def machine (g : Generics) : Machine (St g) (In g) (Settings g) (List (Sample g)) where
  step := step
  idle s := s.intCaseReg == .idle
  settings := In.settings
  record := St.record

abbrev Tracked (g : Generics) := Acquisition.Tracked (St g) (Settings g) (List (Sample g))

def afterReset (g : Generics) : Tracked g := ⟨.reset g, none, []⟩

/-- A recording: its words with their trigger flags, and the place that `sts_data` gives. -/
structure Capture (g : Generics) where
  words : List (Sample g)
  addr : BitVec g.cntrWidth
  settings : Settings g

/-- The last word of a recording passes. -/
def St.finishes (s : St g) (i : In g) : Bool :=
  s.intCaseReg == .post && i.sAxisTvalid && !decide (s.intCntrReg < i.totData)

/-- The recording that ends in a cycle. -/
def captureOut (t : Tracked g) (i : In g) : List (Capture g) :=
  if t.st.finishes i then [⟨t.st.record i t.record, t.st.intAddrReg, i.settings⟩] else []

/-- All recordings of a run that starts after reset. -/
def captures (is : List (In g)) : List (Capture g) :=
  collect (machine g).track captureOut (afterReset g) is

/-- Word `t` is the first one with a trigger flag after `pre_data + 1` words. -/
structure TriggerAt (c : Settings g) (ws : List (Sample g)) (t : ℕ) : Prop where
  flag : ∃ x, ws[t]? = some (x, true)
  late : c.preData.toNat + 1 ≤ t
  first : ∀ k x, c.preData.toNat + 1 ≤ k → k < t → ws[k]? ≠ some (x, true)

/-- Where the counter starts after the trigger at word `t`. -/
def Settings.restart (c : Settings g) (t : ℕ) : ℕ :=
  (c.preData.toNat + t % 64) % 2 ^ g.cntrWidth

/-- A recording with its trigger at word `t`. -/
structure CaptureLaw (p : Capture g) (t : ℕ) : Prop where
  trigger : TriggerAt p.settings p.words t
  addr : p.addr.toNat = t % 2 ^ g.cntrWidth
  /-- From the trigger on the counter runs up to `tot_data`, and one word more passes. -/
  length : p.words.length = t + 1 + (p.settings.totData.toNat - p.settings.restart t) + 1

/-- During a recording the settings stay. -/
def Steady (t : Tracked g) (i : In g) : Prop :=
  i.aresetn = true ∧ (machine g).Steady (fun _ => True) t i

instance (t : Tracked g) (i : In g) : Decidable (Steady t i) :=
  inferInstanceAs (Decidable (_ ∧ _))

/-! ## The invariant -/

/-- What holds in each state of a recording with the settings `c`. -/
def Body (c : Settings g) (s : St g) (ws : List (Sample g)) : Prop :=
  match s.intCaseReg with
  | .idle => True
  | .pre => s.intCntrReg.toNat = ws.length ∧ ws.length ≤ c.preData.toNat
  | .wait => s.intCntrReg.toNat = ws.length % 2 ^ g.cntrWidth ∧ c.preData.toNat + 1 ≤ ws.length ∧
      ∀ k x, c.preData.toNat + 1 ≤ k → ws[k]? ≠ some (x, true)
  | .post => ∃ t, TriggerAt c ws t ∧ s.intAddrReg.toNat = t % 2 ^ g.cntrWidth ∧ t < ws.length ∧
      s.intCntrReg.toNat = c.restart t + (ws.length - (t + 1)) ∧
      (ws.length = t + 1 ∨ s.intCntrReg.toNat ≤ c.totData.toNat)

variable {c : Settings g} {s : St g} {i : In g} {ws : List (Sample g)} {t : ℕ}

theorem step_of_aresetn (h : i.aresetn = true) : step s i = s.next i := if_pos h

theorem next_of_not_valid (hst : s.intCaseReg ≠ .idle) (hv : i.sAxisTvalid = false) :
    s.next i = s := by
  cases h : s.intCaseReg <;> simp_all [St.next]

theorem record_of_not_valid (hst : s.intCaseReg ≠ .idle) (hv : i.sAxisTvalid = false) :
    s.record i ws = ws := by simp [St.record, hst, hv]

theorem record_of_valid (hst : s.intCaseReg ≠ .idle) (hv : i.sAxisTvalid = true) :
    s.record i ws = ws ++ [(i.sAxisTdata, i.trgFlag)] := by simp [St.record, hst, hv]

theorem TriggerAt.lt_length (h : TriggerAt c ws t) : t < ws.length := by
  obtain ⟨x, hx⟩ := h.flag
  exact (List.getElem?_eq_some_iff.mp hx).1

theorem TriggerAt.snoc (h : TriggerAt c ws t) (x : Sample g) : TriggerAt c (ws ++ [x]) t := by
  have hlt := h.lt_length
  refine ⟨?_, h.late, fun k y hk hkt => ?_⟩
  · rw [List.getElem?_append_left hlt]
    exact h.flag
  · rw [List.getElem?_append_left (by omega)]
    exact h.first k y hk hkt

/-- The low six bits of the counter, added to `pre_data`. -/
theorem toNat_restart (h : s.intCntrReg.toNat = t % 2 ^ g.cntrWidth) :
    (c.preData + (s.intCntrReg.extractLsb' 0 6).setWidth g.cntrWidth).toNat = c.restart t := by
  have hdvd : 64 ∣ 2 ^ g.cntrWidth := by simpa using Nat.pow_dvd_pow 2 g.six_le
  have hlow : ((s.intCntrReg.extractLsb' 0 6).setWidth g.cntrWidth).toNat = t % 64 := by
    have hle : 2 ^ 6 ≤ 2 ^ g.cntrWidth := Nat.pow_le_pow_right (by decide) g.six_le
    have hlt : t % 64 < 2 ^ g.cntrWidth := by omega
    rw [BitVec.toNat_setWidth, BitVec.extractLsb'_toNat, h]
    simp [Nat.mod_mod_of_dvd _ hdvd, Nat.mod_eq_of_lt hlt]
  rw [BitVec.toNat_add, hlow, Settings.restart]

theorem toNat_succ_mod {k : ℕ} (h : s.intCntrReg.toNat = k % 2 ^ g.cntrWidth) :
    (s.intCntrReg + 1).toNat = (k + 1) % 2 ^ g.cntrWidth := by
  have hone : 1 < 2 ^ g.cntrWidth := Nat.one_lt_two_pow (by have := g.six_le; omega)
  rw [BitVec.toNat_add, h, toNat_one hone, Nat.mod_add_mod]

/-! ## One edge -/

theorem body_pre (hi : i.settings = c) (hv : i.sAxisTvalid = true) (hst : s.intCaseReg = .pre)
    (h : Body c s ws) : Body c (s.next i) (ws ++ [(i.sAxisTdata, i.trgFlag)]) := by
  simp only [Body, hst] at h
  obtain ⟨hcntr, hle⟩ := h
  have hpre : i.preData = c.preData := by rw [← hi]; rfl
  have hlt := c.preData.isLt
  have hlen : (ws ++ [(i.sAxisTdata, i.trgFlag)]).length = ws.length + 1 := by simp
  have hsucc : (s.intCntrReg + 1).toNat = (ws.length + 1) % 2 ^ g.cntrWidth :=
    toNat_succ_mod (by rw [hcntr, Nat.mod_eq_of_lt (by omega)])
  by_cases hlast : s.intCntrReg = c.preData
  case pos =>
    have hfull : ws.length = c.preData.toNat := by rw [← hcntr, hlast]
    simp only [St.next, hst, hv, hpre, hlast, if_true, Body]
    rw [← hlast, hlen]
    refine ⟨hsucc, by omega, fun k x hk => ?_⟩
    rw [List.getElem?_eq_none (by omega)]
    exact Option.some_ne_none _ |>.symm
  case neg =>
    have hne : ws.length ≠ c.preData.toNat := fun heq =>
      hlast (BitVec.eq_of_toNat_eq (by rw [hcntr, heq]))
    simp only [St.next, hst, hv, hpre, hlast, if_true, if_false, Body]
    rw [hsucc, hlen, Nat.mod_eq_of_lt (by omega)]
    exact ⟨rfl, by omega⟩

theorem body_wait (hi : i.settings = c) (hv : i.sAxisTvalid = true) (hst : s.intCaseReg = .wait)
    (h : Body c s ws) : Body c (s.next i) (ws ++ [(i.sAxisTdata, i.trgFlag)]) := by
  simp only [Body, hst] at h
  obtain ⟨hcntr, hle, hnone⟩ := h
  have hlen : (ws ++ [(i.sAxisTdata, i.trgFlag)]).length = ws.length + 1 := by simp
  cases htrg : i.trgFlag with
  | true =>
    have hpre : i.preData = c.preData := by rw [← hi]; rfl
    simp only [St.next, hst, hv, htrg, hpre, if_true, Body]
    refine ⟨ws.length, ⟨⟨i.sAxisTdata, by simp⟩, hle, fun k x hk hlt => ?_⟩, hcntr, by simp, ?_,
      .inl (by simp)⟩
    · rw [List.getElem?_append_left hlt]
      exact hnone k x hk
    · rw [toNat_restart hcntr]
      simp
  | false =>
    simp only [St.next, hst, hv, htrg, if_true, Bool.false_eq_true, if_false, Body]
    rw [htrg] at hlen
    refine ⟨by rw [toNat_succ_mod hcntr, hlen], by omega, fun k x hk => ?_⟩
    rw [List.getElem?_append]
    split
    · exact hnone k x hk
    · rw [List.getElem?_singleton]
      split <;> simp

theorem body_post (hi : i.settings = c) (hv : i.sAxisTvalid = true) (hst : s.intCaseReg = .post)
    (h : Body c s ws) : Body c (s.next i) (ws ++ [(i.sAxisTdata, i.trgFlag)]) := by
  simp only [Body, hst] at h
  obtain ⟨t, htrig, haddr, hlt, hcntr, hend⟩ := h
  have htot : i.totData = c.totData := by rw [← hi]; rfl
  have hlen : (ws ++ [(i.sAxisTdata, i.trgFlag)]).length = ws.length + 1 := by simp
  by_cases hmore : s.intCntrReg < c.totData
  case pos =>
    have hmore' : s.intCntrReg.toNat < c.totData.toNat := hmore
    have hbound := c.totData.isLt
    have hsucc : (s.intCntrReg + 1).toNat = s.intCntrReg.toNat + 1 := toNat_add_one (by omega)
    simp only [St.next, hst, hv, htot, hmore, if_true, Body]
    exact ⟨t, htrig.snoc _, haddr, by omega, by omega, .inr (by omega)⟩
  case neg => simp only [St.next, hst, hv, htot, hmore, if_true, if_false, Body]

theorem body_next (hi : s.intCaseReg ≠ .idle → i.settings = c) (h : Body c s ws) :
    Body c (s.next i) (s.record i ws) := by
  by_cases hst : s.intCaseReg = .idle
  case pos =>
    have hrec : s.record i ws = [] := by simp [St.record, hst]
    rw [hrec, St.next, hst]
    cases hr : i.runFlag with
    | true => exact ⟨rfl, Nat.zero_le _⟩
    | false => simp [Body, hst]
  case neg =>
    cases hv : i.sAxisTvalid with
    | false => rwa [next_of_not_valid hst hv, record_of_not_valid hst hv]
    | true =>
      rw [record_of_valid hst hv]
      cases hcase : s.intCaseReg with
      | idle => exact absurd hcase hst
      | pre => exact body_pre (hi hst) hv hcase h
      | wait => exact body_wait (hi hst) hv hcase h
      | post => exact body_post (hi hst) hv hcase h

/-- What the last word of a recording completes. -/
theorem captureLaw_of_body (hfin : s.finishes i = true) (h : Body i.settings s ws) :
    ∃ t, CaptureLaw ⟨s.record i ws, s.intAddrReg, i.settings⟩ t := by
  rw [St.finishes, Bool.and_eq_true, Bool.and_eq_true, beq_iff_eq] at hfin
  obtain ⟨⟨hst, hv⟩, hcntr⟩ := hfin
  have hge : i.totData.toNat ≤ s.intCntrReg.toNat := by
    have hnot : ¬ s.intCntrReg < i.totData := by simpa using hcntr
    exact Nat.le_of_not_lt hnot
  simp only [Body, hst] at h
  obtain ⟨t, htrig, haddr, hlt, hcount, hend⟩ := h
  rw [record_of_valid (by simp [hst]) hv]
  refine ⟨t, htrig.snoc _, haddr, ?_⟩
  have htot : i.settings.totData = i.totData := rfl
  rw [List.length_append, List.length_singleton]
  simp only [htot] at hend ⊢
  omega

/-! ## Runs -/

/-- The words that have been passed on of the recording under way. -/
def underWay (t : Tracked g) : List (BitVec g.tdataWidth) :=
  if t.st.intCaseReg = .idle then [] else t.record.map Prod.fst

/-- The run `is`, with any number of recordings. -/
structure ScopeLaw (is : List (In g)) : Prop where
  captured : ∀ p ∈ captures is, ∃ t, CaptureLaw p t
  /-- What passes is the recordings, one after the other. -/
  forwarded : collect step forwarded (.reset g) is =
    ((captures is).flatMap fun p => p.words.map Prod.fst) ++
      underWay (run (machine g).track (afterReset g) is)
  /-- The low bit of `sts_data` says whether a recording is under way. -/
  enabled : (run step (.reset g) is).intEnblReg = true ↔
    (run step (.reset g) is).intCaseReg ≠ .idle
  /-- The rest of it keeps the place of the last trigger. -/
  kept : (run step (.reset g) is).intCaseReg = .idle → ∀ p ∈ (captures is).getLast?,
    (run step (.reset g) is).intAddrReg = p.addr

/-- The invariant of a run, after the recordings `ps`. -/
structure Inv (ps : List (Capture g)) (t : Tracked g) : Prop where
  inv : (machine g).Inv (fun _ => True) (fun _ => True) Body t
  captured : ∀ p ∈ ps, ∃ t, CaptureLaw p t
  enabled : t.st.intEnblReg = true ↔ t.st.intCaseReg ≠ .idle
  kept : t.st.intCaseReg = .idle → ∀ p ∈ ps.getLast?, t.st.intAddrReg = p.addr

theorem enabled_next (h : s.intEnblReg = true ↔ s.intCaseReg ≠ .idle) :
    (s.next i).intEnblReg = true ↔ (s.next i).intCaseReg ≠ .idle := by
  cases hst : s.intCaseReg <;> grind [St.next]

/-- The core comes to rest, or rests, with the place of the last trigger. -/
theorem idle_next (h : (s.next i).intCaseReg = .idle) :
    s.finishes i = true ∧ (s.next i).intAddrReg = s.intAddrReg ∨
      s.finishes i = false ∧ s.intCaseReg = .idle ∧ s.next i = s := by
  cases hst : s.intCaseReg <;> grind [St.next, St.finishes]

/-- Only the last word of a recording leads back to rest. -/
theorem finishes_eq_true_iff (hst : s.intCaseReg ≠ .idle) :
    s.finishes i = true ↔ (s.next i).intCaseReg = .idle := by
  cases h : s.intCaseReg <;> grind [St.next, St.finishes]

theorem carries (g : Generics) : (machine g).Carries (fun _ => True) (fun i => i.aresetn = true)
    (fun _ => True) Body where
  stay _ _ _ _ _ _ := trivial
  enter c s i ws _ hres hidle _ := by
    have hst : s.intCaseReg = .idle := beq_iff_eq.mp hidle
    show Body c (Oscilloscope.step s i) (s.record i ws)
    rw [step_of_aresetn hres]
    exact body_next (fun hne => absurd hst hne) (by simp only [Body, hst])
  next s i ws _ hres _ h := by
    show Body i.settings (Oscilloscope.step s i) (s.record i ws)
    rw [step_of_aresetn hres]
    exact body_next (fun _ => rfl) h
  leave _ _ _ _ _ := trivial

theorem Inv.next {ps : List (Capture g)} {t : Tracked g} (h : Inv ps t) (hi : Steady t i) :
    Inv (ps ++ captureOut t i) ((machine g).track t i) := by
  obtain ⟨hres, hsteady⟩ := hi
  have hstep : ((machine g).track t i).st = t.st.next i := step_of_aresetn hres
  refine ⟨?_, ?_, ?_, ?_⟩
  · exact (carries g).inv_track h.inv hres hsteady
  · intro p hp
    rcases List.mem_append.mp hp with hp | hp
    · exact h.captured p hp
    · rw [captureOut] at hp
      split at hp
      case isTrue hfin =>
        obtain rfl := List.mem_singleton.mp hp
        have hbusy : (machine g).idle t.st = false := by
          rw [St.finishes, Bool.and_eq_true, Bool.and_eq_true, beq_iff_eq] at hfin
          simp [machine, hfin.1.1]
        exact captureLaw_of_body hfin
          (h.inv.body hbusy i.settings trivial (hsteady hbusy).2)
      case isFalse => simp at hp
  · rw [hstep]
    exact enabled_next h.enabled
  · rw [hstep]
    intro hidle
    rcases idle_next hidle with ⟨hfin, haddr⟩ | ⟨hfin, hst, hsame⟩
    · simp [captureOut, hfin, haddr]
    · rw [captureOut, hfin, hsame]
      simpa using h.kept hst

theorem inv_run {is : List (In g)} (h : Along (machine g).track Steady (afterReset g) is) :
    Inv (captures is) (run (machine g).track (afterReset g) is) := by
  have hstart : Inv [] (afterReset g) :=
    ⟨Machine.inv_start rfl trivial [], by simp,
      by simp [afterReset, St.reset], by simp⟩
  have hall := h.history (P := Inv) captureOut hstart fun ps t i ht hi => ht.next hi
  rwa [List.nil_append] at hall

/-- What passes belongs to the recording under way or completes it. -/
theorem underWay_step {t : Tracked g} (h : t.st.intEnblReg = true ↔ t.st.intCaseReg ≠ .idle)
    (hi : i.aresetn = true) :
    underWay t ++ forwarded t.st i =
      (captureOut t i).flatMap (fun p => p.words.map Prod.fst) ++
        underWay ((machine g).track t i) := by
  have hst : ((machine g).track t i).st = t.st.next i := step_of_aresetn hi
  have hrec : ((machine g).track t i).record = t.st.record i t.record := rfl
  rw [underWay, underWay, hst, hrec]
  by_cases hidle : t.st.intCaseReg = .idle
  case pos =>
    have hoff : t.st.intEnblReg = false := by simpa [hidle] using h
    have hfin : t.st.finishes i = false := by simp [St.finishes, hidle]
    simp [forwarded, St.out, captureOut, hidle, hoff, hfin, St.record]
  case neg =>
    have hon : t.st.intEnblReg = true := h.mpr hidle
    have hword : t.record.map Prod.fst ++ forwarded t.st i =
        (t.st.record i t.record).map Prod.fst := by
      cases hv : i.sAxisTvalid with
      | false => simp [forwarded, St.out, hv, record_of_not_valid hidle hv]
      | true => simp [forwarded, St.out, hon, hv, record_of_valid hidle hv]
    rw [if_neg hidle, hword, captureOut]
    cases hfin : t.st.finishes i with
    | false =>
      have hgoes : (t.st.next i).intCaseReg ≠ .idle := fun hrest => by
        rw [(finishes_eq_true_iff hidle).mpr hrest] at hfin
        contradiction
      simp [hgoes]
    | true => simp [(finishes_eq_true_iff hidle).mp hfin]

theorem st_run (is : List (In g)) :
    (run (machine g).track (afterReset g) is).st = run step (.reset g) is :=
  run_map (fun _ _ => rfl) _ is

theorem forwarded_run {is : List (In g)} (h : Along (machine g).track Steady (afterReset g) is) :
    collect step forwarded (.reset g) is =
      ((captures is).flatMap fun p => p.words.map Prod.fst) ++
        underWay (run (machine g).track (afterReset g) is) := by
  have hpast := h.strengthen (P := fun t => t.st.intEnblReg = true ↔ t.st.intCaseReg ≠ .idle)
    (by simp [afterReset, St.reset]) fun t i ht hi => by
      have hnext : ((machine g).track t i).st = t.st.next i := step_of_aresetn hi.1
      rw [hnext]
      exact enabled_next ht
  have hflow : underWay (afterReset g) ++
      collect (machine g).track (fun t i => forwarded t.st i) (afterReset g) is =
      collect (machine g).track
          (fun t i => (captureOut t i).flatMap fun p => p.words.map Prod.fst) (afterReset g) is ++
        underWay (run (machine g).track (afterReset g) is) :=
    hpast.conserve fun t i hi => underWay_step hi.1 hi.2.1
  have hsame : collect (machine g).track (fun t i => forwarded t.st i) (afterReset g) is =
      collect step forwarded (.reset g) is := collect_map (fun _ _ => rfl) forwarded _ is
  rwa [hsame, collect_flatMap] at hflow

/-- A recording has the settings that the inputs have. -/
theorem settings_of_mem {is : List (In g)} {K : Settings g → Prop} (hK : ∀ i ∈ is, K i.settings)
    {p : Capture g} (hp : p ∈ captures is) : K p.settings := by
  have hall := along_of_forall (machine g).track (afterReset g) hK
  refine hall.forall_collect (Q := fun p => K p.settings) (fun t i hi p hp => ?_) p hp
  rw [captureOut] at hp
  split at hp
  · rw [List.mem_singleton.mp hp]
    exact hi
  · simp at hp

/-- In a run whose settings stay during each recording, what passes is a sequence of whole
recordings, each with its trigger in its place. -/
theorem scopeLaw (is : List (In g)) (h : Along (machine g).track Steady (afterReset g) is) :
    ScopeLaw is := by
  have hinv := inv_run h
  exact ⟨hinv.captured, forwarded_run h, st_run is ▸ hinv.enabled, st_run is ▸ hinv.kept⟩

/-- The instance of `adc_recorder_trigger`. -/
def Generics.recorder : Generics := ⟨32, 23, by decide⟩

def In.word (w : BitVec 32) (run trg : Bool) : In .recorder where
  aresetn := true
  runFlag := run
  trgFlag := trg
  preData := 1
  totData := 5
  sAxisTdata := w
  sAxisTvalid := true

/-- Two words before the trigger is waited for, the trigger with word 3, and two words more. -/
def oneRecording : List (In .recorder) :=
  [In.word 9 true false, In.word 10 false false, In.word 11 false true, In.word 12 false false,
    In.word 13 false true, In.word 14 false false, In.word 15 false false, In.word 16 false false]

theorem scopeLaw_oneRecording :
    (captures oneRecording).map (fun p => p.words.map Prod.fst) = [[10, 11, 12, 13, 14, 15]] ∧
      ScopeLaw oneRecording :=
  ⟨by decide +kernel, scopeLaw oneRecording (by decide +kernel)⟩

end LagoEcosystem.Oscilloscope
