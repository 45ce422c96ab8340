import LagoEcosystem.Histogram.Core
import LagoEcosystem.Library.BitFields
import Mathlib.Data.List.Basic
import Mathlib.Tactic.Common

/-!
# How many samples are counted

The counter `cntr_reg` runs in every cycle in which the core waits with `tready` high and
counting enabled, whether a sample is there or not. It is the number of samples exactly if
the stream never makes the core wait; then the core takes `cfg_data - 1` samples.
-/

namespace LagoEcosystem.Histogram

open BitFields Clocked

variable {g : Generics}

/-- A cycle out of reset with the limit `cfg`. -/
def In.Configured (cfg : BitVec g.cntrWidth) (i : In g) : Prop :=
  i.aresetn = true ∧ i.cfgData = cfg

/-- The number of samples that the limit `cfg` fixes. -/
def limit (cfg : BitVec g.cntrWidth) : ℕ := cfg.toNat - 1

/-- The account of the samples at every point of the run `is`. -/
structure AccountLaw (bram : Bram g) (cfg : BitVec g.cntrWidth) (is : List (In g)) : Prop where
  /-- While the core waits, the status word is the number of samples added. -/
  stsData : ∀ js, js <+: is → (after bram js).stateReg = .stReadAddr →
    (after bram js).cntrReg.toNat = (added bram js).length
  /-- While the core waits, the samples added are the transferred ones up to the limit. -/
  once : ∀ js, js <+: is → (after bram js).stateReg = .stReadAddr →
    added bram js = (transferred bram js).take (limit cfg)
  /-- The core waits in vain for the next sample exactly when the limit is reached. -/
  stopped : ∀ js, js <+: is → (after bram js).stateReg = .stReadAddr →
    ((after bram js).compReg = false ↔ (added bram js).length = limit cfg)
  bounded : ∀ js, js <+: is → (added bram js).length ≤ limit cfg

/-- No gap in the stream while the core waits and counting is enabled. -/
def NoGap (s : St g) (i : In g) : Prop :=
  s.stateReg = .stReadAddr → s.compReg = true → i.sAxisTvalid = true

instance (s : St g) (i : In g) : Decidable (NoGap s i) :=
  inferInstanceAs (Decidable (_ → _ → _))

/-! ## The ready flag -/

/-- The core is ready exactly while it waits. -/
def ReadyWaits (s : St g) : Prop := s.treadyReg = true ↔ s.stateReg = .stReadAddr

theorem readyWaits_next {s : St g} (h : ReadyWaits s) (i : In g) : ReadyWaits (s.next i) := by
  unfold ReadyWaits at h ⊢
  cases hst : s.stateReg <;> simp only [St.next, St.treadyNext, St.stateNext, hst] <;> grind

theorem readyWaits_after (bram : Bram g) {is : List (In g)} (h : ∀ i ∈ is, i.aresetn = true) :
    ReadyWaits (after bram is) := by
  have hstart : ReadyWaits (St.reset bram) := by simp [ReadyWaits, St.reset]
  refine (along_of_forall step (St.reset bram) h).invariant hstart ?_
  intro s i hs hi
  rw [step_of_aresetn hi]
  exact readyWaits_next hs i

/-- A gap is counted as a sample. -/
theorem gap_counts {s : St g} {i : In g} (h : ReadyWaits s) (hst : s.stateReg = .stReadAddr)
    (hcomp : s.compReg = true) (hgap : i.sAxisTvalid = false) :
    (s.next i).stateReg = .stReadAddr ∧ (s.next i).cntrReg = s.cntrReg + 1 ∧ addOut s i = [] := by
  have hready : s.treadyReg = true := h.mpr hst
  rw [next_stReadAddr hst (by simp [St.takes, hgap])]
  refine ⟨hst, ?_, ?_⟩
  · simp [St.tick, St.cntrNext, hcomp, hready]
  · simp [addOut, hst]

/-! ## The invariant without gaps -/

/-- The account after the samples `T` were transferred and `A` were added. -/
def Accounted (cfg : BitVec g.cntrWidth) (s : St g) (T A : List (Bin g)) : Prop :=
  match s.stateReg with
  | .stIdle | .stWriteZeros => T = [] ∧ A = [] ∧ s.cntrReg.toNat = 0
  | .stReadAddr => s.cntrReg.toNat = A.length ∧ A = T.take (limit cfg) ∧
      A.length ≤ limit cfg ∧ (s.compReg = false ↔ A.length = limit cfg)
  | .stDelay1 | .stIncData | .stDelay2 => T = A ++ [s.addrReg] ∧
      s.cntrReg.toNat = A.length + 1 ∧ A.length + 1 ≤ limit cfg

section Step

variable {cfg : BitVec g.cntrWidth} {s : St g} {i : In g} {T A : List (Bin g)}

theorem toNat_limit (hcfg : 2 ≤ cfg.toNat) : (cfg - 1).toNat = limit cfg := by
  rw [toNat_sub_one (by omega)]
  rfl

/-- The comparison, one clock late. -/
theorem compNext_eq_false_iff (hcfg : 2 ≤ cfg.toNat) (hi : i.cfgData = cfg) :
    s.compNext i = false ↔ s.cntrReg.toNat = limit cfg := by
  rw [St.compNext, hi, bne_eq_false_iff_eq, ← BitVec.toNat_inj, toNat_limit hcfg]

/-- Outside `ST_READ_ADDR` nothing is transferred and nothing is counted. -/
theorem tick_of_busy (hr : ReadyWaits s) (hst : s.stateReg ≠ .stReadAddr) :
    (s.tick i).cntrReg = s.cntrReg ∧ transferOut s i = [] := by
  have hready : s.treadyReg = false := by simpa using fun ht => hst (hr.mp ht)
  simp [St.tick, St.cntrNext, transferOut, hready]

/-- Outside `ST_DELAY2` nothing is added. -/
theorem addOut_eq_nil (hst : s.stateReg ≠ .stDelay2) : addOut s i = [] := if_neg hst

/-- The last edge of the zeroing phase opens the account. -/
theorem accounted_writeZeros (hcfg : 2 ≤ cfg.toNat) (hr : ReadyWaits s) (hi : i.cfgData = cfg)
    (hst : s.stateReg = .stWriteZeros) (hzero : s.cntrReg.toNat = 0) :
    Accounted cfg (s.next i) [] [] := by
  have hcntr := (tick_of_busy (i := i) hr (by simp [hst])).1
  have hcomp := compNext_eq_false_iff (s := s) hcfg hi
  by_cases hlast : s.addrReg = BitVec.allOnes _
  · rw [next_stWriteZeros_last hst hlast]
    refine ⟨?_, List.take_nil.symm, Nat.zero_le _, ?_⟩
    · show (s.tick i).cntrReg.toNat = 0
      rw [hcntr, hzero]
    · show s.compNext i = false ↔ 0 = limit cfg
      rw [hcomp, hzero]
  · have hstate : (s.tick i).stateReg = .stWriteZeros := hst
    rw [next_stWriteZeros hst hlast]
    simp only [Accounted, hstate, hcntr]
    exact ⟨trivial, trivial, hzero⟩

/-- A cycle in which the core waits in vain, since the limit is reached. -/
theorem accounted_stopped (hcfg : 2 ≤ cfg.toNat) (hi : i.cfgData = cfg)
    (hst : s.stateReg = .stReadAddr) (hon : s.compReg = false) (h : Accounted cfg s T A) :
    Accounted cfg (s.next i) (T ++ transferOut s i) A := by
  have hcomp := compNext_eq_false_iff (s := s) hcfg hi
  simp only [Accounted, hst] at h
  obtain ⟨hcount, htake, hle, hstop⟩ := h
  have hfull := hstop.mp hon
  have hlen : limit cfg ≤ T.length := by
    rw [htake, List.length_take] at hfull
    omega
  have hstate : (s.tick i).stateReg = .stReadAddr := hst
  have hcntr : (s.tick i).cntrReg = s.cntrReg := by simp [St.tick, St.cntrNext, hon]
  have hcomp' : (s.tick i).compReg = s.compNext i := rfl
  rw [next_stReadAddr hst (by simp [St.takes, hon])]
  simp only [Accounted, hstate, hcntr, hcomp', hcomp]
  refine ⟨hcount, ?_, hle, by rw [hcount]⟩
  rw [List.take_append_of_le_length hlen]
  exact htake

/-- A sample that is taken is transferred and counted. -/
theorem accounted_take (hr : ReadyWaits s) (hst : s.stateReg = .stReadAddr)
    (hon : s.compReg = true) (hvalid : i.sAxisTvalid = true) (h : Accounted cfg s T A) :
    Accounted cfg (s.next i) (T ++ transferOut s i) A := by
  simp only [Accounted, hst] at h
  obtain ⟨hcount, htake, hle, hstop⟩ := h
  have hready : s.treadyReg = true := hr.mpr hst
  have hlt : A.length < limit cfg := by
    have hne : A.length ≠ limit cfg := fun heq => by simp [hstop.mpr heq] at hon
    omega
  have hall : A = T := by
    rw [htake, List.take_of_length_le]
    rw [htake, List.length_take] at hlt
    omega
  have hfit : s.cntrReg.toNat + 1 < 2 ^ g.cntrWidth := by
    have hbound := cfg.isLt
    unfold limit at hlt
    omega
  have hstep : s.cntrNext = s.cntrReg + 1 := by simp [St.cntrNext, hon, hready]
  have hout : transferOut s i = [i.bin] := by simp [transferOut, hvalid, hready]
  rw [next_stReadAddr_take hst (by simp [St.takes, hon, hvalid]), hout]
  refine ⟨by rw [hall], ?_, hlt⟩
  show (s.cntrNext).toNat = _
  rw [hstep, toNat_add_one hfit, hcount]

/-- The sample that was taken is added to its bin. -/
theorem accounted_add (hcfg : 2 ≤ cfg.toNat) (hi : i.cfgData = cfg) (hst : s.stateReg = .stDelay2)
    (hcntr : (s.tick i).cntrReg = s.cntrReg) (h : Accounted cfg s T A) :
    Accounted cfg (s.next i) T (A ++ addOut s i) := by
  simp only [Accounted, hst] at h
  obtain ⟨hT, hcount, hle⟩ := h
  have hadd : addOut s i = [s.addrReg] := if_pos hst
  have hlen : (A ++ [s.addrReg]).length = A.length + 1 := List.length_append
  rw [hadd, next_stDelay2 hst, hT]
  refine ⟨?_, ?_, by rw [hlen]; exact hle, ?_⟩
  · show (s.tick i).cntrReg.toNat = _
    rw [hcntr, hcount, hlen]
  · rw [List.take_of_length_le (by rw [hlen]; exact hle)]
  · show s.compNext i = false ↔ _
    rw [compNext_eq_false_iff hcfg hi, hcount, hlen]

theorem accounted_next (hcfg : 2 ≤ cfg.toNat) (hr : ReadyWaits s) (hi : i.cfgData = cfg)
    (hgap : NoGap s i) (h : Accounted cfg s T A) :
    Accounted cfg (s.next i) (T ++ transferOut s i) (A ++ addOut s i) := by
  by_cases hwait : s.stateReg = .stReadAddr
  · rw [addOut_eq_nil (by simp [hwait]), List.append_nil]
    cases hon : s.compReg with
    | false => exact accounted_stopped hcfg hi hwait hon h
    | true => exact accounted_take hr hwait hon (hgap hwait hon) h
  obtain ⟨hcntr, hnone⟩ := tick_of_busy (i := i) hr hwait
  rw [hnone, List.append_nil]
  cases hst : s.stateReg with
  | stReadAddr => exact absurd hst hwait
  | stIdle =>
    simp only [Accounted, hst] at h
    obtain ⟨rfl, rfl, hzero⟩ := h
    rw [addOut_eq_nil (by simp [hst]), next_stIdle hst]
    refine ⟨rfl, rfl, ?_⟩
    show (s.tick i).cntrReg.toNat = 0
    rw [hcntr, hzero]
  | stWriteZeros =>
    simp only [Accounted, hst] at h
    obtain ⟨rfl, rfl, hzero⟩ := h
    rw [addOut_eq_nil (by simp [hst])]
    exact accounted_writeZeros hcfg hr hi hst hzero
  | stDelay1 =>
    simp only [Accounted, hst] at h
    obtain ⟨hT, hcount, hle⟩ := h
    rw [addOut_eq_nil (by simp [hst]), List.append_nil, next_stDelay1 hst]
    refine ⟨hT, ?_, hle⟩
    show (s.tick i).cntrReg.toNat = _
    rw [hcntr, hcount]
  | stIncData =>
    simp only [Accounted, hst] at h
    obtain ⟨hT, hcount, hle⟩ := h
    rw [addOut_eq_nil (by simp [hst]), List.append_nil, next_stIncData hst]
    refine ⟨hT, ?_, hle⟩
    show (s.tick i).cntrReg.toNat = _
    rw [hcntr, hcount]
  | stDelay2 => exact accounted_add hcfg hi hst hcntr h

end Step

/-! ## Runs -/

section Run

variable {bram : Bram g} {cfg : BitVec g.cntrWidth} {is : List (In g)}

theorem accounted_after (hcfg : 2 ≤ cfg.toNat) (h : ∀ i ∈ is, i.Configured cfg)
    (hgap : Along step NoGap (.reset bram) is) :
    Accounted cfg (after bram is) (transferred bram is) (added bram is) := by
  have hstart : Accounted cfg (St.reset bram) [] [] := by simp [Accounted, St.reset]
  have halong := (along_of_forall step (St.reset bram) h).and hgap
  refine halong.induction_on_past
    (P := fun js => Accounted cfg (after bram js) (transferred bram js) (added bram js))
    hstart ?_
  rintro js i hpast hjs ⟨⟨hres, hc⟩, hi⟩
  have hready : ReadyWaits (after bram js) :=
    readyWaits_after bram (hpast.forall_input fun _ _ h => h.1.1)
  rw [after_snoc, transferred_snoc, added_snoc, step_of_aresetn hres]
  exact accounted_next hcfg hready hc hi hjs

/-- While the account is right, no cycle has a gap that is counted. -/
theorem noGap_of_account (hcfg : 2 ≤ cfg.toNat) (h : ∀ i ∈ is, i.Configured cfg)
    (hlaw : AccountLaw bram cfg is) : Along step NoGap (.reset bram) is := by
  refine along_of_forall_snoc fun js i hjs hst hcomp => ?_
  by_contra hgap
  rw [Bool.not_eq_true] at hgap
  have hjs' : js <+: is := (List.prefix_append js [i]).trans hjs
  have hres : i.aresetn = true := (h i (hjs.subset (by simp))).1
  have hready : ReadyWaits (after bram js) :=
    readyWaits_after bram fun j hj => (h j (hjs'.subset hj)).1
  obtain ⟨hnext, hcntr, hadd⟩ := gap_counts hready hst hcomp hgap
  have hbefore := hlaw.stsData js hjs' hst
  have hstep : after bram (js ++ [i]) = (after bram js).next i := by
    rw [after_snoc, step_of_aresetn hres]
  have hafter := hlaw.stsData (js ++ [i]) hjs (by rw [hstep]; exact hnext)
  rw [hstep, added_snoc, hadd, List.append_nil, hcntr, ← hbefore] at hafter
  exact toNat_add_one_ne (Nat.lt_of_succ_lt (hcfg.trans_lt cfg.isLt)) hafter

/-- The account is right in exactly the runs in which the stream has a sample ready whenever
the core waits for one. -/
theorem accountLaw_iff (bram : Bram g) (cfg : BitVec g.cntrWidth) (is : List (In g))
    (hcfg : 2 ≤ cfg.toNat) (h : ∀ i ∈ is, i.Configured cfg) :
    AccountLaw bram cfg is ↔ Along step NoGap (.reset bram) is := by
  refine ⟨noGap_of_account hcfg h, fun hgap => ?_⟩
  have hpoint : ∀ js, js <+: is →
      Accounted cfg (after bram js) (transferred bram js) (added bram js) := fun js hjs =>
    accounted_after hcfg (fun i hi => h i (hjs.subset hi)) (hgap.of_isPrefix hjs)
  have hwait : ∀ js, js <+: is → (after bram js).stateReg = .stReadAddr →
      (after bram js).cntrReg.toNat = (added bram js).length ∧
      added bram js = (transferred bram js).take (limit cfg) ∧
      (added bram js).length ≤ limit cfg ∧
      ((after bram js).compReg = false ↔ (added bram js).length = limit cfg) := by
    intro js hjs hst
    have hacc := hpoint js hjs
    simpa only [Accounted, hst] using hacc
  refine ⟨fun js hjs hst => (hwait js hjs hst).1, fun js hjs hst => (hwait js hjs hst).2.1,
    fun js hjs hst => (hwait js hjs hst).2.2.2, fun js hjs => ?_⟩
  have hacc := hpoint js hjs
  unfold Accounted at hacc
  cases hst : (after bram js).stateReg <;> simp only [hst] at hacc
  case stIdle | stWriteZeros => simp [hacc.2.1]
  case stReadAddr => exact hacc.2.2.1
  case stDelay1 | stIncData | stDelay2 => omega

end Run

/-! ## The zeroing phase ends -/

/-- In the zeroing phase with `n` words written. -/
structure Zeroing (s : St g) (n : ℕ) : Prop where
  state : s.stateReg = .stWriteZeros
  addr : s.addrReg.toNat = n
  cntr : s.cntrReg = 0
  tready : s.treadyReg = false

theorem Zeroing.next {s : St g} {n : ℕ} (h : Zeroing s n) (hn : n + 1 < 2 ^ g.bramAddrWidth)
    (i : In g) : Zeroing (s.next i) (n + 1) := by
  obtain ⟨hst, haddr, hcntr, hready⟩ := h
  have hlast : s.addrReg ≠ BitVec.allOnes _ := by
    intro hlast
    rw [hlast, BitVec.toNat_allOnes] at haddr
    omega
  rw [next_stWriteZeros hst hlast]
  refine ⟨hst, ?_, by simp [St.tick, St.cntrNext, hready, hcntr], hready⟩
  show (s.addrReg + 1).toNat = n + 1
  rw [toNat_add_one (by omega), haddr]

/-- The core waits for its first sample once every word is written, and no earlier. -/
theorem zeroing_after (bram : Bram g) {is : List (In g)} (h : ∀ i ∈ is, i.aresetn = true) {n : ℕ}
    (hlen : is.length = n + 1) (hn : n < 2 ^ g.bramAddrWidth) :
    Zeroing (after bram is) n ∧ added bram is = [] := by
  induction n generalizing is with
  | zero =>
    obtain ⟨i, rfl⟩ := List.length_eq_one_iff.mp hlen
    have hrun : after bram [i] = (St.reset bram).next i := step_of_aresetn (h i (by simp))
    refine ⟨?_, rfl⟩
    rw [hrun, next_stIdle rfl]
    constructor <;> simp [St.tick, St.cntrNext, St.reset]
  | succ n ih =>
    obtain ⟨js, i, rfl⟩ := (List.eq_nil_or_concat' is).resolve_left (by rintro rfl; cases hlen)
    have hjs : js.length = n + 1 := by simpa using hlen
    obtain ⟨hzero, hadd⟩ := ih (fun j hj => h j (List.mem_append_left [i] hj)) hjs (by omega)
    rw [after_snoc, added_snoc, step_of_aresetn (h i (by simp)), hadd]
    exact ⟨hzero.next hn i, by simp [addOut, hzero.state]⟩

/-- The cycle that writes the last word. -/
theorem Zeroing.last {s : St g} (h : Zeroing s (2 ^ g.bramAddrWidth - 1)) :
    s.addrReg = BitVec.allOnes _ := by
  apply BitVec.eq_of_toNat_eq
  rw [h.addr, BitVec.toNat_allOnes]

theorem wait_after_zeroing (bram : Bram g) {is : List (In g)} (his : ∀ j ∈ is, j.aresetn = true)
    (hlen : is.length = 2 ^ g.bramAddrWidth) {i : In g} (hi : i.aresetn = true)
    (hcfg : i.cfgData ≠ 1) :
    (after bram (is ++ [i])).stateReg = .stReadAddr ∧ (after bram (is ++ [i])).compReg = true ∧
      (after bram (is ++ [i])).cntrReg = 0 := by
  have hpos := Nat.two_pow_pos g.bramAddrWidth
  obtain ⟨hzero, -⟩ := zeroing_after bram his (n := 2 ^ g.bramAddrWidth - 1) (by omega) (by omega)
  rw [after_snoc, step_of_aresetn hi]
  refine ⟨by simp [St.next, St.stateNext, hzero.state, hzero.last], ?_,
    by simp [St.next, St.cntrNext, hzero.tready, hzero.cntr]⟩
  have hne : (0 : BitVec g.cntrWidth) ≠ i.cfgData - 1 := by
    intro heq
    exact hcfg (by rw [← BitVec.sub_add_cancel i.cfgData 1, ← heq]; simp)
  show (St.compNext _ i) = true
  rw [St.compNext, hzero.cntr]
  exact bne_iff_ne.mpr hne

theorem In.Configured.ne_one {cfg : BitVec g.cntrWidth} {i : In g} (hi : i.Configured cfg)
    (hcfg : 2 ≤ cfg.toNat) : i.cfgData ≠ 1 := by
  have hone : (1 : BitVec g.cntrWidth).toNat = 1 :=
    toNat_one (Nat.lt_of_succ_lt (hcfg.trans_lt cfg.isLt))
  intro h
  rw [← hi.2, h, hone] at hcfg
  omega

theorem waits_in_gaps (bram : Bram g) {cfg : BitVec g.cntrWidth} (hcfg : 2 ≤ cfg.toNat)
    {i : In g} (hi : i.Configured cfg) :
    (after bram (List.replicate (2 ^ g.bramAddrWidth + 1) i)).stateReg = .stReadAddr ∧
    (after bram (List.replicate (2 ^ g.bramAddrWidth + 1) i)).compReg = true ∧
    (after bram (List.replicate (2 ^ g.bramAddrWidth + 1) i)).cntrReg = 0 := by
  rw [List.replicate_succ']
  exact wait_after_zeroing bram (fun j hj => by rw [List.eq_of_mem_replicate hj, hi.1])
    List.length_replicate hi.1 (hi.ne_one hcfg)

/-- With samples in every cycle the first one has been counted one cycle later. -/
theorem counts_first (bram : Bram g) {cfg : BitVec g.cntrWidth} (hcfg : 2 ≤ cfg.toNat)
    {is : List (In g)} (his : ∀ i ∈ is, i.Configured cfg)
    (hlen : is.length = 2 ^ g.bramAddrWidth + 2) : (after bram is).cntrReg = 1 := by
  obtain ⟨js, j, rfl⟩ := (List.eq_nil_or_concat' is).resolve_left (by rintro rfl; cases hlen)
  obtain ⟨ks, k, rfl⟩ := (List.eq_nil_or_concat' js).resolve_left (by rintro rfl; simp at hlen)
  have hk := his k (by simp)
  have hrunning : ∀ i ∈ ks ++ [k], i.aresetn = true := fun i hi =>
    (his i (List.mem_append_left _ hi)).1
  obtain ⟨hst, hcomp, hcntr⟩ := wait_after_zeroing bram
    (fun i hi => hrunning i (List.mem_append_left _ hi)) (by simpa using hlen) hk.1
    (hk.ne_one hcfg)
  have hready := (readyWaits_after bram hrunning).mpr hst
  rw [after_snoc, step_of_aresetn (his j (by simp)).1]
  show St.cntrNext _ = 1
  simp [St.cntrNext, hcomp, hready, hcntr]

/-- With nothing but gaps in the stream the core counts clock cycles up to the limit. -/
theorem counts_gaps (bram : Bram g) {cfg : BitVec g.cntrWidth} (hcfg : 2 ≤ cfg.toNat) {i : In g}
    (hi : i.Configured cfg) (hgap : i.sAxisTvalid = false) {k : ℕ} (hk : k ≤ limit cfg) :
    (after bram (List.replicate (2 ^ g.bramAddrWidth + 1 + k) i)).stateReg = .stReadAddr ∧
    (after bram (List.replicate (2 ^ g.bramAddrWidth + 1 + k) i)).compReg = true ∧
    (after bram (List.replicate (2 ^ g.bramAddrWidth + 1 + k) i)).cntrReg.toNat = k := by
  have hlim : limit cfg < 2 ^ g.cntrWidth := (Nat.sub_le _ _).trans_lt cfg.isLt
  induction k with
  | zero =>
    obtain ⟨hst, hcomp, hcntr⟩ := waits_in_gaps bram hcfg hi
    exact ⟨hst, hcomp, by rw [Nat.add_zero, hcntr]; rfl⟩
  | succ k ih =>
    obtain ⟨hst, hcomp, hcntr⟩ := ih (by omega)
    have hready : ReadyWaits (after bram (List.replicate (2 ^ g.bramAddrWidth + 1 + k) i)) :=
      readyWaits_after bram fun j hj => by rw [List.eq_of_mem_replicate hj, hi.1]
    obtain ⟨hst', hcntr', -⟩ := gap_counts hready hst hcomp hgap
    rw [← Nat.add_assoc, List.replicate_succ', after_snoc, step_of_aresetn hi.1]
    refine ⟨hst', ?_, ?_⟩
    · -- The comparison sees the count before this edge, which is below the limit.
      have hbelow := (compNext_eq_false_iff hcfg hi.2).not.mpr (by rw [hcntr]; omega)
      exact Bool.eq_true_of_not_eq_false hbelow
    · rw [hcntr', toNat_add_one (by omega), hcntr]

theorem accountLaw_dense :
    AccountLaw (g := .blockDesign) ⟨fun _ => 7, 7, 7⟩ 1000 (List.replicate 30000 .sample) :=
  (accountLaw_iff _ 1000 (List.replicate 30000 .sample) (by decide)
    (fun i hi => by rw [List.eq_of_mem_replicate hi]; exact ⟨rfl, rfl⟩)).mpr
  ((along_of_forall step _ (K := fun i => i.sAxisTvalid = true)
    (fun i hi => by rw [List.eq_of_mem_replicate hi]; rfl)).mono fun _ _ hv _ _ => hv)

/-- The first sample is late by one cycle. -/
def lateRun : List (In .blockDesign) := List.replicate (2 ^ 14 + 1) In.gap ++ [In.gap]

/-- The gap is counted: `sts_data` and the number of samples differ. -/
theorem not_accountLaw_lateRun :
    (∀ i ∈ lateRun, i.Configured 1000) ∧
      ¬ AccountLaw (g := .blockDesign) ⟨fun _ => 0, 0, 0⟩ 1000 lateRun := by
  have hconf : ∀ i ∈ lateRun, i.Configured 1000 := by
    intro i hi
    have hgap : i = .gap := by
      rcases List.mem_append.mp hi with hi | hi
      · exact List.eq_of_mem_replicate hi
      · exact List.mem_singleton.mp hi
    rw [hgap]
    exact ⟨rfl, rfl⟩
  refine ⟨hconf, fun hlaw => ?_⟩
  have hgap := ((along_append step NoGap _ _ _).mp (noGap_of_account (by decide) hconf hlaw)).2
  obtain ⟨hst, hcomp, -⟩ := waits_in_gaps (g := .blockDesign) ⟨fun _ => 0, 0, 0⟩
    (show 2 ≤ (1000 : BitVec 32).toNat by decide) (show In.gap.Configured 1000 from ⟨rfl, rfl⟩)
  exact absurd (hgap.1 hst hcomp) (by decide)

end LagoEcosystem.Histogram
