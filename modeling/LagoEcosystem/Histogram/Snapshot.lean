import LagoEcosystem.Histogram.Account
import LagoEcosystem.Histogram.Bins

/-!
# The memory at any moment

Another port of the memory can be read while the core goes on counting. At every moment after the
zeroing phase the words are the saturated numbers of the samples added so far, and a sample that
was taken is added three clocks later. Three clocks after the limit was reached, nothing changes
any more.
-/

namespace LagoEcosystem.Histogram

open Clocked Saturating

variable {g : Generics}

/-- The sample that was taken and is not in the memory yet. -/
def St.pending (s : St g) : List (Bin g) :=
  match s.stateReg with
  | .stDelay1 | .stIncData | .stDelay2 => [s.addrReg]
  | .stIdle | .stWriteZeros | .stReadAddr => []

theorem pending_next (s : St g) (i : In g) :
    s.pending ++ accumulateOut s i = addOut s i ++ (s.next i).pending := by
  cases hst : s.stateReg with
  | stIdle => simp [St.pending, accumulateOut, addOut, hst, next_stIdle hst]
  | stWriteZeros =>
    by_cases hlast : s.addrReg = BitVec.allOnes _
    · simp [St.pending, accumulateOut, addOut, hst, next_stWriteZeros_last hst hlast]
    · simp [St.pending, accumulateOut, addOut, hst, next_stWriteZeros hst hlast, St.tick]
  | stReadAddr =>
    cases htake : s.takes i with
    | false => simp [St.pending, accumulateOut, addOut, hst, htake, next_stReadAddr hst htake, St.tick]
    | true => simp [St.pending, accumulateOut, addOut, hst, htake, next_stReadAddr_take hst htake]
  | stDelay1 => simp [St.pending, accumulateOut, addOut, hst, next_stDelay1 hst, St.tick]
  | stIncData => simp [St.pending, accumulateOut, addOut, hst, next_stIncData hst, St.tick]
  | stDelay2 => simp [St.pending, accumulateOut, addOut, hst, next_stDelay2 hst]

section Run

variable {bram : Bram g} {is js : List (In g)}

/-- What was taken is added or about to be. -/
theorem accumulated_eq (h : ∀ i ∈ is, i.aresetn = true) :
    accumulated bram is = added bram is ++ (after bram is).pending := by
  have hflow : ∀ s (i : In g), i.aresetn = true →
      s.pending ++ accumulateOut s i = addOut s i ++ (step s i).pending := fun s i hi => by
    rw [step_of_aresetn hi]
    exact pending_next s i
  exact (along_of_forall step (St.reset bram) h).conserve hflow

/-- After the zeroing phase the memory counts the samples added. -/
theorem counts_added (h : ∀ i ∈ is, i.aresetn = true) (hz : (after bram is).Zeroed) :
    (after bram is).bram.Counts (added bram is) := by
  have hbinned := binned_after bram h
  rw [accumulated_eq h] at hbinned
  obtain ⟨hidle, hzeros⟩ := hz
  unfold Binned at hbinned
  cases hst : (after bram is).stateReg with
  | stIdle => exact absurd hst hidle
  | stWriteZeros => exact absurd hst hzeros
  | stReadAddr =>
    simp only [hst, St.pending, List.append_nil] at hbinned
    exact hbinned.2
  | stDelay1 | stIncData =>
    simp only [hst, St.pending] at hbinned
    obtain ⟨-, ⟨done, heq, hcounts⟩, -⟩ := hbinned
    rwa [List.append_cancel_right heq]
  | stDelay2 =>
    simp only [hst, St.pending] at hbinned
    obtain ⟨⟨done, heq, hcounts⟩, -⟩ := hbinned
    rwa [List.append_cancel_right heq]

/-- The samples added up to a moment and up to a later one. -/
theorem added_append (js : List (In g)) : added bram is <+: added bram (is ++ js) := by
  rw [added, added, collect_append]
  exact List.prefix_append _ _

/-- A word of the memory only grows. -/
theorem mem_append_le (h : ∀ i ∈ is ++ js, i.aresetn = true) (hz : (after bram is).Zeroed)
    (b : Bin g) : (after bram is).bram.mem b ≤ (after bram (is ++ js)).bram.mem b := by
  have his : ∀ i ∈ is, i.aresetn = true := fun i hi => h i (List.mem_append_left js hi)
  have hjs : ∀ i ∈ js, i.aresetn = true := fun i hi => h i (List.mem_append_right is hi)
  have hprefix : added bram is <+: added bram (is ++ js) := added_append js
  have hcount := hprefix.sublist.count_le b
  rw [counts_added his hz b, counts_added h (zeroed_append hz hjs) b, BitVec.le_def, toNat_sat,
    toNat_sat]
  omega

/-! ## The other port -/

/-- A word read at the other port. What is read of a word that is just being written is not
defined. -/
def St.readout (s : St g) (b : Bin g) (collision : Count g) : Count g :=
  if s.wrenReg ∧ s.addrReg = b then collision else s.bram.mem b

/-! ## The limit -/

/-- The clocks until the sample on its way is added. -/
def St.busy (s : St g) : ℕ :=
  match s.stateReg with
  | .stDelay1 => 3
  | .stIncData => 2
  | .stDelay2 => 1
  | .stIdle | .stWriteZeros | .stReadAddr => 0

theorem busy_le (s : St g) : s.busy ≤ 3 := by
  unfold St.busy
  split <;> decide

variable {cfg : BitVec g.cntrWidth} {T A : List (Bin g)}

/-- At the limit the counter stays, and no further sample is taken. -/
theorem full_next {s : St g} {i : In g} (hcfg : 2 ≤ cfg.toNat) (hr : ReadyWaits s)
    (hacc : Accounted cfg s T A) (hfull : s.cntrReg.toNat = limit cfg) :
    (s.next i).cntrReg.toNat = limit cfg ∧ (s.next i).busy = s.busy - 1 := by
  have hpos : 1 ≤ limit cfg := by
    unfold limit
    omega
  unfold Accounted at hacc
  by_cases hwait : s.stateReg = .stReadAddr
  · simp only [hwait] at hacc
    have hon : s.compReg = false := hacc.2.2.2.mpr (by omega)
    rw [next_stReadAddr hwait (by simp [St.takes, hon])]
    refine ⟨?_, by simp [St.busy, St.tick, hwait]⟩
    show s.cntrNext.toNat = _
    rw [St.cntrNext, hon]
    exact hfull
  · obtain ⟨hcntr, -⟩ := tick_of_busy (i := i) hr hwait
    rw [← hcntr] at hfull
    cases hst : s.stateReg with
    | stReadAddr => exact absurd hst hwait
    | stIdle | stWriteZeros =>
      simp only [hst] at hacc
      rw [hcntr] at hfull
      omega
    | stDelay1 =>
      rw [next_stDelay1 hst]
      exact ⟨hfull, by simp [St.busy, hst]⟩
    | stIncData =>
      rw [next_stIncData hst]
      exact ⟨hfull, by simp [St.busy, hst]⟩
    | stDelay2 =>
      rw [next_stDelay2 hst]
      exact ⟨hfull, by simp [St.busy, hst]⟩

/-- The stream cannot make a core wait that has stopped. -/
theorem noGap_of_full {s : St g} {i : In g} (hacc : Accounted cfg s T A)
    (hfull : s.cntrReg.toNat = limit cfg) : NoGap s i := by
  intro hst hon
  simp only [Accounted, hst] at hacc
  have hoff : s.compReg = false := hacc.2.2.2.mpr (by omega)
  simp [hon] at hoff

theorem full_append (hcfg : 2 ≤ cfg.toNat) (h : ∀ i ∈ is ++ js, i.Configured cfg)
    (hgap : Along step NoGap (.reset bram) is)
    (hfull : (after bram is).cntrReg.toNat = limit cfg) :
    Along step NoGap (.reset bram) (is ++ js) ∧
      (after bram (is ++ js)).cntrReg.toNat = limit cfg ∧
      (after bram (is ++ js)).busy ≤ 3 - js.length := by
  induction js using List.reverseRecOn with
  | nil => exact ⟨by rwa [List.append_nil], by rwa [List.append_nil], busy_le _⟩
  | append_singleton js i ih =>
    rw [← List.append_assoc] at h ⊢
    have hpast : ∀ j ∈ is ++ js, j.Configured cfg := fun j hj => h j (List.mem_append_left [i] hj)
    obtain ⟨hgap', hcntr, hbusy⟩ := ih hpast
    have hacc := accounted_after hcfg hpast hgap'
    have hready := readyWaits_after bram fun j hj => (hpast j hj).1
    obtain ⟨hcntr', hbusy'⟩ := full_next (i := i) hcfg hready hacc hcntr
    refine ⟨(along_append step NoGap _ _ _).mpr ⟨hgap', noGap_of_full hacc hcntr, trivial⟩, ?_⟩
    rw [after_snoc, step_of_aresetn (h i (by simp)).1, List.length_append, List.length_singleton]
    exact ⟨hcntr', by omega⟩

/-- Three clocks after the limit was reached, the memory counts the samples up to it. -/
theorem counts_full (hcfg : 2 ≤ cfg.toNat) (h : ∀ i ∈ is ++ js, i.Configured cfg)
    (hgap : Along step NoGap (.reset bram) is)
    (hfull : (after bram is).cntrReg.toNat = limit cfg) (hjs : 3 ≤ js.length) :
    (after bram (is ++ js)).wrenReg = false ∧
      (after bram (is ++ js)).bram.Counts ((transferred bram (is ++ js)).take (limit cfg)) := by
  obtain ⟨hgap', hcntr, hbusy⟩ := full_append hcfg h hgap hfull
  have hres : ∀ i ∈ is ++ js, i.aresetn = true := fun i hi => (h i hi).1
  have hacc := accounted_after hcfg h hgap'
  have hbinned := binned_after bram hres
  have hpos : 1 ≤ limit cfg := by
    unfold limit
    omega
  cases hst : (after bram (is ++ js)).stateReg with
  | stIdle | stWriteZeros =>
    simp only [Accounted, hst] at hacc
    omega
  | stDelay1 | stIncData | stDelay2 =>
    simp only [St.busy, hst] at hbusy
    omega
  | stReadAddr =>
    simp only [Accounted, hst] at hacc
    simp only [Binned, hst] at hbinned
    refine ⟨hbinned.1, ?_⟩
    rw [← hacc.2.1]
    exact counts_added hres ⟨by simp [hst], by simp [hst]⟩

/-- The limit is reached with so many samples. -/
theorem le_length_of_full (hcfg : 2 ≤ cfg.toNat) (h : ∀ i ∈ is, i.Configured cfg)
    (hgap : Along step NoGap (.reset bram) is)
    (hfull : (after bram is).cntrReg.toNat = limit cfg) :
    limit cfg ≤ (transferred bram is).length := by
  have hacc := accounted_after hcfg h hgap
  unfold limit at hfull ⊢
  unfold Accounted limit at hacc
  cases hst : (after bram is).stateReg <;> simp only [hst] at hacc
  case stIdle | stWriteZeros => omega
  case stReadAddr =>
    have hlen := congrArg List.length hacc.2.1
    rw [List.length_take] at hlen
    omega
  case stDelay1 | stIncData | stDelay2 =>
    rw [hacc.1, List.length_append, List.length_singleton]
    omega

/-- The counter never passes the limit. -/
theorem cntrReg_le (hcfg : 2 ≤ cfg.toNat) (h : ∀ i ∈ is, i.Configured cfg)
    (hgap : Along step NoGap (.reset bram) is) :
    (after bram is).cntrReg.toNat ≤ limit cfg := by
  have hacc := accounted_after hcfg h hgap
  unfold Accounted at hacc
  cases hst : (after bram is).stateReg <;> simp only [hst] at hacc <;> omega

theorem transferred_append (js : List (In g)) :
    transferred bram is <+: transferred bram (is ++ js) := by
  rw [transferred, transferred, collect_append]
  exact List.prefix_append _ _

/-- Until it is at the limit, the counter does not turn over. -/
theorem cntrReg_le_next {s : St g} (h : s.cntrReg.toNat + 1 < 2 ^ g.cntrWidth) (i : In g) :
    s.cntrReg.toNat ≤ (s.next i).cntrReg.toNat := by
  show _ ≤ s.cntrNext.toNat
  unfold St.cntrNext
  split_ifs
  · rw [BitFields.toNat_add_one h]
    omega
  · exact le_rfl

end Run

end LagoEcosystem.Histogram
