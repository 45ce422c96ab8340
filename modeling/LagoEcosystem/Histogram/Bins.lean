import LagoEcosystem.Histogram.Account
import Mathlib.Data.List.Count

/-!
# What the bins hold

Every time the core waits for a sample, each word of the memory is the saturated number of
the samples of its bin. While a sample is on its way, the port shows whatever is at the
input, but the word that was addressed when the sample was taken arrives in the cycle that
uses it, and the write goes to the address that was kept.
-/

namespace LagoEcosystem.Histogram

open Clocked Saturating

variable {g : Generics}

/-- The zeroing phase has ended. -/
def St.Zeroed (s : St g) : Prop := s.stateReg ≠ .stIdle ∧ s.stateReg ≠ .stWriteZeros

/-- The memory after the cycles of `is`, and at the next edge. -/
structure BinLaw (bram : Bram g) (is : List (In g)) : Prop where
  /-- The zeroing phase takes a cycle for each word, and one more. -/
  zeroed : 2 ^ g.bramAddrWidth < is.length → (after bram is).Zeroed
  bins : (after bram is).stateReg = .stReadAddr → ∀ b,
    ((after bram is).bram.mem b).toNat =
      min ((accumulated bram is).count b) (2 ^ g.bramDataWidth - 1)
  /-- Only the bin of the last sample can change. -/
  others : (after bram is).Zeroed → ∀ i b, (accumulated bram is).getLast? ≠ some b →
    (after bram (is ++ [i])).bram.mem b = (after bram is).bram.mem b

/-! ## The end of the zeroing phase -/

theorem zeroed_next {s : St g} (h : s.Zeroed) (i : In g) : (s.next i).Zeroed := by
  obtain ⟨hidle, hzeros⟩ := h
  unfold St.Zeroed
  cases hst : s.stateReg <;> grind [St.next, St.stateNext]

theorem zeroed_append {bram : Bram g} {is js : List (In g)} (hz : (after bram is).Zeroed)
    (h : ∀ i ∈ js, i.aresetn = true) : (after bram (is ++ js)).Zeroed := by
  rw [after, run_append]
  refine (along_of_forall step (after bram is) h).invariant hz fun s i hs hi => ?_
  rw [step_of_aresetn hi]
  exact zeroed_next hs i

theorem zeroed_after (bram : Bram g) {is : List (In g)} (h : ∀ i ∈ is, i.aresetn = true)
    (hlen : 2 ^ g.bramAddrWidth < is.length) : (after bram is).Zeroed := by
  have hpos := Nat.two_pow_pos g.bramAddrWidth
  have hsplit := List.take_append_drop (2 ^ g.bramAddrWidth) is
  generalize hjs : is.take (2 ^ g.bramAddrWidth) = js at hsplit
  have hjslen : js.length = 2 ^ g.bramAddrWidth := by
    rw [← hjs, List.length_take]
    omega
  obtain ⟨i, ks, hks⟩ := List.exists_cons_of_length_pos
    (l := is.drop (2 ^ g.bramAddrWidth)) (by rw [List.length_drop]; omega)
  rw [hks] at hsplit
  obtain rfl := hsplit
  obtain ⟨hzero, -⟩ := zeroing_after bram (fun j hj => h j (List.mem_append_left _ hj))
    (by omega) (n := 2 ^ g.bramAddrWidth - 1) (by omega)
  have hnext : (after bram (js ++ [i])).Zeroed := by
    rw [after_snoc, step_of_aresetn (h i (by simp)), next_stWriteZeros_last hzero.state hzero.last]
    exact ⟨by simp, by simp⟩
  rw [List.append_cons]
  exact zeroed_append hnext fun j hj => h j (by simp [hj])

/-- Nothing is counted until the zeroing phase has ended. -/
theorem zeroed_of_cntrReg_ne (bram : Bram g) {is : List (In g)} (h : ∀ i ∈ is, i.aresetn = true)
    (hne : (after bram is).cntrReg ≠ 0) : (after bram is).Zeroed := by
  by_contra hnot
  have hshort : is.length ≤ 2 ^ g.bramAddrWidth := by
    by_contra hlen
    exact hnot (zeroed_after bram h (by omega))
  refine hne ?_
  rcases Nat.eq_zero_or_pos is.length with hnil | hpos
  · rw [List.length_eq_zero_iff.mp hnil]
    rfl
  · exact (zeroing_after bram h (Nat.sub_add_cancel hpos).symm (by omega)).1.cntr

/-! ## The invariant -/

/-- The words of the memory count `acc`. -/
def Bram.Counts (m : Bram g) (acc : List (Bin g)) : Prop :=
  ∀ b, m.mem b = sat g.bramDataWidth (acc.count b)

/-- The last sample is not counted yet, and its bin is kept. -/
def St.Pending (s : St g) (acc : List (Bin g)) : Prop :=
  ∃ done, acc = done ++ [s.addrReg] ∧ s.bram.Counts done

/-- What holds in each state, after the samples `acc` were taken. -/
def Binned (s : St g) (acc : List (Bin g)) : Prop :=
  match s.stateReg with
  | .stIdle => acc = [] ∧ s.wrenReg = false
  | .stWriteZeros => acc = [] ∧ s.wrenReg = true ∧ s.dataReg = 0 ∧
      ∀ b, b.toNat < s.addrReg.toNat → s.bram.mem b = 0
  | .stReadAddr => s.wrenReg = false ∧ s.bram.Counts acc
  | .stDelay1 => s.wrenReg = false ∧ s.Pending acc ∧ s.bram.latch = s.bram.mem s.addrReg
  | .stIncData => s.wrenReg = false ∧ s.Pending acc ∧ s.bram.rddata = s.bram.mem s.addrReg
  | .stDelay2 => s.Pending acc ∧ s.dataReg = s.bram.mem s.addrReg + 1 ∧
      s.wrenReg = (s.bram.mem s.addrReg != BitVec.allOnes _)

/-! ## The edges of the memory -/

section Edge

variable {s : St g} {i : In g} {acc : List (Bin g)}

theorem mem_of_not_wren (h : s.wrenReg = false) : (s.bramNext i).mem = s.bram.mem := by
  simp [St.bramNext, h]

theorem counts_of_not_wren (h : s.wrenReg = false) (hcounts : s.bram.Counts acc) :
    (s.bramNext i).Counts acc := by
  intro b
  rw [mem_of_not_wren h]
  exact hcounts b

theorem mem_of_wren (h : s.wrenReg = true) :
    (s.bramNext i).mem = Function.update s.bram.mem s.addrReg s.dataReg := by
  simp [St.bramNext, St.bramPortaAddr, h]

/-- Writing back the word of the pending sample counts it. -/
theorem counts_of_written (h : s.Pending acc) (hdata : s.dataReg = s.bram.mem s.addrReg + 1)
    (hwren : s.wrenReg = (s.bram.mem s.addrReg != BitVec.allOnes _)) :
    (s.bramNext i).Counts acc := by
  obtain ⟨done, rfl, hcounts⟩ := h
  intro b
  have hcount : (done ++ [s.addrReg]).count b =
      done.count b + if s.addrReg = b then 1 else 0 := by
    simp [List.count_append, List.count_singleton]
  have hold := hcounts s.addrReg
  rw [hcount]
  by_cases hfull : s.bram.mem s.addrReg = BitVec.allOnes _
  · rw [mem_of_not_wren (by simp [hwren, hfull])]
    by_cases hb : s.addrReg = b
    · subst hb
      rw [if_pos rfl, sat_succ, if_pos (hold ▸ hfull), hold]
    · rw [if_neg hb]
      exact hcounts b
  · rw [mem_of_wren (by simp [hwren, hfull])]
    by_cases hb : s.addrReg = b
    · subst hb
      rw [Function.update_self, if_pos rfl, sat_succ, if_neg (hold ▸ hfull), hdata, hold]
    · rw [Function.update_of_ne (Ne.symm hb), if_neg hb]
      exact hcounts b

/-- The last word of the zeroing phase completes it. -/
theorem mem_zero_of_last (hwren : s.wrenReg = true) (hdata : s.dataReg = 0)
    (hlast : s.addrReg = BitVec.allOnes _)
    (h : ∀ b, b.toNat < s.addrReg.toNat → s.bram.mem b = 0) (b : Bin g) :
    (s.bramNext i).mem b = 0 := by
  have hle : b.toNat ≤ s.addrReg.toNat := by
    rw [hlast, BitVec.toNat_allOnes]
    have := b.isLt
    omega
  rw [mem_of_wren hwren, hdata]
  exact BitFields.update_clears fun hne => h b (by omega)

/-- A word of the zeroing phase before the last. -/
theorem mem_zero_of_lt (hwren : s.wrenReg = true) (hdata : s.dataReg = 0)
    (h : ∀ b, b.toNat < s.addrReg.toNat → s.bram.mem b = 0) (b : Bin g)
    (hb : b.toNat < (s.addrReg + 1).toNat) : (s.bramNext i).mem b = 0 := by
  have hsucc : (s.addrReg + 1).toNat ≤ s.addrReg.toNat + 1 := by
    rw [BitVec.toNat_add]
    exact Nat.le_trans (Nat.mod_le _ _) (Nat.add_le_add_left (Nat.mod_le 1 _) _)
  rw [mem_of_wren hwren, hdata]
  exact BitFields.update_clears fun hne => h b (by omega)

/-- Nothing is taken in a state that waits for no sample. -/
theorem accumulateOut_eq_nil (hst : s.stateReg ≠ .stReadAddr) : accumulateOut s i = [] :=
  if_neg fun h => hst h.1

theorem binned_writeZeros (hst : s.stateReg = .stWriteZeros) (h : Binned s acc) :
    Binned (s.next i) acc := by
  simp only [Binned, hst] at h
  obtain ⟨rfl, hwren, hdata, hmem⟩ := h
  by_cases hlast : s.addrReg = BitVec.allOnes _
  · rw [next_stWriteZeros_last hst hlast]
    refine ⟨rfl, fun b => ?_⟩
    rw [List.count_nil, sat_zero]
    exact mem_zero_of_last hwren hdata hlast hmem b
  · rw [next_stWriteZeros hst hlast]
    have hstate : (s.tick i).stateReg = .stWriteZeros := hst
    simp only [Binned, hstate]
    exact ⟨trivial, hwren, hdata, mem_zero_of_lt hwren hdata hmem⟩

theorem binned_readAddr (hst : s.stateReg = .stReadAddr) (h : Binned s acc) :
    Binned (s.next i) (acc ++ accumulateOut s i) := by
  simp only [Binned, hst] at h
  obtain ⟨hwren, hcounts⟩ := h
  have hkept := counts_of_not_wren (i := i) hwren hcounts
  cases htake : s.takes i with
  | false =>
    have hout : accumulateOut s i = [] := by simp [accumulateOut, htake]
    have hstate : (s.tick i).stateReg = .stReadAddr := hst
    rw [next_stReadAddr hst htake, hout, List.append_nil]
    simp only [Binned, hstate]
    exact ⟨hwren, hkept⟩
  | true =>
    have hout : accumulateOut s i = [i.bin] := by simp [accumulateOut, hst, htake]
    -- the port shows the sample, so its word is on the way
    have hlatch : (s.bramNext i).latch = (s.bramNext i).mem i.bin := by
      rw [mem_of_not_wren hwren]
      simp [St.bramNext, St.bramPortaAddr, hwren]
    rw [next_stReadAddr_take hst htake, hout]
    exact ⟨hwren, ⟨acc, rfl, hkept⟩, hlatch⟩

/-- Every cycle keeps the invariant, whatever is at the input. -/
theorem binned_next (h : Binned s acc) : Binned (s.next i) (acc ++ accumulateOut s i) := by
  cases hst : s.stateReg with
  | stReadAddr => exact binned_readAddr hst h
  | stIdle =>
    simp only [Binned, hst] at h
    rw [accumulateOut_eq_nil (by simp [hst]), List.append_nil, next_stIdle hst]
    exact ⟨h.1, rfl, rfl, fun b hb => absurd hb (Nat.not_lt_zero _)⟩
  | stWriteZeros =>
    rw [accumulateOut_eq_nil (by simp [hst]), List.append_nil]
    exact binned_writeZeros hst h
  | stDelay1 =>
    simp only [Binned, hst] at h
    obtain ⟨hwren, ⟨done, hacc, hcounts⟩, hlatch⟩ := h
    have hread : (s.bramNext i).rddata = (s.bramNext i).mem s.addrReg := by
      rw [mem_of_not_wren hwren]
      exact hlatch
    rw [accumulateOut_eq_nil (by simp [hst]), List.append_nil, next_stDelay1 hst]
    exact ⟨hwren, ⟨done, hacc, counts_of_not_wren hwren hcounts⟩, hread⟩
  | stIncData =>
    simp only [Binned, hst] at h
    obtain ⟨hwren, ⟨done, hacc, hcounts⟩, hread⟩ := h
    have hmem : (s.bramNext i).mem s.addrReg = s.bram.rddata := by
      rw [mem_of_not_wren hwren, hread]
    rw [accumulateOut_eq_nil (by simp [hst]), List.append_nil, next_stIncData hst]
    refine ⟨⟨done, hacc, counts_of_not_wren hwren hcounts⟩, ?_, ?_⟩
    · show s.bram.rddata + 1 = (s.bramNext i).mem s.addrReg + 1
      rw [hmem]
    · show (!s.wrenS) = ((s.bramNext i).mem s.addrReg != BitVec.allOnes _)
      rw [hmem]
      rfl
  | stDelay2 =>
    simp only [Binned, hst] at h
    obtain ⟨hpending, hdata, hwren⟩ := h
    rw [accumulateOut_eq_nil (by simp [hst]), List.append_nil, next_stDelay2 hst]
    exact ⟨rfl, counts_of_written hpending hdata hwren⟩

/-- Once the memory is zeroed, only the bin of the last sample is written. -/
theorem mem_others (h : Binned s acc) (hz : s.Zeroed) {b : Bin g} (hb : acc.getLast? ≠ some b) :
    (s.bramNext i).mem b = s.bram.mem b := by
  obtain ⟨hidle, hzeros⟩ := hz
  unfold Binned at h
  cases hst : s.stateReg with
  | stIdle => exact absurd hst hidle
  | stWriteZeros => exact absurd hst hzeros
  | stReadAddr | stDelay1 | stIncData =>
    simp only [hst] at h
    rw [mem_of_not_wren h.1]
  | stDelay2 =>
    simp only [hst] at h
    obtain ⟨⟨done, rfl, -⟩, -⟩ := h
    have hne : b ≠ s.addrReg := by
      rintro rfl
      exact hb (by simp)
    cases hw : s.wrenReg with
    | false => rw [mem_of_not_wren hw]
    | true => rw [mem_of_wren hw, Function.update_of_ne hne]

end Edge

/-! ## Runs -/

theorem binned_after (bram : Bram g) {is : List (In g)} (h : ∀ i ∈ is, i.aresetn = true) :
    Binned (after bram is) (accumulated bram is) := by
  have hstart : Binned (St.reset bram) [] := by simp [Binned, St.reset]
  refine (along_of_forall step (St.reset bram) h).induction_on_past
    (P := fun js => Binned (after bram js) (accumulated bram js)) hstart ?_
  intro js i _ hjs hi
  rw [after_snoc, accumulated_snoc, step_of_aresetn hi]
  exact binned_next hjs

/-- The bins are right in every run after reset, whatever the memory held before. -/
theorem binLaw (bram : Bram g) (is : List (In g)) (h : ∀ i ∈ is, i.aresetn = true) :
    BinLaw bram is := by
  have hbinned := binned_after bram h
  refine ⟨zeroed_after bram h, fun hst b => ?_, fun hz i b hb => ?_⟩
  · simp only [Binned, hst] at hbinned
    rw [hbinned.2 b, toNat_sat]
  · have hmem := mem_others (i := i) hbinned hz hb
    have hstep : (step (after bram is) i).bram = (after bram is).bramNext i := by
      unfold step
      split <;> rfl
    rw [after_snoc, hstep, hmem]

/-- Two words of two bits, full of ones at the reset. -/
def Generics.twoWords : Generics := ⟨16, 2, 1, 8, by decide⟩

def Bram.ones : Bram .twoWords := ⟨fun _ => 3, 3, 3⟩

/-- Bin 1 is offered in the first cycles and bin 0 after them. -/
def twoBins : List (In .twoWords) :=
  (List.range 23).map fun n => ⟨true, 100, true, if n < 17 then 1 else 0, 0⟩

/-- A sample in every cycle, from the reset on; a fourth sample finds its word full. -/
theorem binLaw_dense :
    BinLaw (g := .blockDesign) ⟨fun _ => 7, 7, 7⟩ (List.replicate 20000 .sample) ∧
    BinLaw .ones twoBins ∧ accumulated .ones twoBins = [1, 1, 1, 1, 0] ∧
    (List.finRange 2).map (fun b => (after .ones twoBins).bram.mem (.ofFin b)) = [1, 3] := by
  refine ⟨binLaw _ _ fun i hi => by rw [List.eq_of_mem_replicate hi]; rfl,
    binLaw _ _ fun i hi => ?_, by decide +kernel, by decide +kernel⟩
  obtain ⟨n, -, rfl⟩ := List.mem_map.mp hi
  rfl

end LagoEcosystem.Histogram
