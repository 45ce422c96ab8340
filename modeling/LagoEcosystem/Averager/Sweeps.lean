import LagoEcosystem.Averager.Core
import LagoEcosystem.Library.Acquisition
import Mathlib.Algebra.BigOperators.Group.List.Basic
import Mathlib.Data.BitVec

/-!
# What the averager adds up

A sweep is what is accepted after one trigger. The core runs beside the settings of the
acquisition and its sweeps so far. At every point, lane by lane, each word of the
memory is the sum of the samples of that word over the sweeps, the unfinished one
included; the word under way in `b_reg` is the one the next sample is added to.
-/

namespace LagoEcosystem.Averager

open Acquisition BitFields Clocked

variable {g : Generics}

structure Settings where
  naverages : BitVec 16
  nsamples : BitVec 16
  deriving DecidableEq

def In.settings (i : In) : Settings := ⟨i.naveragesI, i.nsamplesI⟩

/-- Words in a sweep, and sweeps in an acquisition. -/
def Settings.words (c : Settings) : ℕ := c.nsamples.toNat / ratio
def Settings.sweeps (c : Settings) : ℕ := c.naverages.toNat

theorem toNat_nsamples {i : In} {c : Settings} (hi : i.settings = c) :
    (i.nsamplesI / 8#16).toNat = c.words := by
  rw [← hi]
  exact BitVec.toNat_udiv

theorem Settings.words_pos {c : Settings} (h : ratio ≤ c.nsamples.toNat) : 1 ≤ c.words :=
  (Nat.one_le_div_iff (by decide)).mpr h

/-- Whole words, at least one and no more than the memory holds; at least one sweep. -/
structure Settings.Valid (g : Generics) (c : Settings) : Prop where
  whole : ratio ∣ c.nsamples.toNat
  pos : ratio ≤ c.nsamples.toNat
  fits : c.nsamples.toNat ≤ g.memDepth
  average : 1 ≤ c.sweeps

instance (c : Settings) : Decidable (c.Valid g) :=
  decidable_of_iff (ratio ∣ c.nsamples.toNat ∧ ratio ≤ c.nsamples.toNat ∧
      c.nsamples.toNat ≤ g.memDepth ∧ 1 ≤ c.sweeps)
    ⟨fun ⟨h1, h2, h3, h4⟩ => ⟨h1, h2, h3, h4⟩, fun ⟨h1, h2, h3, h4⟩ => ⟨h1, h2, h3, h4⟩⟩

theorem Settings.Valid.words_le {c : Settings} (h : c.Valid g) : c.words ≤ 2 ^ g.awidth := by
  rw [g.two_pow_awidth]
  exact Nat.div_le_div_right h.fits

/-! ## Sums -/

/-- What a sweep adds to lane `I` of word `a`. -/
def term (I : Fin 8) (a : ℕ) (sweep : List Word) : BitVec 16 :=
  (sweep[a]?.map (sampleOf I)).getD 0

/-- Lane `I` of word `a` summed over the sweeps, modulo `2 ^ 16`. -/
def total (I : Fin 8) (a : ℕ) (sweeps : List (List Word)) : BitVec 16 :=
  (sweeps.map (term I a)).sum

@[simp] theorem total_nil (I : Fin 8) (a : ℕ) : total I a [] = 0 := rfl

theorem total_snoc (I : Fin 8) (a : ℕ) (done : List (List Word)) (cur : List Word) :
    total I a (done ++ [cur]) = total I a done + term I a cur := by
  simp [total]

theorem term_snoc (I : Fin 8) (a : ℕ) (cur : List Word) (x : Word) :
    term I a (cur ++ [x]) = term I a cur + if a = cur.length then sampleOf I x else 0 := by
  unfold term
  rcases Nat.lt_trichotomy a cur.length with hlt | rfl | hgt
  · rw [List.getElem?_append_left hlt, if_neg (by omega), add_zero]
  · simp
  · rw [if_neg (by omega), add_zero, List.getElem?_eq_none (by simp; omega),
      List.getElem?_eq_none (by omega)]

theorem term_eq_zero (I : Fin 8) {a : ℕ} {sweep : List Word} (h : sweep.length ≤ a) :
    term I a sweep = 0 := by
  simp [term, List.getElem?_eq_none h]

theorem total_eq_zero (I : Fin 8) {a : ℕ} {sweeps : List (List Word)}
    (h : ∀ w ∈ sweeps, w.length ≤ a) : total I a sweeps = 0 := by
  induction sweeps with
  | nil => rfl
  | cons w ws ih =>
    have hhead := term_eq_zero I (h w (by simp))
    have htail := ih fun v hv => h v (by simp [hv])
    unfold total at htail ⊢
    rw [List.map_cons, List.sum_cons, hhead, htail, add_zero]

/-! ## The record of an acquisition -/

/-- Add a word to the last sweep. -/
def pushLast (sweeps : List (List Word)) (x : Word) : List (List Word) :=
  sweeps.dropLast ++ [sweeps.getLast?.getD [] ++ [x]]

@[simp] theorem pushLast_snoc (done : List (List Word)) (cur : List Word) (x : Word) :
    pushLast (done ++ [cur]) x = done ++ [cur ++ [x]] := by
  simp [pushLast]

/-- The sweeps after a cycle: none in the idle state, a new one at a trigger that is waited
for, and a word more at each handshake. -/
def record (idle trigger handshake : Bool) (x : Word) (sweeps : List (List Word)) :
    List (List Word) :=
  if idle then []
  else if trigger then sweeps ++ [[]]
  else if handshake then pushLast sweeps x
  else sweeps

def St.record (s : St g) (i : In) (sweeps : List (List Word)) : List (List Word) :=
  Averager.record (s.stateReg == .stIdle) (s.stateReg == .stWaitTrig && i.trigI)
    ((s.ctl i).treadyS && i.sAxisTvalid) i.sAxisTdata sweeps

/-- The core as a machine that works through acquisitions. -/
def machine (g : Generics) : Machine (St g) In Settings (List (List Word)) where
  step := step
  idle s := s.stateReg == .stIdle
  settings := In.settings
  record := St.record

/-- The core after a reset. The memories are zero from the start; `b_reg` may hold anything. -/
def afterReset (g : Generics) (bReg : Word) : Tracked (St g) Settings (List (List Word)) :=
  ⟨.reset (fun _ => 0) bReg (fun _ => 0), none, []⟩

/-- A cycle out of reset; during an acquisition the settings are valid and stay. -/
def Steady (t : Tracked (St g) Settings (List (List Word))) (i : In) : Prop :=
  i.aresetn = true ∧ (machine g).Steady (Settings.Valid g) t i

instance (t : Tracked (St g) Settings (List (List Word))) (i : In) : Decidable (Steady t i) :=
  inferInstanceAs (Decidable (_ ∧ _))

/-! ## Counting the sweeps -/

section Counting

variable {n w : ℕ} {navg cntr : BitVec w} {done : List (List Word)} {cur : List Word}

/-- The sweeps have `n` words each. -/
def Complete (n : ℕ) (sweeps : List (List Word)) : Prop := ∀ sweep ∈ sweeps, sweep.length = n

theorem Complete.snoc (h : Complete n done) (hcur : cur.length = n) : Complete n (done ++ [cur]) :=
  List.forall_mem_append.mpr ⟨h, List.forall_mem_singleton.mpr hcur⟩

/-- The counter of the sweeps, while more of the `navg` sweeps are to come. -/
structure Counting (n : ℕ) (navg cntr : BitVec w) (done : List (List Word)) : Prop where
  complete : Complete n done
  count : cntr.toNat = done.length
  lt : done.length < navg.toNat

theorem counting_nil (h : 1 ≤ navg.toNat) : Counting n navg 0 [] :=
  ⟨fun _ hw => absurd hw List.not_mem_nil, rfl, h⟩

/-- The comparison with the last sweep. -/
theorem Counting.last_iff (h : Counting n navg cntr done) :
    (cntr == navg - 1) = true ↔ done.length + 1 = navg.toNat := by
  rw [beq_iff_eq, eq_sub_one_iff (Nat.one_le_of_lt h.lt), h.count]

/-- A sweep that is not the last one. -/
theorem Counting.snoc (h : Counting n navg cntr done) (hcur : cur.length = n)
    (hmore : done.length + 1 ≠ navg.toNat) : Counting n navg (cntr + 1) (done ++ [cur]) := by
  have hlen : (done ++ [cur]).length = done.length + 1 := List.length_append
  have hlt := h.lt
  have hfits := navg.isLt
  have hcount := h.count
  refine ⟨h.complete.snoc hcur, ?_, by omega⟩
  rw [toNat_add_one (by omega), hcount, hlen]

/-- The last sweep. -/
theorem Counting.finish (h : Counting n navg cntr done) (hcur : cur.length = n)
    (hlast : done.length + 1 = navg.toNat) :
    Complete n (done ++ [cur]) ∧ (done ++ [cur]).length = navg.toNat :=
  ⟨h.complete.snoc hcur, List.length_append.trans hlast⟩

end Counting

/-! ## The law -/

structure AverageLaw (t : Tracked (St g) Settings (List (List Word))) : Prop where
  /-- In `ST_FINISH` each sweep is complete, and the memory holds their sums. -/
  finish : t.st.stateReg = .stFinish → ∃ c ∈ t.settings,
    t.record.length = c.naverages.toNat ∧
    (∀ sweep ∈ t.record, sweep.length = c.nsamples.toNat / 8) ∧
    ∀ (a : Addr g) (I : Fin 8), a.toNat < c.nsamples.toNat / 8 →
      lane I (t.st.ram a) = total I a.toNat t.record
  /-- In `ST_IDLE` the memory is zero. -/
  idle : t.st.stateReg = .stIdle → ∀ a, t.st.ram a = 0
  /-- The memory that is read out holds the same words. -/
  readOut : ∀ (a : Addr g) (j : Fin 8),
    t.st.myRam (sampleAddr a j) = (t.st.ram a).extractLsb' (j * 16) 16

end LagoEcosystem.Averager
