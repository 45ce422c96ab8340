import LagoEcosystem.Avgr.Core
import LagoEcosystem.Library.BitFields
import Mathlib.Data.BitVec
import Mathlib.Data.Nat.Count

/-!
# The phases of the averager

A clearing and a measuring phase end when the address equals the number of words. The
address wraps around and meets every number it can hold, so a phase ends if and only if the
number of words is one of them. It is not for `nsamples` equal to a depth that is a power of
two, the largest value the interface allows: the memory has an address for every word, and
the machine waits for one more.
-/

namespace LagoEcosystem.Avgr

open Averager BitFields Clocked

variable {g : Generics}

/-- The settings, which stay for the whole run. -/
structure Config where
  mode : Bool
  nsamples : BitVec 32
  naverages : BitVec 32

/-- What else the core sees in a cycle. -/
structure Ports where
  start : Bool
  restart : Bool
  trigI : Bool
  sAxisTdata : Word

/-- A cycle out of reset with a valid sample. -/
def Config.toIn (c : Config) (p : Ports) : In :=
  ⟨true, p.start, p.restart, c.mode, p.trigI, c.nsamples, c.naverages, true, p.sAxisTdata⟩

def Config.words (c : Config) : ℕ := c.nsamples.toNat / ratio

/-- The registers in cycle `n`. -/
def regs (c : Config) (s₀ : St g) (ports : ℕ → Ports) (n : ℕ) : St g :=
  trace step s₀ (fun k => c.toIn (ports k)) n

/-- The clearing and the measuring states. -/
def StateT.IsPhase : StateT → Prop
  | .stWriteZeros | .stAvgScope | .stAvgN1 => True
  | .stIdle | .stWaitTrig | .stWriteAvg | .stFinish => False

/-- A trigger is accepted in cycle `n`. -/
def Accepts (c : Config) (s₀ : St g) (ports : ℕ → Ports) (n : ℕ) : Prop :=
  (regs c s₀ ports n).stateReg = .stWaitTrig ∧ (ports n).trigI = true

instance (c : Config) (s₀ : St g) (ports : ℕ → Ports) : DecidablePred (Accepts c s₀ ports) :=
  fun n => inferInstanceAs (Decidable ((regs c s₀ ports n).stateReg = .stWaitTrig ∧ _))

/-- The triggers accepted before cycle `n`. -/
def accepted (c : Config) (s₀ : St g) (ports : ℕ → Ports) (n : ℕ) : ℕ :=
  Nat.count (Accepts c s₀ ports) n

/-- What a start is to come to: no phase lasts for ever, the machine finishes when it has
accepted all triggers, and it finishes if triggers go on coming. -/
structure Finishes (c : Config) (s₀ : St g) (ports : ℕ → Ports) : Prop where
  leaves : ∀ n, (regs c s₀ ports n).stateReg.IsPhase →
    ∃ m > n, (regs c s₀ ports m).stateReg ≠ (regs c s₀ ports n).stateReg
  exact : ∀ n, (∀ m < n, (regs c s₀ ports m).stateReg ≠ .stFinish) →
    (regs c s₀ ports n).stateReg = .stFinish →
      accepted c s₀ ports n = c.naverages.toNat
  reaches : (∀ m, ∃ n ≥ m, (ports n).trigI = true) →
    ∃ n, (regs c s₀ ports n).stateReg = .stFinish

section Edges

variable {c : Config} {s : St g} {p : Ports}

theorem atEnd_toIn : s.atEnd (c.toIn p) = true ↔ s.addrReg.toNat = c.words := beq_iff_eq

/-- A phase goes on until the address is that of the end. -/
theorem next_phase (hs : s.stateReg.IsPhase) (h : s.atEnd (c.toIn p) = false) :
    (s.next (c.toIn p)).stateReg = s.stateReg ∧ (s.next (c.toIn p)).addrReg = s.addrReg + 1 ∧
      (s.next (c.toIn p)).averagesReg = s.averagesReg := by
  cases hst : s.stateReg <;> simp_all [StateT.IsPhase, St.next, St.tick]

/-- The clearing phase is followed by the wait for a trigger. -/
theorem next_clearing_end (hs : s.stateReg = .stWriteZeros) (h : s.atEnd (c.toIn p) = true) :
    (s.next (c.toIn p)).stateReg = .stWaitTrig ∧
      (s.next (c.toIn p)).averagesReg = s.averagesReg := by
  rw [next_stWriteZeros_end hs h]
  exact ⟨rfl, rfl⟩

/-- The state behind the last trigger, or on the way to the next one. -/
theorem next_measuring_end (hs : s.stateReg = .stAvgScope ∨ s.stateReg = .stAvgN1)
    (h : s.atEnd (c.toIn p) = true) :
    (s.next (c.toIn p)).averagesReg = s.averagesReg + 1 ∧
      if s.atLastTrig (c.toIn p) then (s.next (c.toIn p)).stateReg = .stFinish
      else (s.next (c.toIn p)).stateReg = .stWaitTrig ∨
        (s.next (c.toIn p)).stateReg = .stWriteAvg := by
  rcases hs with hs | hs <;> cases hl : s.atLastTrig (c.toIn p) <;> simp [St.next, hs, h, hl]

theorem next_wait (hs : s.stateReg = .stWaitTrig) (hp : p.trigI = false) :
    (s.next (c.toIn p)).stateReg = .stWaitTrig ∧
      (s.next (c.toIn p)).averagesReg = s.averagesReg := by
  simp [St.next, hs, Config.toIn, hp, St.tick]

theorem next_trig (hs : s.stateReg = .stWaitTrig) (hp : p.trigI = true) :
    ((s.next (c.toIn p)).stateReg = .stAvgScope ∨ (s.next (c.toIn p)).stateReg = .stAvgN1) ∧
      (s.next (c.toIn p)).averagesReg = s.averagesReg := by
  cases hm : c.mode <;> simp [St.next, hs, Config.toIn, hp, hm, St.tick]

theorem next_writeAvg (hs : s.stateReg = .stWriteAvg) :
    (s.next (c.toIn p)).stateReg = .stWaitTrig ∧
      (s.next (c.toIn p)).averagesReg = s.averagesReg := by
  simp [St.next, hs, St.tick]

theorem atLastTrig_iff (hc : 1 ≤ c.naverages.toNat) :
    s.atLastTrig (c.toIn p) = true ↔ s.averagesReg.toNat + 1 = c.naverages.toNat := by
  rw [St.atLastTrig, beq_iff_eq]
  exact eq_sub_one_iff hc

end Edges

section Run

variable {c : Config} {s₀ : St g} {ports : ℕ → Ports} {n : ℕ}

theorem regs_succ (n : ℕ) :
    regs c s₀ ports (n + 1) = (regs c s₀ ports n).next (c.toIn (ports n)) :=
  (trace_succ _ _ _ n).trans (step_of_aresetn rfl)

/-! ## The end of a phase -/

/-- The way of the address to the end of a phase, around the end of the memory if need be. -/
def wayTo (c : Config) (s : St g) : ℕ := (BitVec.ofNat g.awidth c.words - s.addrReg).toNat

/-- A step of the address is one step less to the end. -/
theorem wayTo_next {s t : St g} (hfit : c.words < 2 ^ g.awidth) (hne : s.addrReg.toNat ≠ c.words)
    (haddr : t.addrReg = s.addrReg + 1) : wayTo c t + 1 = wayTo c s := by
  have hpos : BitVec.ofNat g.awidth c.words - s.addrReg ≠ 0 := by
    intro h
    refine hne ?_
    rw [← sub_eq_zero.mp h, BitVec.toNat_ofNat, Nat.mod_eq_of_lt hfit]
  have hlt : 1 ≤ wayTo c s := Nat.pos_of_ne_zero fun h => hpos (BitVec.eq_of_toNat_eq h)
  rw [wayTo, haddr, sub_add_eq_sub_sub, toNat_sub_one hlt]
  exact Nat.sub_add_cancel hlt

theorem phase_ends (hfit : c.words < 2 ^ g.awidth) {n : ℕ}
    (hphase : (regs c s₀ ports n).stateReg.IsPhase) :
    ∃ m ≥ n, (regs c s₀ ports m).stateReg = (regs c s₀ ports n).stateReg ∧
      (regs c s₀ ports m).averagesReg = (regs c s₀ ports n).averagesReg ∧
      (regs c s₀ ports m).atEnd (c.toIn (ports m)) = true := by
  -- by induction on the way to the end
  obtain ⟨d, hd⟩ : ∃ d, wayTo c (regs c s₀ ports n) ≤ d := ⟨_, Nat.le_refl _⟩
  induction d generalizing n with
  | zero =>
    refine ⟨n, Nat.le_refl n, rfl, rfl, ?_⟩
    rw [atEnd_toIn]
    by_contra hne
    have hway := wayTo_next (t := { regs c s₀ ports n with
      addrReg := (regs c s₀ ports n).addrReg + 1 }) hfit hne rfl
    omega
  | succ d ih =>
    cases hend : (regs c s₀ ports n).atEnd (c.toIn (ports n)) with
    | true => exact ⟨n, Nat.le_refl n, rfl, rfl, hend⟩
    | false =>
      obtain ⟨hstate, haddr, havg⟩ := next_phase hphase hend
      rw [← regs_succ] at hstate haddr havg
      have hne : (regs c s₀ ports n).addrReg.toNat ≠ c.words := fun h => by
        rw [atEnd_toIn.mpr h] at hend
        exact Bool.noConfusion hend
      have hway := wayTo_next hfit hne haddr
      obtain ⟨m, hm, hstate', havg', hend'⟩ := ih (n := n + 1) (hstate ▸ hphase) (by omega)
      exact ⟨m, by omega, hstate'.trans hstate, havg'.trans havg, hend'⟩

/-- No phase lasts for ever. -/
theorem phase_left (hfit : c.words < 2 ^ g.awidth) {n : ℕ}
    (hphase : (regs c s₀ ports n).stateReg.IsPhase) :
    ∃ m > n, (regs c s₀ ports m).stateReg ≠ (regs c s₀ ports n).stateReg := by
  obtain ⟨m, hm, hstate, -, hend⟩ := phase_ends hfit hphase
  refine ⟨m + 1, by omega, ?_⟩
  rw [regs_succ, ← hstate]
  rw [← hstate] at hphase
  cases hst : (regs c s₀ ports m).stateReg with
  | stWriteZeros => simp [(next_clearing_end hst hend).1]
  | stAvgScope =>
    have hnext := (next_measuring_end (.inl hst) hend).2
    split_ifs at hnext <;> grind
  | stAvgN1 =>
    have hnext := (next_measuring_end (.inr hst) hend).2
    split_ifs at hnext <;> grind
  | stIdle | stWaitTrig | stWriteAvg | stFinish => simp [hst, StateT.IsPhase] at hphase

/-- An end that is not an address is never met. -/
theorem clearing_lasts (hfit : 2 ^ g.awidth ≤ c.words)
    (hstart : (regs c s₀ ports 1).stateReg = .stWriteZeros) (n : ℕ) :
    (regs c s₀ ports (n + 1)).stateReg = .stWriteZeros := by
  induction n with
  | zero => exact hstart
  | succ n ih =>
    have hne : (regs c s₀ ports (n + 1)).atEnd (c.toIn (ports (n + 1))) = false := by
      rw [← Bool.not_eq_true, atEnd_toIn]
      have hlt := (regs c s₀ ports (n + 1)).addrReg.isLt
      omega
    rw [regs_succ, next_stWriteZeros ih hne]

/-! ## The triggers -/

/-- What `averages_reg` says about the number `k` of accepted triggers on the way to the first
`ST_FINISH`. -/
def Counted (c : Config) (k : ℕ) (s : St g) : Prop :=
  match s.stateReg with
  | .stIdle => False
  | .stWriteZeros => k = 0 ∧ s.averagesReg = 0
  | .stWaitTrig | .stWriteAvg => k = s.averagesReg.toNat ∧ k < c.naverages.toNat
  | .stAvgScope | .stAvgN1 => k = s.averagesReg.toNat + 1 ∧ k ≤ c.naverages.toNat
  | .stFinish => k = c.naverages.toNat

variable {k : ℕ} {s t : St g} {p : Ports}

theorem Counted.congr (h : Counted c k s) (hstate : t.stateReg = s.stateReg)
    (havg : t.averagesReg = s.averagesReg) : Counted c k t := by
  unfold Counted at h ⊢
  rw [hstate, havg]
  exact h

/-- The end of the clearing phase. -/
theorem Counted.clearing_end (hc : 1 ≤ c.naverages.toNat) (h : Counted c k s)
    (hst : s.stateReg = .stWriteZeros) (hend : s.atEnd (c.toIn p) = true) :
    Counted c k (s.next (c.toIn p)) := by
  obtain ⟨hstate, havg⟩ := next_clearing_end hst hend
  obtain ⟨rfl, hzero⟩ : k = 0 ∧ s.averagesReg = 0 := by simpa only [Counted, hst] using h
  simp only [Counted, hstate, havg, hzero]
  simpa using Nat.lt_of_lt_of_le Nat.zero_lt_one hc

/-- The only cycles that count are those with a trigger that is waited for. -/
theorem Counted.waiting (h : Counted c k s) (hst : s.stateReg = .stWaitTrig) :
    Counted c (if p.trigI = true then k + 1 else k) (s.next (c.toIn p)) := by
  obtain ⟨hk, hlt⟩ : k = s.averagesReg.toNat ∧ k < c.naverages.toNat := by
    simpa only [Counted, hst] using h
  cases hp : p.trigI with
  | false =>
    obtain ⟨hstate, havg⟩ := next_wait (c := c) hst hp
    simp only [Counted, hstate, havg]
    simpa using ⟨hk, hlt⟩
  | true =>
    obtain ⟨hstate, havg⟩ := next_trig (c := c) hst hp
    rcases hstate with hstate | hstate <;>
    · simp only [Counted, hstate, havg]
      simpa using ⟨hk, hlt⟩

/-- The end of a measuring phase. -/
theorem Counted.measured (hc : 1 ≤ c.naverages.toNat) (h : Counted c k s)
    (hst : s.stateReg = .stAvgScope ∨ s.stateReg = .stAvgN1)
    (hend : s.atEnd (c.toIn p) = true) : Counted c k (s.next (c.toIn p)) := by
  obtain ⟨hk, hle⟩ : k = s.averagesReg.toNat + 1 ∧ k ≤ c.naverages.toNat := by
    rcases hst with hst | hst <;> simpa only [Counted, hst] using h
  obtain ⟨havg, hstate⟩ := next_measuring_end hst hend
  have hlast := atLastTrig_iff (s := s) (p := p) hc
  have hnav := c.naverages.isLt
  cases hl : s.atLastTrig (c.toIn p) with
  | true =>
    rw [hl, if_pos rfl] at hstate
    have hall := hlast.mp hl
    simp only [Counted, hstate]
    omega
  | false =>
    rw [hl, if_neg Bool.false_ne_true] at hstate
    have hmore : s.averagesReg.toNat + 1 ≠ c.naverages.toNat := fun h => by
      rw [hlast.mpr h] at hl
      exact Bool.noConfusion hl
    have hval : (s.next (c.toIn p)).averagesReg.toNat = s.averagesReg.toNat + 1 := by
      rw [havg, toNat_add_one (by omega)]
    rcases hstate with hstate | hstate <;>
    · simp only [Counted, hstate]
      omega

theorem Counted.next (hc : 1 ≤ c.naverages.toNat) (h : Counted c k s)
    (hs : s.stateReg ≠ .stFinish) :
    Counted c (if s.stateReg = .stWaitTrig ∧ p.trigI = true then k + 1 else k)
      (s.next (c.toIn p)) := by
  by_cases hgo : s.stateReg.IsPhase ∧ s.atEnd (c.toIn p) = false
  case pos =>
    obtain ⟨hstate, -, havg⟩ := next_phase hgo.1 hgo.2
    have hnot : ¬(s.stateReg = .stWaitTrig ∧ p.trigI = true) := fun hw => by
      simp [hw.1, StateT.IsPhase] at hgo
    rw [if_neg hnot]
    exact h.congr hstate havg
  case neg =>
    have hend : s.stateReg.IsPhase → s.atEnd (c.toIn p) = true := fun hp => by
      simpa [hp] using hgo
    cases hst : s.stateReg with
    | stIdle => simp [Counted, hst] at h
    | stFinish => exact absurd hst hs
    | stWriteZeros => simpa using h.clearing_end hc hst (hend (by simp [hst, StateT.IsPhase]))
    | stWaitTrig => simpa using h.waiting (p := p) hst
    | stWriteAvg =>
      obtain ⟨hstate, havg⟩ := next_writeAvg (c := c) (p := p) hst
      simp only [Counted, hst] at h
      simp only [Counted, hstate, havg]
      simpa using h
    | stAvgScope =>
      simpa using h.measured hc (.inl hst) (hend (by simp [hst, StateT.IsPhase]))
    | stAvgN1 =>
      simpa using h.measured hc (.inr hst) (hend (by simp [hst, StateT.IsPhase]))

theorem counted_regs (hc : 1 ≤ c.naverages.toNat) (hidle : s₀.stateReg = .stIdle)
    (hstart : (ports 0).start = true) (n : ℕ)
    (hnone : ∀ m < n + 1, (regs c s₀ ports m).stateReg ≠ .stFinish) :
    Counted c (accepted c s₀ ports (n + 1)) (regs c s₀ ports (n + 1)) := by
  induction n with
  | zero =>
    have hno : ¬Accepts c s₀ ports 0 := fun h => by
      have hwait : s₀.stateReg = .stWaitTrig := h.1
      simp [hidle] at hwait
    have hcount : accepted c s₀ ports 1 = 0 := by
      rw [accepted, Nat.count_succ, if_neg hno]
      rfl
    have hnext : regs c s₀ ports 1 = s₀.next (c.toIn (ports 0)) := regs_succ 0
    have hgo : (c.toIn (ports 0)).start = true := hstart
    rw [hcount, hnext, next_stIdle hidle]
    simp [Counted, hgo]
  | succ n ih =>
    have hcounted := ih fun m hm => hnone m (by omega)
    have hnext := hcounted.next (p := ports (n + 1)) hc (hnone (n + 1) (by omega))
    rw [← regs_succ] at hnext
    rw [accepted, Nat.count_succ]
    by_cases hacc : Accepts c s₀ ports (n + 1)
    · rw [if_pos hacc]
      rwa [if_pos ⟨hacc.1, hacc.2⟩] at hnext
    · rw [if_neg hacc]
      rwa [if_neg fun h => hacc ⟨h.1, h.2⟩] at hnext

/-! ## The way to the end -/

/-- A trigger that comes is accepted. -/
theorem exists_trig (htrig : ∀ m, ∃ n ≥ m, (ports n).trigI = true)
    (hwait : (regs c s₀ ports n).stateReg = .stWaitTrig) :
    ∃ m ≥ n, Accepts c s₀ ports m ∧
      (regs c s₀ ports m).averagesReg = (regs c s₀ ports n).averagesReg := by
  obtain ⟨m, hnm, hm⟩ := htrig n
  -- by induction on the time until then
  obtain ⟨d, rfl⟩ := Nat.exists_eq_add_of_le hnm
  induction d generalizing n with
  | zero => exact ⟨n, Nat.le_refl n, ⟨hwait, hm⟩, rfl⟩
  | succ d ih =>
    cases hp : (ports n).trigI with
    | true => exact ⟨n, Nat.le_refl n, ⟨hwait, hp⟩, rfl⟩
    | false =>
      obtain ⟨hstate, havg⟩ := next_wait (c := c) hwait hp
      rw [← regs_succ] at hstate havg
      have hshift : n + (d + 1) = n + 1 + d := by omega
      obtain ⟨m, hm, hacc, havg'⟩ := ih hstate (by omega) (hshift ▸ hm)
      exact ⟨m, by omega, hacc, havg'.trans havg⟩

/-- From a trigger to the wait for the next one, or to the end. -/
theorem exists_measured (hc : 1 ≤ c.naverages.toNat) (hfit : c.words < 2 ^ g.awidth)
    (hacc : Accepts c s₀ ports n)
    (hlt : (regs c s₀ ports n).averagesReg.toNat < c.naverages.toNat) :
    ∃ m > n, (regs c s₀ ports m).stateReg = .stFinish ∨
      (regs c s₀ ports m).stateReg = .stWaitTrig ∧
        (regs c s₀ ports m).averagesReg.toNat = (regs c s₀ ports n).averagesReg.toNat + 1 ∧
        (regs c s₀ ports m).averagesReg.toNat < c.naverages.toNat := by
  obtain ⟨hmeasure, havg⟩ := next_trig (c := c) hacc.1 hacc.2
  rw [← regs_succ] at hmeasure havg
  have hphase : (regs c s₀ ports (n + 1)).stateReg.IsPhase := by
    rcases hmeasure with h | h <;> simp [h, StateT.IsPhase]
  obtain ⟨m, hm, hstate, havg', hend⟩ := phase_ends hfit hphase
  rw [← hstate] at hmeasure
  obtain ⟨hcount, hnext⟩ := next_measuring_end hmeasure hend
  rw [← regs_succ] at hcount hnext
  have hlast := atLastTrig_iff (s := regs c s₀ ports m) (p := ports m) hc
  have hnav := c.naverages.isLt
  have hval : (regs c s₀ ports (m + 1)).averagesReg.toNat =
      (regs c s₀ ports n).averagesReg.toNat + 1 := by
    rw [hcount, havg', havg, toNat_add_one (by omega)]
  split_ifs at hnext with hl
  · exact ⟨m + 1, by omega, .inl hnext⟩
  · have hmore : (regs c s₀ ports m).averagesReg.toNat + 1 ≠ c.naverages.toNat := mt hlast.mpr hl
    rw [havg', havg] at hmore
    rcases hnext with hnext | hnext
    · exact ⟨m + 1, by omega, .inr ⟨hnext, hval, by omega⟩⟩
    · obtain ⟨hwait, hsame⟩ := next_writeAvg (c := c) (p := ports (m + 1)) hnext
      rw [← regs_succ] at hwait hsame
      refine ⟨m + 2, by omega, .inr ⟨hwait, ?_, ?_⟩⟩ <;>
      · rw [hsame]
        omega

/-- From a wait for a trigger the machine finishes, by induction on the triggers to come. -/
theorem exists_finish (hc : 1 ≤ c.naverages.toNat) (hfit : c.words < 2 ^ g.awidth)
    (htrig : ∀ m, ∃ n ≥ m, (ports n).trigI = true) (d : ℕ) {n : ℕ}
    (hwait : (regs c s₀ ports n).stateReg = .stWaitTrig)
    (hd : (regs c s₀ ports n).averagesReg.toNat + d + 1 = c.naverages.toNat) :
    ∃ m, (regs c s₀ ports m).stateReg = .stFinish := by
  induction d generalizing n with
  | zero =>
    obtain ⟨m, -, hacc, havg⟩ := exists_trig htrig hwait
    obtain ⟨k, -, hfin | ⟨-, hval, hlt⟩⟩ := exists_measured hc hfit hacc (by rw [havg]; omega)
    · exact ⟨k, hfin⟩
    · rw [havg] at hval
      omega
  | succ d ih =>
    obtain ⟨m, -, hacc, havg⟩ := exists_trig htrig hwait
    obtain ⟨k, -, hfin | ⟨hwait', hval, -⟩⟩ := exists_measured hc hfit hacc (by rw [havg]; omega)
    · exact ⟨k, hfin⟩
    · rw [havg] at hval
      exact ih hwait' (by omega)

end Run

/-- From a start with at least one trigger to come, the averager comes to its end if and only
if the number of words is an address of the memory. -/
theorem finishes_iff (g : Generics) (c : Config) (hc : 1 ≤ c.naverages.toNat) (s₀ : St g)
    (hidle : s₀.stateReg = .stIdle) (ports : ℕ → Ports) (hstart : (ports 0).start = true) :
    Finishes c s₀ ports ↔ c.nsamples.toNat / 8 < 2 ^ Cores.log2c (g.memDepth / 8) := by
  have hgo : (c.toIn (ports 0)).start = true := hstart
  have hnext : regs c s₀ ports 1 = s₀.next (c.toIn (ports 0)) := regs_succ 0
  have hclear : (regs c s₀ ports 1).stateReg = .stWriteZeros ∧
      (regs c s₀ ports 1).averagesReg = 0 := by
    rw [hnext, next_stIdle hidle, hgo]
    exact ⟨rfl, rfl⟩
  constructor
  case mp =>
    intro h
    by_contra hfit
    obtain ⟨m, hm, hleft⟩ := h.leaves 1 (by simp [hclear.1, StateT.IsPhase])
    obtain ⟨k, rfl⟩ : ∃ k, m = k + 1 := ⟨m - 1, by omega⟩
    exact hleft ((clearing_lasts (Nat.le_of_not_lt hfit) hclear.1 k).trans hclear.1.symm)
  case mpr =>
    intro hfit
    refine ⟨fun n => phase_left hfit, ?_, ?_⟩
    · intro n hnone hfin
      cases n with
      | zero =>
        have hfin : s₀.stateReg = .stFinish := hfin
        simp [hidle] at hfin
      | succ n =>
        have hcounted := counted_regs hc hidle hstart n hnone
        simpa only [Counted, hfin] using hcounted
    · intro htrig
      have hphase : (regs c s₀ ports 1).stateReg.IsPhase := by simp [hclear.1, StateT.IsPhase]
      obtain ⟨m, -, hstate, havg, hend⟩ := phase_ends hfit hphase
      obtain ⟨hwait, hsame⟩ := next_clearing_end (hstate.trans hclear.1) hend
      rw [← regs_succ] at hwait hsame
      refine exists_finish hc hfit htrig (c.naverages.toNat - 1) hwait ?_
      rw [hsame, havg, hclear.2]
      simp
      omega

/-- A window of one word in a memory of two. -/
theorem finishes_iff_short :
    (Finishes ⟨false, 8, 1⟩ (.reset (fun _ => 0) 0 : St ⟨16⟩) (fun _ => ⟨true, false, true, 0⟩) ↔
      (8 : BitVec 32).toNat / 8 < 2 ^ Cores.log2c (16 / 8)) ∧
    Finishes ⟨false, 8, 1⟩ (.reset (fun _ => 0) 0 : St ⟨16⟩) fun _ => ⟨true, false, true, 0⟩ := by
  have hiff := finishes_iff ⟨16⟩ ⟨false, 8, 1⟩ (by decide) (.reset (fun _ => 0) 0) rfl
    (fun _ => ⟨true, false, true, 0⟩) rfl
  exact ⟨hiff, hiff.mpr (by decide)⟩

/-- A window of the whole memory. -/
theorem full_depth_never_finishes :
    (16 : BitVec 32).toNat = (⟨16⟩ : Generics).memDepth ∧
      ¬Finishes ⟨false, 16, 1⟩ (.reset (fun _ => 0) 0 : St ⟨16⟩)
        fun _ => ⟨true, false, true, 0⟩ := by
  refine ⟨rfl, fun h => ?_⟩
  obtain ⟨m, hm, hleft⟩ := h.leaves 1 trivial
  obtain ⟨k, rfl⟩ : ∃ k, m = k + 1 := ⟨m - 1, by omega⟩
  exact hleft (clearing_lasts (by decide) rfl k)

/-- With powers of two, the window of the whole memory is the only one that does not fit. -/
theorem words_lt_iff (c : Config) {j k : ℕ} (hj : 3 ≤ j) (hk : 3 ≤ k)
    (hsamples : c.nsamples.toNat = 2 ^ j) (hdepth : g.memDepth = 2 ^ k) :
    c.words < 2 ^ g.awidth ↔ c.nsamples.toNat < g.memDepth := by
  have hdiv : ∀ e, 3 ≤ e → 2 ^ e / ratio = 2 ^ (e - 3) := fun e he =>
    Nat.pow_div he (by decide : 0 < 2)
  rw [Config.words, Generics.awidth, hsamples, hdepth, hdiv j hj, hdiv k hk, Cores.log2c_two_pow,
    Nat.pow_lt_pow_iff_right (by decide), Nat.pow_lt_pow_iff_right (by decide)]
  omega

end LagoEcosystem.Avgr
