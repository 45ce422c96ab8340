import LagoEcosystem.Library.BitFields
import LagoEcosystem.Library.Pulses
import Mathlib.Data.BitVec
import Mathlib.Data.Nat.Count

/-!
# The reader of the results

`bram_reader` of `axis_avgr16bits` with the read port of its memory, which answers one clock
later and holds its word while `bram_en` is low. One start sends the first `cfg_data_i` words
of the memory.

Every state looks at `m_axis_tready` but `ST_TLAST`: it leaves for `ST_FINISH` whether or not
the last word has been taken. And with one word to send, the address has passed the last one
before it is compared for the first time.
-/

namespace LagoEcosystem.BramReader

open Clocked

/-- The input ports; `D` is `AXIS_DWIDTH`. -/
structure In (D : ℕ) where
  aresetn : Bool
  cfgDataI : BitVec D
  doneI : Bool
  sendI : Bool
  mAxisTready : Bool

inductive StateT where
  | idle | enBram | sendData | tlast | finish
  deriving DecidableEq, Repr

/-- The registers, with that of the memory port; `A` is `MEM_AWIDTH`. -/
structure St (A D : ℕ) where
  stateReg : StateT
  addrReg : BitVec A
  bramRddata : BitVec D
  deriving DecidableEq

/-- The output ports. -/
structure Out (A D : ℕ) where
  restartO : Bool
  mAxisTdata : BitVec D
  mAxisTvalid : Bool
  mAxisTlast : Bool
  mAxisTkeep : BitVec 2
  bramRst : Bool
  bramEn : Bool
  bramAddr : BitVec A

variable {A D : ℕ}

def St.stateNext (s : St A D) (i : In D) : StateT :=
  match s.stateReg with
  | .idle => if i.doneI && i.sendI then .enBram else .idle
  | .enBram => if i.mAxisTready then .sendData else .enBram
  | .sendData =>
    if i.mAxisTready && decide (s.addrReg.toNat = (i.cfgDataI - 1).toNat) then .tlast
    else .sendData
  | .tlast => .finish
  | .finish => .idle

def St.enS (s : St A D) (i : In D) : Bool :=
  match s.stateReg with
  | .enBram | .sendData => i.mAxisTready
  | .idle | .tlast | .finish => false

def St.addrNext (s : St A D) (i : In D) : BitVec A :=
  match s.stateReg with
  | .idle => 0
  | .enBram | .sendData => if i.mAxisTready then s.addrReg + 1 else s.addrReg
  | .tlast | .finish => s.addrReg

def St.tvalidS (s : St A D) : Bool :=
  match s.stateReg with
  | .sendData | .tlast => true
  | .idle | .enBram | .finish => false

def St.out (s : St A D) (i : In D) : Out A D where
  restartO := s.stateReg == .finish
  mAxisTdata := s.bramRddata
  mAxisTvalid := s.tvalidS
  mAxisTlast := s.stateReg == .tlast
  mAxisTkeep := if s.tvalidS then 3 else 0
  bramRst := s.stateReg == .idle
  bramEn := s.enS i
  bramAddr := s.addrReg

/-- The clock edge. The register of the memory port has no other reset than `bram_rst`. -/
def step (mem : BitVec A → BitVec D) (s : St A D) (i : In D) : St A D where
  stateReg := if i.aresetn then s.stateNext i else .idle
  addrReg := if i.aresetn then s.addrNext i else 0
  bramRddata :=
    if (s.out i).bramRst then 0
    else if (s.out i).bramEn then mem (s.out i).bramAddr
    else s.bramRddata

/-- The word that is handed over in a cycle, with its `tlast`. -/
def transferred (s : St A D) (i : In D) : List (BitVec D × Bool) :=
  if (s.out i).mAxisTvalid && i.mAxisTready then [((s.out i).mAxisTdata, (s.out i).mAxisTlast)]
  else []

/-- What the reader sees in a cycle outside the reset, beside the number of words. -/
structure Ports where
  doneI : Bool
  sendI : Bool
  mAxisTready : Bool

def Ports.toIn (cfg : BitVec D) (p : Ports) : In D := ⟨true, cfg, p.doneI, p.sendI, p.mAxisTready⟩

/-- The registers after a start. -/
def started : St A D := ⟨.enBram, 0, 0⟩

/-- A start. -/
theorem step_idle (mem : BitVec A → BitVec D) (cfg : BitVec D) {s : St A D} {p : Ports}
    (hs : s.stateReg = .idle) (hp : p.doneI = true ∧ p.sendI = true) :
    step mem s (p.toIn cfg) = started := by
  simp [step, Ports.toIn, St.out, St.stateNext, St.addrNext, started, hs, hp]

/-! ## A start of the reader -/

section Start

variable (mem : BitVec A → BitVec D) (cfg : BitVec D) (ports : ℕ → Ports)

/-- The registers in cycle `n` after a start. -/
def regs (n : ℕ) : St A D := trace (step mem) started (fun k => (ports k).toIn cfg) n

/-- The words handed over before cycle `n`. -/
def sent (n : ℕ) : List (BitVec D × Bool) :=
  collect (step mem) transferred started ((List.range n).map fun k => (ports k).toIn cfg)

def restart (n : ℕ) : Prop := ((regs mem cfg ports n).out ((ports n).toIn cfg)).restartO = true

instance : DecidablePred (restart mem cfg ports) := fun n =>
  inferInstanceAs (Decidable (((regs mem cfg ports n).out ((ports n).toIn cfg)).restartO = true))

/-- The words that a start is to send, with `tlast` on the last one. -/
def expected : List (BitVec D × Bool) :=
  (List.range cfg.toNat).map fun k => (mem (BitVec.ofNat A k), decide (k + 1 = cfg.toNat))

/-- What a start is to do: send the words in order, have sent all of them when it asks for the
next acquisition, and come to that if the receiver goes on taking words. -/
structure Delivers : Prop where
  inOrder : ∀ n, (∀ m < n, ¬restart mem cfg ports m) → sent mem cfg ports n <+: expected mem cfg
  complete : ∀ n, (∀ m < n, ¬restart mem cfg ports m) → restart mem cfg ports n →
    sent mem cfg ports n = expected mem cfg
  finishes : (∀ m, ∃ n ≥ m, (ports n).mAxisTready = true) → ∃ n, restart mem cfg ports n

/-- The number of cycles before `n` with `m_axis_tready` high. -/
def readies (n : ℕ) : ℕ := Nat.count (fun k => (ports k).mAxisTready = true) n

/-- The registers after `c` cycles with `m_axis_tready` high, before the last word. -/
def streaming : ℕ → St A D
  | 0 => started
  | c + 1 => ⟨.sendData, BitVec.ofNat A (c + 1), mem (BitVec.ofNat A c)⟩

/-- The first `c` words without a mark. -/
def unmarked (c : ℕ) : List (BitVec D × Bool) :=
  (List.range c).map fun k => (mem (BitVec.ofNat A k), false)

theorem regs_succ (n : ℕ) :
    regs mem cfg ports (n + 1) = step mem (regs mem cfg ports n) ((ports n).toIn cfg) :=
  trace_succ _ _ _ n

theorem sent_succ (n : ℕ) :
    sent mem cfg ports (n + 1) =
      sent mem cfg ports n ++ transferred (regs mem cfg ports n) ((ports n).toIn cfg) := by
  simp [sent, List.range_succ, regs, trace]

theorem readies_succ (n : ℕ) :
    readies ports (n + 1) = readies ports n + (ports n).mAxisTready.toNat := by
  rw [readies, Nat.count_succ, readies]
  cases (ports n).mAxisTready <;> rfl

theorem unmarked_succ (c : ℕ) :
    unmarked mem (c + 1) = unmarked mem c ++ [(mem (BitVec.ofNat A c), false)] := by
  simp [unmarked, List.range_succ]

variable {mem cfg ports} {p : Ports} {c n t : ℕ}

/-- The last word of a packet carries the mark, the others do not. -/
theorem expected_eq (hcfg : cfg.toNat = c + 1) :
    expected mem cfg = unmarked mem c ++ [(mem (BitVec.ofNat A c), true)] := by
  have hfalse : ∀ k ∈ List.range c, decide (k + 1 = c + 1) = false := by
    intro k hk
    have := List.mem_range.mp hk
    exact decide_eq_false (by omega)
  rw [expected, hcfg, List.range_succ, List.map_append, unmarked]
  congr 1
  · exact List.map_congr_left fun k hk => by rw [hfalse k hk]
  · simp

/-! ### The clock edges -/

variable (mem cfg) in
theorem step_wait (hp : p.mAxisTready = false) (c : ℕ) :
    step mem (streaming mem c) (p.toIn cfg) = streaming mem c ∧
      transferred (streaming mem c) (p.toIn cfg) = [] := by
  cases c <;>
    simp [step, transferred, streaming, started, St.out, St.stateNext, St.addrNext, St.enS,
      St.tvalidS, Ports.toIn, hp]

theorem transferred_streaming (hp : p.mAxisTready = true) (c : ℕ) :
    unmarked mem (c - 1) ++ transferred (streaming mem c) (p.toIn cfg) = unmarked mem c := by
  cases c with
  | zero => simp [transferred, streaming, started, St.out, St.tvalidS, unmarked]
  | succ c =>
    simp [transferred, streaming, St.out, St.tvalidS, Ports.toIn, hp, unmarked_succ]

/-- The comparison of the address. -/
theorem addr_eq_iff (hcfg : 1 ≤ cfg.toNat) (hc : c < 2 ^ A) :
    (BitVec.ofNat A c).toNat = (cfg - 1).toNat ↔ c + 1 = cfg.toNat := by
  rw [BitVec.toNat_ofNat, Nat.mod_eq_of_lt hc, BitFields.toNat_sub_one hcfg]
  omega

/-- The first word escapes the comparison. -/
theorem step_word (hcfg : 1 ≤ cfg.toNat) (hp : p.mAxisTready = true) (hfit : c < 2 ^ A)
    (hc : c = 0 ∨ c + 1 ≠ cfg.toNat) :
    step mem (streaming mem c) (p.toIn cfg) = streaming mem (c + 1) := by
  cases c with
  | zero =>
    simp [step, streaming, started, St.out, St.stateNext, St.addrNext, St.enS, Ports.toIn, hp]
  | succ c =>
    have hne := mt (addr_eq_iff hcfg hfit).mp (hc.resolve_left (Nat.succ_ne_zero c))
    simp only [step, streaming, St.out, St.stateNext, St.addrNext, St.enS, Ports.toIn, hp, hne]
    simp [BitVec.ofNat_add]

variable (mem) in
theorem step_fetchLast (hcfg : 1 ≤ cfg.toNat) (hp : p.mAxisTready = true) (hfit : c + 1 < 2 ^ A)
    (hc : c + 2 = cfg.toNat) :
    step mem (streaming mem (c + 1)) (p.toIn cfg) =
      ⟨.tlast, BitVec.ofNat A (c + 1) + 1, mem (BitVec.ofNat A (c + 1))⟩ := by
  have heq := (addr_eq_iff hcfg hfit).mpr hc
  simp only [step, streaming, St.out, St.stateNext, St.addrNext, St.enS, Ports.toIn, hp, heq]
  simp

variable (mem cfg p) in
/-- The last word is offered in one cycle, whatever the receiver does in it. -/
theorem step_tlast (a : BitVec A) (d : BitVec D) :
    step mem ⟨.tlast, a, d⟩ (p.toIn cfg) = ⟨.finish, a, d⟩ ∧
      transferred (⟨.tlast, a, d⟩ : St A D) (p.toIn cfg) =
        if p.mAxisTready then [(d, true)] else [] := by
  simp [step, transferred, St.out, St.stateNext, St.addrNext, St.enS, St.tvalidS, Ports.toIn]

/-! ### The run -/

/-- The number of words that are sent without a comparison that succeeds. -/
def lead (cfg : BitVec D) : ℕ := max 1 (cfg.toNat - 1)

variable (mem) in
/-- While the receiver has been ready for at most `lead` cycles, it has got the words in
order, and the machine is on its way. -/
theorem streaming_run (hcfg : 1 ≤ cfg.toNat) (hfit : cfg.toNat ≤ 2 ^ A) (n : ℕ)
    (hn : readies ports n ≤ lead cfg) :
    regs mem cfg ports n = streaming mem (readies ports n) ∧
      sent mem cfg ports n = unmarked mem (readies ports n - 1) := by
  induction n with
  | zero => exact ⟨rfl, rfl⟩
  | succ n ih =>
    rw [readies_succ] at hn ⊢
    obtain ⟨hregs, hsent⟩ := ih (by omega)
    rw [regs_succ, sent_succ, hregs, hsent]
    cases hp : (ports n).mAxisTready with
    | false =>
      obtain ⟨hstep, hout⟩ := step_wait mem cfg hp (readies ports n)
      rw [hstep, hout]
      exact ⟨rfl, List.append_nil _⟩
    | true =>
      rw [hp, Bool.toNat_true, lead] at hn
      exact ⟨step_word hcfg hp (by omega) (by omega), transferred_streaming hp _⟩

/-- The reader does not ask for the next acquisition on the way. -/
theorem not_restart_streaming (hcfg : 1 ≤ cfg.toNat) (hfit : cfg.toNat ≤ 2 ^ A)
    (hn : readies ports n ≤ lead cfg) : ¬restart mem cfg ports n := by
  rw [restart, (streaming_run mem hcfg hfit n hn).1]
  cases readies ports n <;> simp [streaming, started, St.out]

theorem readies_mono {m : ℕ} (h : m ≤ n) : readies ports m ≤ readies ports n :=
  Nat.count_monotone _ h

/-- The cycle in which the receiver is ready for one cycle more. -/
theorem exists_ready (h : c < readies ports n) :
    ∃ t < n, (ports t).mAxisTready = true ∧ readies ports t = c := by
  induction n with
  | zero => exact absurd h (Nat.not_lt_zero c)
  | succ n ih =>
    by_cases hc : c < readies ports n
    · obtain ⟨t, ht, hready⟩ := ih hc
      exact ⟨t, Nat.lt_succ_of_lt ht, hready⟩
    · rw [readies_succ] at h
      cases hp : (ports n).mAxisTready with
      | false => rw [hp, Bool.toNat_false] at h; omega
      | true =>
        rw [hp, Bool.toNat_true] at h
        exact ⟨n, Nat.lt_succ_self n, hp, by omega⟩

/-- A receiver that is ready again and again gets anywhere. -/
theorem exists_lt_readies (h : ∀ m, ∃ n ≥ m, (ports n).mAxisTready = true) (c : ℕ) :
    ∃ n, c < readies ports n := by
  induction c with
  | zero =>
    obtain ⟨n, -, hn⟩ := h 0
    refine ⟨n + 1, ?_⟩
    rw [readies_succ, hn, Bool.toNat_true]
    omega
  | succ c ih =>
    obtain ⟨m, hm⟩ := ih
    obtain ⟨n, hmn, hn⟩ := h m
    have hmono : readies ports m ≤ readies ports n := readies_mono hmn
    refine ⟨n + 1, ?_⟩
    rw [readies_succ, hn, Bool.toNat_true]
    omega

variable (mem) in
/-- The end of the stream: the last word is offered in the cycle after the one in which the
receiver is ready for the `cfg_data_i`-th time, and then the machine has finished. -/
theorem ending (hcfg : cfg.toNat = c + 2) (hfit : cfg.toNat ≤ 2 ^ A)
    (ht : (ports t).mAxisTready = true) (hcount : readies ports t = c + 1) :
    ¬restart mem cfg ports (t + 1) ∧ sent mem cfg ports (t + 1) = unmarked mem (c + 1) ∧
      restart mem cfg ports (t + 2) ∧
      sent mem cfg ports (t + 2) = unmarked mem (c + 1) ++
        if (ports (t + 1)).mAxisTready then [(mem (BitVec.ofNat A (c + 1)), true)] else [] := by
  have hlead : readies ports t ≤ lead cfg := by
    rw [lead]
    omega
  obtain ⟨hregs, hsent⟩ := streaming_run mem (by omega) hfit t hlead
  have hlast := step_fetchLast mem (p := ports t) (by omega) ht (by omega) hcfg.symm
  have hregs₁ := regs_succ mem cfg ports t
  rw [hregs, hcount, hlast] at hregs₁
  have hsent₁ := sent_succ mem cfg ports t
  rw [hregs, hsent, transferred_streaming ht, hcount] at hsent₁
  obtain ⟨hstep, hout⟩ := step_tlast mem cfg (ports (t + 1))
    (BitVec.ofNat A (c + 1) + 1) (mem (BitVec.ofNat A (c + 1)))
  have hregs₂ := regs_succ mem cfg ports (t + 1)
  rw [hregs₁, hstep] at hregs₂
  have hsent₂ := sent_succ mem cfg ports (t + 1)
  rw [hregs₁, hsent₁, hout] at hsent₂
  refine ⟨?_, hsent₁, ?_, hsent₂⟩
  · simp [restart, hregs₁, St.out]
  · simp [restart, hregs₂, St.out]

/-- The condition on the receiver: with two words or more it is ready in the cycle that
follows the `cfg_data_i`-th one in which it was ready; with one word it is ready only once. -/
def Suits (cfg : BitVec D) (ports : ℕ → Ports) : Prop :=
  if cfg.toNat = 1 then ∀ n, readies ports n ≤ 1
  else ∀ t, (ports t).mAxisTready = true → readies ports t + 1 = cfg.toNat →
    (ports (t + 1)).mAxisTready = true

theorem unmarked_mono {d : ℕ} (h : c ≤ d) : unmarked mem c <+: unmarked mem d := by
  induction d, h using Nat.le_induction with
  | base => exact List.prefix_rfl
  | succ d _ ih =>
    rw [unmarked_succ]
    exact ih.trans (List.prefix_append _ _)

/-- The words that are sent on the way are the first ones of the packet. -/
theorem unmarked_prefix (hc : c < cfg.toNat) : unmarked mem c <+: expected mem cfg := by
  obtain ⟨d, hd⟩ : ∃ d, cfg.toNat = d + 1 := ⟨cfg.toNat - 1, by omega⟩
  rw [expected_eq hd]
  exact (unmarked_mono (by omega)).trans (List.prefix_append _ _)

theorem lead_of_two_le (hcfg : cfg.toNat = c + 2) : lead cfg = c + 1 := by
  rw [lead]
  omega

/-- The last word goes to a receiver that is ready in the cycle in which it is offered, and a
reader that has lost it has still finished. -/
theorem next_ready_of_delivers (hcfg : cfg.toNat = c + 2) (hfit : cfg.toNat ≤ 2 ^ A)
    (h : Delivers mem cfg ports) (ht : (ports t).mAxisTready = true)
    (hcount : readies ports t + 1 = cfg.toNat) : (ports (t + 1)).mAxisTready = true := by
  obtain ⟨hgo, -, hend, hsent⟩ := ending mem hcfg hfit ht (by omega)
  have hfirst : ∀ m < t + 2, ¬restart mem cfg ports m := by
    intro m hm
    rcases Nat.lt_succ_iff_lt_or_eq.mp hm with hlt | rfl
    · have hmono : readies ports m ≤ readies ports t := readies_mono (Nat.le_of_lt_succ hlt)
      refine not_restart_streaming (by omega) hfit ?_
      rw [lead_of_two_le hcfg]
      omega
    · exact hgo
  have hall := h.complete (t + 2) hfirst hend
  by_contra hready
  rw [hsent, if_neg hready, List.append_nil, expected_eq hcfg] at hall
  simpa using congrArg List.length hall

variable (mem) in
/-- The cycle in which the last word has been fetched, and the two cycles after it. -/
theorem packet_done (hcfg : cfg.toNat = c + 2) (hfit : cfg.toNat ≤ 2 ^ A)
    (hnext : ∀ t, (ports t).mAxisTready = true → readies ports t + 1 = cfg.toNat →
      (ports (t + 1)).mAxisTready = true) (hn : c + 1 < readies ports n) :
    ∃ t < n, ¬restart mem cfg ports (t + 1) ∧ restart mem cfg ports (t + 2) ∧
      sent mem cfg ports (t + 1) = unmarked mem (c + 1) ∧
      sent mem cfg ports (t + 2) = expected mem cfg := by
  obtain ⟨t, htn, ht, hcount⟩ := exists_ready hn
  obtain ⟨hgo, hsent, hend, hlast⟩ := ending mem hcfg hfit ht hcount
  rw [if_pos (hnext t ht (by omega)), ← expected_eq hcfg] at hlast
  exact ⟨t, htn, hgo, hend, hsent, hlast⟩

theorem delivers_of_next_ready (hcfg : cfg.toNat = c + 2) (hfit : cfg.toNat ≤ 2 ^ A)
    (hnext : ∀ t, (ports t).mAxisTready = true → readies ports t + 1 = cfg.toNat →
      (ports (t + 1)).mAxisTready = true) : Delivers mem cfg ports where
  inOrder := by
    intro n hnone
    by_cases hn : readies ports n ≤ c + 1
    · have hlead : readies ports n ≤ lead cfg := hn.trans (lead_of_two_le hcfg).ge
      rw [(streaming_run mem (by omega) hfit n hlead).2]
      exact unmarked_prefix (by omega)
    · obtain ⟨t, htn, -, hend, hsent, hlast⟩ :=
        packet_done mem hcfg hfit hnext (Nat.lt_of_not_le hn)
      have hle : n ≤ t + 2 := Nat.le_of_not_lt fun hlt => hnone _ hlt hend
      rcases (by omega : n = t + 1 ∨ n = t + 2) with rfl | rfl
      · rw [hsent]
        exact unmarked_prefix (by omega)
      · rw [hlast]
  complete := by
    intro n hnone hn
    have hlt : c + 1 < readies ports n := by
      refine Nat.lt_of_not_le fun hle => ?_
      have hlead : readies ports n ≤ lead cfg := hle.trans (lead_of_two_le hcfg).ge
      exact not_restart_streaming (by omega) hfit hlead hn
    obtain ⟨t, htn, hgo, hend, -, hlast⟩ := packet_done mem hcfg hfit hnext hlt
    have hle : n ≤ t + 2 := Nat.le_of_not_lt fun hlt => hnone _ hlt hend
    rcases (by omega : n = t + 1 ∨ n = t + 2) with rfl | rfl
    · exact absurd hn hgo
    · exact hlast
  finishes := by
    intro hready
    obtain ⟨n, hn⟩ := exists_lt_readies hready (c + 1)
    obtain ⟨t, -, -, hend, -⟩ := packet_done mem hcfg hfit hnext hn
    exact ⟨t + 2, hend⟩

/-- One word is sent without its mark as soon as the receiver is ready for the second
time. -/
theorem delivers_iff_of_one (hcfg : cfg.toNat = 1) (hfit : cfg.toNat ≤ 2 ^ A) :
    Delivers mem cfg ports ↔ ∀ n, readies ports n ≤ 1 := by
  have hlead : lead cfg = 1 := by
    rw [lead, hcfg]
    rfl
  have hway : ∀ m, readies ports m ≤ 1 → ¬restart mem cfg ports m := fun m hm =>
    not_restart_streaming (by omega) hfit (hlead ▸ hm)
  constructor
  case mp =>
    intro h n
    by_contra hn
    obtain ⟨t, -, ht, hcount⟩ := exists_ready (Nat.lt_of_not_le hn)
    have hnone : ∀ m < t + 1, ¬restart mem cfg ports m := by
      intro m hm
      have hmono : readies ports m ≤ readies ports t := readies_mono (Nat.le_of_lt_succ hm)
      exact hway m (by omega)
    have hpre := h.inOrder (t + 1) hnone
    obtain ⟨hregs, hsent⟩ := streaming_run mem (by omega) hfit t
      (Nat.le_of_eq (hcount.trans hlead.symm))
    rw [sent_succ, hregs, hsent, transferred_streaming ht, hcount, expected_eq hcfg] at hpre
    simp [unmarked] at hpre
  case mpr =>
    intro h
    refine ⟨?_, ?_, ?_⟩
    · intro n _
      rw [(streaming_run mem (by omega) hfit n (hlead ▸ h n)).2]
      have hn := h n
      exact unmarked_prefix (by omega)
    · intro n _ hn
      exact absurd hn (hway n (h n))
    · intro hready
      obtain ⟨n, hn⟩ := exists_lt_readies hready 1
      exact absurd (h n) (Nat.not_le_of_lt hn)

end Start

/-- A start delivers its words if and only if the receiver suits the reader. -/
theorem delivers_iff_suits (mem : BitVec A → BitVec D) (cfg : BitVec D) (hcfg : 1 ≤ cfg.toNat)
    (hfit : cfg.toNat ≤ 2 ^ A) (ports : ℕ → Ports) :
    Delivers mem cfg ports ↔ Suits cfg ports := by
  unfold Suits
  split_ifs with hone
  · exact delivers_iff_of_one hone hfit
  -- with two words or more, the end of the stream is the only thing that can go wrong
  · obtain ⟨c, hc⟩ : ∃ c, cfg.toNat = c + 2 := ⟨cfg.toNat - 2, by omega⟩
    exact ⟨fun h _ => next_ready_of_delivers hc hfit h, delivers_of_next_ready hc hfit⟩

/-- Two words, and a receiver that is always ready. -/
theorem delivers_iff_suits_ready :
    (Delivers (fun a : BitVec 2 => a.setWidth 16) 2 (fun _ => ⟨false, false, true⟩) ↔
      Suits (2 : BitVec 16) fun _ => ⟨false, false, true⟩) ∧
    Delivers (fun a : BitVec 2 => a.setWidth 16) (2 : BitVec 16) fun _ => ⟨false, false, true⟩ := by
  have hiff := delivers_iff_suits (fun a : BitVec 2 => a.setWidth 16) 2 (by decide) (by decide)
    fun _ => ⟨false, false, true⟩
  refine ⟨hiff, hiff.mpr ?_⟩
  rw [Suits, if_neg (by decide)]
  exact fun _ _ _ => rfl

/-- Two words of a memory of four, and a receiver that is not ready when the last one is
offered. -/
theorem last_word_lost :
    1 ≤ (2 : BitVec 16).toNat ∧ (2 : BitVec 16).toNat ≤ 2 ^ 2 ∧
      ¬Delivers (fun a : BitVec 2 => a.setWidth 16) (2 : BitVec 16)
        fun n => ⟨false, false, decide (n < 2)⟩ := by
  refine ⟨by decide, by decide, fun h => ?_⟩
  have hall := h.complete 3 (by decide) (by decide)
  exact absurd hall (by decide)

end LagoEcosystem.BramReader
