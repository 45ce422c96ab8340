import LagoEcosystem.Library.Sweep

/-!
# The reader of a memory

`axis_bram_reader`, which reads a memory as a stream, pass after pass. The memory answers one
clock later and sees `addr_next`, so the word at its output is that of `addr_reg`. The flags
`comp_reg` and `tlast_reg` compare the address of the cycle before, whether or not a word has
been taken since.
-/

namespace LagoEcosystem.AxisBramReader

open Clocked Sweep

/-- The input ports; `A` is `BRAM_ADDR_WIDTH`. -/
structure In (A : ℕ) where
  aresetn : Bool
  cfgData : BitVec A
  mAxisTready : Bool

/-- The registers, with that of the memory port; `D` is `BRAM_DATA_WIDTH` and
`AXIS_TDATA_WIDTH`. -/
structure St (A D : ℕ) where
  addrReg : BitVec A
  addrDlyReg : BitVec A
  tlastReg : Bool
  compReg : Bool
  bramPortaRddata : BitVec D

/-- The output ports. -/
structure Out (A D : ℕ) where
  stsData : BitVec A
  mAxisTdata : BitVec D
  mAxisTvalid : Bool
  mAxisTlast : Bool
  bramPortaRst : Bool
  bramPortaAddr : BitVec A

variable {A D : ℕ}

def St.compNext (s : St A D) (i : In A) : Bool := if s.addrReg = i.cfgData then false else true

def St.tlastNext (s : St A D) (i : In A) : Bool := if s.addrReg = i.cfgData - 1 then true else false

def St.addrNext (s : St A D) (i : In A) : BitVec A :=
  if i.mAxisTready && s.compReg then s.addrReg + 1
  else if !s.compReg then 0
  else s.addrReg

def St.addrDlyNext (s : St A D) : BitVec A := s.addrReg

def St.out (s : St A D) (i : In A) : Out A D where
  stsData := s.addrDlyReg
  mAxisTdata := s.bramPortaRddata
  mAxisTvalid := s.compReg
  mAxisTlast := s.tlastReg
  bramPortaRst := !i.aresetn
  bramPortaAddr := s.addrNext i

/-- The registers after a clock edge with `aresetn` low. -/
def St.reset : St A D := ⟨0, 0, false, false, 0⟩

def step (mem : BitVec A → BitVec D) (s : St A D) (i : In A) : St A D where
  addrReg := if i.aresetn then s.addrNext i else 0
  addrDlyReg := if i.aresetn then s.addrDlyNext else 0
  tlastReg := i.aresetn && s.tlastNext i
  compReg := i.aresetn && s.compNext i
  bramPortaRddata := if (s.out i).bramPortaRst then 0 else mem (s.out i).bramPortaAddr

/-- The word that is handed over in a cycle, with its `tlast`. -/
def transferred (s : St A D) (i : In A) : List (BitVec D × Bool) :=
  if (s.out i).mAxisTvalid && i.mAxisTready then [((s.out i).mAxisTdata, (s.out i).mAxisTlast)]
  else []

/-- A cycle outside the reset. -/
def In.running (cfgData : BitVec A) (tready : Bool) : In A := ⟨true, cfgData, tready⟩

theorem step_reset (mem : BitVec A → BitVec D) (s : St A D) {i : In A} (h : i.aresetn = false) :
    step mem s i = .reset := by
  simp [step, St.out, St.reset, h]

/-- The words handed over in a run, given by the cycles in which the receiver is ready. -/
def given (mem : BitVec A → BitVec D) (cfg : BitVec A) (rs : List Bool) :
    List (BitVec D × Bool) :=
  collect (step mem) transferred .reset (rs.map (.running cfg))

/-- All passes have one length, and each is the words of the memory from address zero on with
`tlast` on the last one. -/
def PassLaw (D : ℕ) (cfg : BitVec A) (rs : List Bool) : Prop :=
  ∃ len ≥ 1, ∀ mem : BitVec A → BitVec D, ∀ k, ∀ x ∈ (given mem cfg rs)[k]?,
    x = (mem (BitVec.ofNat A (k % len)), decide (k % len + 1 = len))

/-! ## The reader is a sweep -/

/-- The control registers as those of a sweep to `cfg_data`. -/
def St.sweep (s : St A D) : Sweep.St A := ⟨s.addrReg, s.compReg, s.tlastReg⟩

theorem sweep_step (mem : BitVec A → BitVec D) (cfg : BitVec A) (s : St A D) (r : Bool) :
    (step mem s (.running cfg r)).sweep = next cfg s.sweep r := by
  have hcomp : s.compNext (.running cfg r) = decide (s.addrReg ≠ cfg) := by
    show (if s.addrReg = cfg then false else true) = _
    simp only [Bool.if_true_right, Bool.or_false, decide_not, ne_eq]
  have htlast : s.tlastNext (.running cfg r) = decide (s.addrReg = cfg - 1) := by
    show (if s.addrReg = cfg - 1 then true else false) = _
    simp only [Bool.if_false_right, Bool.and_true]
  rw [step, St.sweep, hcomp, htlast]
  rfl

/-- The reader is the sweep, and a word on offer is that of the address register. -/
def Shows (mem : BitVec A → BitVec D) (s : St A D) (t : Sweep.St A) : Prop :=
  s.sweep = t ∧ (s.compReg = true → s.bramPortaRddata = mem s.addrReg)

theorem Shows.transferred_eq {mem : BitVec A → BitVec D} {s : St A D} {t : Sweep.St A}
    (h : Shows mem s t) (cfg : BitVec A) (r : Bool) :
    transferred s (.running cfg r) = (shown mem t r).map id := by
  obtain ⟨rfl, hword⟩ := h
  rw [List.map_id]
  show (if s.compReg && r then [(s.bramPortaRddata, s.tlastReg)] else []) =
    if s.compReg && r then [(mem s.addrReg, s.tlastReg)] else []
  split_ifs with hgo
  · rw [hword (Bool.and_eq_true_iff.mp hgo).1]
  · rfl

theorem given_eq_words (mem : BitVec A → BitVec D) (cfg : BitVec A) (rs : List Bool) :
    given mem cfg rs = words cfg mem .reset rs := by
  have hstep : ∀ s t r, Shows mem s t →
      Shows mem (step mem s (.running cfg r)) (next cfg t r) := by
    rintro s _ r ⟨rfl, -⟩
    exact ⟨sweep_step mem cfg s r, fun _ => rfl⟩
  have hreset : Shows mem .reset .reset := ⟨rfl, fun h => Bool.noConfusion h⟩
  have hsim := simulate (In.running cfg) id hstep (fun s t r h => h.transferred_eq cfg r) hreset rs
  exact hsim.2.trans (List.map_id _)

/-- The reader makes regular passes for a receiver if and only if it hands over nothing any more
after a cycle without a transfer in which the address is one of the last two, or ends every
pass one word early. -/
theorem passLaw_iff (D : ℕ) (hD : 1 ≤ D) (cfg : BitVec A) (hcfg : 1 ≤ cfg.toNat)
    (rs : List Bool) : PassLaw D cfg rs ↔
      Unspoiled cfg .reset rs ∨ Along (next cfg) (Shortened cfg) .reset rs := by
  have := BitFields.nontrivial_of_pos hD
  rw [← exists_length_iff hcfg rs, PassLaw]
  refine exists_congr fun N => and_congr_right fun _ => ?_
  rw [← follows_forall_iff (BitVec D)]
  simp only [given_eq_words, Follows, passes, Nat.zero_add]

/-- Three words, and a receiver that waits with the first one. -/
theorem passLaw_iff_three :
    PassLaw 8 (2 : BitVec 4) [true, false, true, true, true, true] ↔
      Unspoiled (2 : BitVec 4) .reset [true, false, true, true, true, true] ∨
        Along (next (2 : BitVec 4)) (Shortened 2) .reset [true, false, true, true, true, true] :=
  passLaw_iff 8 (by decide) 2 (by decide) _

/-- Three words, and a receiver that waits with the second one: it and the third one have the
mark. -/
theorem two_marks : 1 ≤ (2 : BitVec 4).toNat ∧
    ¬PassLaw 4 (2 : BitVec 4) [true, true, false, true, true] := by
  refine ⟨by decide, ?_⟩
  rintro ⟨len, hlen, h⟩
  have hfirst := h id 0 (0, false) (by decide)
  have hsecond := h id 1 (1, true) (by decide)
  have hthird := h id 2 (2, true) (by decide)
  obtain rfl | rfl | hlong : len = 1 ∨ len = 2 ∨ 3 ≤ len := by omega
  · exact absurd hfirst (by decide)
  · exact absurd hthird (by decide)
  · have hmark := of_decide_eq_true (Prod.mk.inj hsecond).2.symm
    rw [Nat.mod_eq_of_lt (by omega)] at hmark
    omega

end LagoEcosystem.AxisBramReader
