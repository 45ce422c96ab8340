import LagoEcosystem.CfgRegister.Answers

/-!
# The stream writer of the processor

`axi_axis_writer`, through which the processor writes into a stream. Every word on the data
channel passes through in the same cycle, whatever the address channel does and whether the
stream takes it or not; only the response has a register.

The core declares the ports of the read channels and drives none of them, and it looks at
nothing on the address channel.
-/

namespace LagoEcosystem.AxiAxisWriter

open Clocked
open CfgRegister (overrun)

/-- The input ports; `D` is `AXI_DATA_WIDTH`. -/
structure In (D : ℕ) where
  aresetn : Bool
  sAxiWdata : BitVec D
  sAxiWvalid : Bool
  sAxiBready : Bool

structure St where
  intValidReg : Bool

/-- The output ports. -/
structure Out (D : ℕ) where
  sAxiAwready : Bool
  sAxiWready : Bool
  sAxiBresp : BitVec 2
  sAxiBvalid : Bool
  mAxisTdata : BitVec D
  mAxisTvalid : Bool

variable {D : ℕ}

def St.intValidNext (s : St) (i : In D) : Bool :=
  if i.sAxiWvalid then true
  else if i.sAxiBready && s.intValidReg then false
  else s.intValidReg

def St.out (s : St) (i : In D) : Out D where
  sAxiAwready := true
  sAxiWready := true
  sAxiBresp := 0
  sAxiBvalid := s.intValidReg
  mAxisTdata := i.sAxiWdata
  mAxisTvalid := i.sAxiWvalid

/-- The register after a clock edge with `aresetn` low. -/
def St.reset : St := ⟨false⟩

def step (s : St) (i : In D) : St :=
  if i.aresetn then ⟨s.intValidNext i⟩ else .reset

/-! ## Handshakes -/

/-- A handshake on the data channel. -/
def wOut (s : St) (i : In D) : List Unit :=
  if i.sAxiWvalid && (s.out i).sAxiWready then [()] else []

/-- A handshake on the response channel. -/
def bOut (s : St) (i : In D) : List Unit :=
  if (s.out i).sAxiBvalid && i.sAxiBready then [()] else []

/-- What the stream is offered. -/
def streamOut (s : St) (i : In D) : List (BitVec D) :=
  if (s.out i).mAxisTvalid then [(s.out i).mAxisTdata] else []

def after (is : List (In D)) : St := run step .reset is

/-- No word comes while the response before it waits and is not taken. -/
def NoOverrun (s : St) (i : In D) : Prop :=
  i.sAxiWvalid = true → s.intValidReg = true → i.sAxiBready = true

instance (s : St) (i : In D) : Decidable (NoOverrun s i) :=
  inferInstanceAs (Decidable (_ → _ → _))

/-! ## Counting -/

/-- The words that get no answer of their own. -/
def bOverrun (s : St) (i : In D) : List Unit := overrun s.intValidReg i.sAxiWvalid i.sAxiBready

theorem noOverrun_iff (s : St) (i : In D) : NoOverrun s i ↔ bOverrun s i = [] := by
  unfold NoOverrun bOverrun overrun
  grind

/-- The answer that waits. -/
def St.waiting (s : St) : List Unit := if s.intValidReg then [()] else []

section Run

variable {is : List (In D)}

theorem length_waiting (h : ∀ i ∈ is, i.aresetn = true) :
    (collect step wOut .reset is).length = (collect step bOut .reset is).length +
      (after is).waiting.length + (collect step bOverrun .reset is).length := by
  have hcount := (along_of_forall step .reset h).length_conserve wOut bOut St.waiting bOverrun
    fun s i hi => by
      cases hv : s.intValidReg <;> cases hw : i.sAxiWvalid <;> cases hb : i.sAxiBready <;>
        simp_all [St.waiting, wOut, bOut, bOverrun, overrun, step, St.intValidNext, St.out]
  exact (Nat.zero_add _).symm.trans hcount

/-- Every word is answered or about to be, throughout the run, exactly if none comes while the
response before it waits and is not taken. -/
theorem answers_iff (is : List (In D)) (h : ∀ i ∈ is, i.aresetn = true) :
    (∀ js, js <+: is → (collect step wOut .reset js).length =
      (collect step bOut .reset js).length + (after js).waiting.length) ↔
    Along step NoOverrun .reset is := by
  have hlost : Along step NoOverrun .reset is ↔ collect step bOverrun .reset is = [] := by
    rw [collect_eq_nil_iff]
    exact along_congr (P := fun _ => True) trivial (fun _ _ _ => trivial)
      (fun s i _ => noOverrun_iff s i) is
  rw [hlost]
  constructor
  · intro hall
    have hcount := length_waiting h
    have hsame := hall is List.prefix_rfl
    exact List.eq_nil_of_length_eq_zero (by omega)
  · rintro hnil js ⟨ks, rfl⟩
    rw [collect_append, List.append_eq_nil_iff] at hnil
    have hcount := length_waiting fun i hi => h i (List.mem_append_left ks hi)
    rw [hnil.1, List.length_nil, Nat.add_zero] at hcount
    exact hcount

end Run

/-- Three words, of which the second one comes with the response to the first one. -/
def threeWords : List (In 32) :=
  [⟨true, 5, true, false⟩, ⟨true, 6, true, true⟩, ⟨true, 0, false, true⟩, ⟨true, 7, true, false⟩]

theorem answers_iff_threeWords :
    (∀ js, js <+: threeWords → (collect step wOut .reset js).length =
      (collect step bOut .reset js).length + (after js).waiting.length) ↔
    Along step NoOverrun .reset threeWords :=
  answers_iff threeWords (by decide)

end LagoEcosystem.AxiAxisWriter
