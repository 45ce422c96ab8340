import LagoEcosystem.CfgRegister.Core

/-!
# The configuration register is a byte store

What a byte holds is told by the list of the accepted writes: the byte of the last write
that strobed it. The flip-flops are cleared one clock after the reset registers, at the
first edge with `aresetn` high; a master raises its first valid after that edge.
-/

namespace LagoEcosystem.CfgRegister

open BitFields Clocked

variable {g : Generics}

/-- The write has the strobe of byte `b` set and addresses word `j`. -/
def Write.strobes (w : Write g) (j : Fin g.cfgSize) (b : ℕ) : Bool :=
  wordIndex w.addr == j && w.strb.getLsbD b

/-- The last byte written to byte `b` of word `j`, or zero. -/
def lastByte (ws : List (Write g)) (j : Fin g.cfgSize) (b : ℕ) : BitVec 8 :=
  ((ws.reverse.find? fun w => w.strobes j b).map fun w => byteAt w.data b).getD 0

@[simp] theorem lastByte_nil (j : Fin g.cfgSize) (b : ℕ) : lastByte [] j b = 0 := rfl

theorem lastByte_append_singleton (ws : List (Write g)) (w : Write g) (j : Fin g.cfgSize)
    (b : ℕ) : lastByte (ws ++ [w]) j b =
      if w.strobes j b then byteAt w.data b else lastByte ws j b := by
  unfold lastByte
  rw [List.reverse_append, List.reverse_singleton, List.singleton_append, List.find?_cons]
  cases w.strobes j b <;> simp

/-- The store after the cycles of `is`, and in the next one. -/
structure StoreLaw (data : Fin g.cfgSize → BitVec 32) (is : List (In g)) : Prop where
  content : ∀ j, ∀ b < 4,
    byteAt ((after data is).intDataWire j) b = lastByte (writes data is) j b
  unchanged : ∀ (i : In g) j, ∀ b < 4, (∀ w ∈ writeOut (after data is) i, w.strobes j b = false) →
    byteAt ((after data (is ++ [i])).intDataWire j) b =
      byteAt ((after data is).intDataWire j) b
  /-- An accepted read fetches the word it addresses. -/
  fetched : ∀ i : In g, i.aresetn = true → i.sAxiArvalid = true →
    ∀ h : wordIndex i.sAxiAraddr < g.cfgSize,
      (after data (is ++ [i])).intRdataReg = (after data is).intDataWire ⟨_, h⟩

/-! ## One edge -/

/-- A byte is cleared, written as a whole or kept as a whole. -/
theorem byteAt_dataNext (s : St g) (i : In g) (j : Fin g.cfgSize) {b : ℕ} (hb : b < 4) :
    byteAt (s.dataNext i j) b =
      if s.resetS then 0
      else if i.intCeWire j && i.sAxiWstrb.getLsbD b then byteAt i.sAxiWdata b
      else byteAt (s.intDataWire j) b := by
  have hbit : ∀ k < 8, (s.dataNext i j).getLsbD (8 * b + k) =
      fdre ((s.intDataWire j).getLsbD (8 * b + k))
        (i.intCeWire j && i.sAxiWstrb.getLsbD b) s.resetS
        (i.sAxiWdata.getLsbD (8 * b + k)) := by
    intro k hk
    have hlane : (8 * b + k) / 8 = b := by omega
    have hlt : 8 * b + k < 32 := by omega
    calc (s.dataNext i j).getLsbD (8 * b + k)
        = fdre ((s.intDataWire j).getLsbD (8 * b + k)) (i.tmpS1 j ⟨8 * b + k, hlt⟩) s.resetS
            (i.sAxiWdata.getLsbD (8 * b + k)) := getLsbD_ofBits _ (⟨8 * b + k, hlt⟩ : Fin 32)
      _ = _ := by rw [In.tmpS1, hlane]
  split
  case isTrue hr =>
    have hzero : byteAt (0 : BitVec 32) b = 0 := by simp [byteAt]
    rw [← hzero]
    exact byteAt_eq_iff.mpr fun k hk => by simp [hbit k hk, fdre, hr]
  case isFalse hr =>
    split
    case isTrue hce => exact byteAt_eq_iff.mpr fun k hk => by simp [hbit k hk, fdre, hr, hce]
    case isFalse hce => exact byteAt_eq_iff.mpr fun k hk => by simp [hbit k hk, fdre, hr, hce]

/-- The clock enable of a byte is the strobe of the accepted write. -/
theorem intCeWire_and_strobe (s : St g) (i : In g) (j : Fin g.cfgSize) (b : ℕ) :
    (i.intCeWire j && i.sAxiWstrb.getLsbD b) =
      (writeOut s i).any fun w => w.strobes j b := by
  unfold writeOut In.intCeWire
  cases hv : i.intWvalidWire <;> simp [Write.strobes]

theorem lastByte_append_writeOut (ws : List (Write g)) (s : St g) (i : In g)
    (j : Fin g.cfgSize) (b : ℕ) : lastByte (ws ++ writeOut s i) j b =
      if i.intCeWire j && i.sAxiWstrb.getLsbD b then byteAt i.sAxiWdata b
      else lastByte ws j b := by
  rw [intCeWire_and_strobe s]
  unfold writeOut
  cases hv : i.intWvalidWire with
  | false => simp
  | true => simp [lastByte_append_singleton]

/-! ## Runs -/

/-- The first edge with `aresetn` high: no valid signal has been raised. -/
def In.FirstAfterReset (i : In g) : Prop :=
  i.aresetn = true ∧ i.sAxiAwvalid = false ∧ i.sAxiWvalid = false ∧ i.sAxiArvalid = false

instance (i : In g) : Decidable i.FirstAfterReset := inferInstanceAs (Decidable (_ ∧ _ ∧ _ ∧ _))

/-- The bytes are those of the writes, and the flip-flops are out of reset. -/
structure Stored (data : Fin g.cfgSize → BitVec 32) (is : List (In g)) : Prop where
  running : (after data is).resetS = false
  content : ∀ j, ∀ b < 4,
    byteAt ((after data is).intDataWire j) b = lastByte (writes data is) j b

section Run

variable {data : Fin g.cfgSize → BitVec 32} {is : List (In g)} {i : In g}

theorem stored_first (h : i.FirstAfterReset) : Stored data [i] := by
  obtain ⟨hres, haw, -, -⟩ := h
  have hnone : writes data [i] = [] := by simp [writes, writeOut, In.intWvalidWire, haw]
  refine ⟨by simp [after, step, hres], fun j b hb => ?_⟩
  rw [hnone]
  show byteAt ((St.reset data).dataNext i j) b = 0
  rw [byteAt_dataNext _ _ _ hb]
  rfl

theorem Stored.snoc (h : Stored data is) (hi : i.aresetn = true) : Stored data (is ++ [i]) := by
  refine ⟨by simp [after, step, hi], fun j b hb => ?_⟩
  rw [after_snoc, writes_snoc, lastByte_append_writeOut]
  show byteAt ((after data is).dataNext i j) b = _
  rw [byteAt_dataNext _ _ _ hb, h.running, h.content j b hb]
  rfl

theorem stored_after (h₀ : i.FirstAfterReset) (h : ∀ j ∈ is, j.aresetn = true) :
    Stored data (i :: is) := by
  have halong := along_of_forall step (after data [i]) h
  refine halong.induction_on_past (P := fun js => Stored data (i :: js)) (stored_first h₀) ?_
  intro js k _ hjs hk
  exact hjs.snoc hk

end Run

/-! A cycle out of reset without requests and with the master ready, and one with a write. -/

def In.quiet : In .default where
  aresetn := true
  sAxiAwaddr := 0
  sAxiAwvalid := false
  sAxiWdata := 0
  sAxiWstrb := 0
  sAxiWvalid := false
  sAxiBready := true
  sAxiAraddr := 0
  sAxiArvalid := false
  sAxiRready := true
  muxOutside := 0

def In.write (addr : BitVec 32) (data : BitVec 32) (strb : BitVec 4) : In .default :=
  { In.quiet with
    sAxiAwaddr := addr, sAxiAwvalid := true,
    sAxiWdata := data, sAxiWstrb := strb, sAxiWvalid := true }

end LagoEcosystem.CfgRegister
