import LagoEcosystem.AxisFifo.Safety

/-!
# The walk of the pointers

The pointers of `fifo_write_ctrl` and `fifo_read_ctrl` go through all codes of their width.
One bit changes in a step, the wrap included, so that a synchroniser which catches a pointer
on its way sees the old or the new one.
-/

namespace LagoEcosystem.AxisFifo

open GrayCode Clocked

variable {n : ℕ}

/-- The wires `gray1` are the code of `bin1`. -/
theorem gray1_eq (ptr : BitVec (n + 1)) : gray1 ptr = gray (bin1 ptr) := rfl

theorem gray1_eq_grayNext : (gray1 : BitVec (n + 1) → BitVec (n + 1)) = grayNext := rfl

/-- The two conversions, the step, and the walk, for pointers of `n + 1` bits. -/
structure PointerLaw (n : ℕ) : Prop where
  /-- The wires `bin` feed back into themselves, and their equation has one solution. -/
  solved : ∀ ptr b : BitVec (n + 1), b = ptr ^^^ (b >>> 1) ↔ b = bin ptr
  coded : ∀ ptr : BitVec (n + 1), gray1 ptr = gray (bin1 ptr)
  bin_gray : ∀ b : BitVec (n + 1), bin (gray b) = b
  gray_bin : ∀ ptr : BitVec (n + 1), gray (bin ptr) = ptr
  oneBit : ∀ ptr : BitVec (n + 1), ∃! i, ptr.getLsbD i ≠ (gray1 ptr).getLsbD i
  /-- The last pointer is followed by the first one, and differs from it in the top bit. -/
  wrap : gray1 (gray (BitVec.allOnes (n + 1))) = gray 0 ∧
    ∀ i, (gray (BitVec.allOnes (n + 1))).getLsbD i ≠ (gray (0 : BitVec (n + 1))).getLsbD i ↔ i = n
  /-- From every pointer to every other one, and back. -/
  visits : ∀ p q : BitVec (n + 1), ∃! k, k < 2 ^ (n + 1) ∧ gray1^[k] p = q
  returns : ∀ p : BitVec (n + 1), gray1^[2 ^ (n + 1)] p = p
  /-- The registers take one step of the walk for every access. -/
  wPtrReg : ∀ is : List CtrlIn, (∀ i ∈ is, i.Running) →
    (Ctrl.after n is).wr.wPtrReg = gray1^[(written n is).length] 0
  rPtrReg : ∀ is : List CtrlIn, (∀ i ∈ is, i.Running) →
    (Ctrl.after n is).rd.rPtrReg = gray1^[(readBack n is).length] 0

/-! ## The equation of the wires -/

theorem eq_bin_iff (ptr b : BitVec (n + 1)) : b = ptr ^^^ (b >>> 1) ↔ b = bin ptr := by
  constructor
  · intro h
    exact (ungray_eq_of_fixed h.symm).symm
  · rintro rfl
    exact bin_eq ptr

/-! ## The registers -/

section Edge

variable (c : Ctrl n) {i : CtrlIn}

theorem wPtrReg_step (hi : i.Running) :
    (c.step i).wr.wPtrReg = gray1^[(c.writeOut i).length] c.wr.wPtrReg := by
  unfold Ctrl.step Ctrl.writeOut
  cases hw : i.clkw with
  | none => rfl
  | some p =>
    have hp := hi.1 p hw
    cases hgo : c.writes p <;> simp [Ctrl.wrEdge, hp, hgo]

theorem rPtrReg_step (hi : i.Running) :
    (c.step i).rd.rPtrReg = gray1^[(c.readOut i).length] c.rd.rPtrReg := by
  unfold Ctrl.step Ctrl.readOut
  cases hr : i.clkr with
  | none => rfl
  | some p =>
    have hp := hi.2 p hr
    cases hgo : c.reads p <;> simp [Ctrl.rdEdge, hp, hgo]

end Edge

/-- A register that walks with every observation has walked as far as there are any. -/
theorem walk_after (reg : Ctrl n → BitVec (n + 1)) (out : Ctrl n → CtrlIn → List (BitVec n))
    (hzero : reg (.reset n) = 0)
    (hstep : ∀ c i, i.Running → reg (c.step i) = gray1^[(out c i).length] (reg c))
    {is : List CtrlIn} (h : ∀ i ∈ is, i.Running) :
    reg (Ctrl.after n is) = gray1^[(collect Ctrl.step out (.reset n) is).length] 0 := by
  have halong := along_of_forall Ctrl.step (Ctrl.reset n) h
  have hstart : reg (.reset n) = gray1^[([] : List (BitVec n)).length] 0 := hzero
  refine halong.history out (P := fun seen c => reg c = gray1^[seen.length] 0) hstart ?_
  intro seen c i hc hi
  rw [hstep c i hi, hc, List.length_append, Nat.add_comm seen.length,
    Function.iterate_add_apply]

/-- The law of the pointers. -/
theorem pointerLaw (n : ℕ) : PointerLaw n where
  solved := eq_bin_iff
  coded := gray1_eq
  bin_gray := ungray_gray
  gray_bin := gray_ungray
  oneBit := existsUnique_grayNext_ne (Nat.succ_pos n)
  wrap := by
    have hnext : BitVec.allOnes (n + 1) + 1 = 0 := allOnes_add_one
    refine ⟨?_, fun i => ?_⟩
    · rw [gray1_eq_grayNext, grayNext_gray, hnext]
    · rw [gray_zero, getLsbD_gray_allOnes_ne_iff, Nat.succ_inj]
  visits := existsUnique_iterate
  returns := iterate_grayNext_two_pow
  wPtrReg := fun _ h =>
    walk_after (fun c => c.wr.wPtrReg) Ctrl.writeOut rfl (fun c _ => wPtrReg_step c) h
  rPtrReg := fun _ h =>
    walk_after (fun c => c.rd.rPtrReg) Ctrl.readOut rfl (fun c _ => rPtrReg_step c) h

example : (List.range 9).map (fun k => gray1^[k] (0 : BitVec 3)) = [0, 1, 3, 2, 6, 7, 5, 4, 0] := by
  decide

/-- A synchroniser that catches a write pointer on its way, each bit old or new, has the old
or the new one. -/
theorem caught_pointer {ptr seen : BitVec (n + 1)}
    (h : ∀ i, seen.getLsbD i = ptr.getLsbD i ∨ seen.getLsbD i = (gray1 ptr).getLsbD i) :
    seen = ptr ∨ seen = gray1 ptr :=
  eq_or_eq_of_mixed (existsUnique_grayNext_ne (Nat.succ_pos n) ptr) h

end LagoEcosystem.AxisFifo
