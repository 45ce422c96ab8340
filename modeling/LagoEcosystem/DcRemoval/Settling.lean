import LagoEcosystem.DcRemoval.Core

/-!
# The baseline is removed completely

Once the input is constant, the delayed samples are the input four cycles later, and the
feedback settles on it. From then on the output is zero.
-/

namespace LagoEcosystem.DcRemoval

open Clocked DelayedLoop

variable {s : St} {c : BitVec 16}

/-- The registers in cycle `n` of a constant input. -/
def settling (s : St) (c : BitVec 16) (n : ℕ) : St := trace DcRemoval.step s (fun _ => .running c) n

theorem settling_succ (s : St) (c : BitVec 16) (n : ℕ) :
    settling s c (n + 1) = DcRemoval.step (settling s c n) (.running c) := trace_succ _ _ _ n

theorem inv_settling (hs : Inv s) (hc : Small c) (n : ℕ) : Inv (settling s c n) := by
  induction n with
  | zero => exact hs
  | succ n ih =>
    rw [settling_succ]
    exact ih.step hc

/-- The input moves through the pipeline. -/
theorem settling_d31 (s : St) (c : BitVec 16) (n : ℕ) : (settling s c (n + 4)).d31 = c := by
  rw [settling_succ, settling_succ, settling_succ, settling_succ]
  rfl

/-- From the first cycle on the integrator is the delayed loop of the constant input. -/
theorem window_settling (hs : Inv s) (hc : Small c) (n : ℕ) :
    (settling s c (n + 1)).window = held (2 ^ 16) (settling s c 1).window c.toInt n := by
  induction n with
  | zero => rfl
  | succ n ih =>
    have hd0 : (settling s c (n + 1)).d0 = c := by
      rw [settling_succ]
      rfl
    rw [settling_succ s c (n + 1), window_step (inv_settling hs hc (n + 1)), hd0, ih, held_succ]

theorem dataFbk_settles (hs : Inv s) (hc : Small c) :
    ∃ N, ∀ n ≥ N, (settling s c n).dataFbk = c := by
  have hstart := (inv_settling hs hc 1).window
  obtain ⟨N, hN⟩ := settles (by decide) (by decide) hstart hc.bounds
  refine ⟨N + 1, fun n hn => ?_⟩
  obtain ⟨m, rfl⟩ : ∃ m, n = m + 1 := ⟨n - 1, by omega⟩
  apply BitVec.eq_of_toInt_eq
  have hm := hN m (by omega)
  rw [← window_settling hs hc m] at hm
  rw [St.toInt_dataFbk]
  exact hm

/-- From every reachable state the feedback of a constant input reaches it, so that the output
becomes zero, and both stay so. -/
theorem dcRemoval_settles (s : St) (hs : Reachable s) (c : BitVec 16)
    (hc : |c.toInt| ≤ 2 ^ 13) :
    ∃ N, ∀ n ≥ N, (settling s c n).dataFbk = c ∧ (settling s c n).dataO = 0 := by
  obtain ⟨N, hN⟩ := dataFbk_settles hs.inv hc
  refine ⟨N + 5, fun n hn => ⟨hN n (by omega), ?_⟩⟩
  obtain ⟨m, rfl⟩ : ∃ m, n = m + 5 := ⟨n - 5, by omega⟩
  have hout : (settling s c (m + 5)).dataO = (settling s c (m + 4)).sub2S := by
    rw [settling_succ s c (m + 4)]
    rfl
  rw [hout, St.sub2S, settling_d31, hN (m + 4) (by omega)]
  exact BitVec.sub_self c

/-- After one sample of the other sign. -/
theorem dcRemoval_settles_negative :
    Reachable (run DcRemoval.step .reset [.running 0x2000]) ∧
      |(0xe000 : BitVec 16).toInt| ≤ 2 ^ 13 ∧
      ∃ N, ∀ n ≥ N,
        (settling (run DcRemoval.step .reset [.running 0x2000]) 0xe000 n).dataFbk = 0xe000 ∧
          (settling (run DcRemoval.step .reset [.running 0x2000]) 0xe000 n).dataO = 0 :=
  have hs : Reachable (run DcRemoval.step .reset [.running 0x2000]) :=
    ⟨[0x2000], List.forall_mem_singleton.mpr (by decide), rfl⟩
  ⟨hs, by decide, dcRemoval_settles _ hs 0xe000 (by decide)⟩

end LagoEcosystem.DcRemoval
