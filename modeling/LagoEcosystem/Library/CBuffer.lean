import LagoEcosystem.Library.CLib
import Mathlib.Logic.Function.Basic

/-!
# Filling a buffer

A pointer walks through memory and stores bytes on its way, `*b++ = c`. Offsets count from
the start of the buffer; nothing here stops the pointer at its end.
-/

namespace LagoEcosystem.CLib

structure Filling where
  mem : ℕ → Byte
  b : ℕ

namespace Filling

/-- `*b++ = c` -/
def put (w : Filling) (c : Byte) : Filling := ⟨Function.update w.mem w.b c, w.b + 1⟩

def puts (w : Filling) (s : CString) : Filling := s.foldl put w

variable (w : Filling) (s : CString)

theorem puts_cons (c : Byte) : w.puts (c :: s) = (w.put c).puts s := rfl

/-- What lies behind the pointer stays. -/
theorem mem_puts_of_lt {k : ℕ} (hk : k < w.b) : (w.puts s).mem k = w.mem k := by
  induction s generalizing w with
  | nil => rfl
  | cons c s ih =>
    have hput : k < (w.put c).b := Nat.lt_succ_of_lt hk
    rw [puts_cons, ih _ hput]
    exact Function.update_of_ne (Nat.ne_of_lt hk) _ _

/-- The bytes lie where the pointer went. -/
theorem mem_puts {k : ℕ} (hk : k < s.length) : (w.puts s).mem (w.b + k) = s[k] := by
  induction s generalizing w k with
  | nil => simp at hk
  | cons c s ih =>
    rw [puts_cons]
    cases k with
    | zero =>
      have hput : w.b + 0 < (w.put c).b := Nat.lt_succ_self _
      rw [mem_puts_of_lt _ _ hput]
      simp [put]
    | succ k =>
      have hrest := ih (w.put c) (k := k) (by simpa using hk)
      rw [show w.b + (k + 1) = (w.put c).b + k by simp only [put]; omega, hrest]
      rfl

end Filling

/-- The string `s` lies at the start of the buffer, with its terminating NUL. -/
structure IsString (mem : ℕ → Byte) (s : CString) : Prop where
  bytes : ∀ k (hk : k < s.length), mem k = s[k]
  terminated : mem s.length = 0
  nul : 0 ∉ s

/-- The bytes before the first NUL. -/
def untilNul (s : CString) : CString := s.takeWhile (· ≠ 0)

theorem nul_notMem_untilNul (s : CString) : 0 ∉ untilNul s := by
  intro h
  have hne := List.all_eq_true.mp (List.all_takeWhile (l := s)) 0 h
  exact of_decide_eq_true hne rfl

theorem exists_append_nul (s : CString) : ∃ t, s ++ [0] = untilNul s ++ 0 :: t := by
  induction s with
  | nil => exact ⟨[], rfl⟩
  | cons c s ih =>
    obtain ⟨t, ht⟩ := ih
    by_cases hc : c = 0
    · exact ⟨s ++ [0], by simp [untilNul, hc]⟩
    · refine ⟨t, ?_⟩
      have hcons : untilNul (c :: s) = c :: untilNul s :=
        List.takeWhile_cons_of_pos (decide_eq_true hc)
      rw [hcons, List.cons_append, List.cons_append, ht]

/-- A buffer filled with bytes and a NUL holds the string of the bytes before the first NUL. -/
theorem isString_puts (mem : ℕ → Byte) (s : CString) :
    IsString ((Filling.mk mem 0).puts (s ++ [0])).mem (untilNul s) := by
  obtain ⟨t, ht⟩ := exists_append_nul s
  have hmem : ∀ k (hk : k < (s ++ [0]).length),
      ((Filling.mk mem 0).puts (s ++ [0])).mem k = (s ++ [0])[k] := by
    intro k hk
    simpa using (Filling.mk mem 0).mem_puts (s ++ [0]) hk
  have hlen : (untilNul s).length < (s ++ [0]).length := by rw [ht]; simp
  refine ⟨fun k hk => ?_, ?_, nul_notMem_untilNul s⟩
  · rw [hmem k (hk.trans hlen)]
    simp only [ht, List.getElem_append_left hk]
  · rw [hmem _ hlen]
    simp only [ht, List.getElem_append_right le_rfl, Nat.sub_self, List.getElem_cons_zero]

end LagoEcosystem.CLib
