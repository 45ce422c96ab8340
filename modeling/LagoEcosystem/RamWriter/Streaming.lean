import LagoEcosystem.RamWriter.Memory

/-!
# A stream that never pauses

The RAM writer between a stream that offers a word in every cycle and a slave that is always
ready. When the FIFO says after 17 words that it holds a burst, a word is stored in every cycle
from then on, and no beat overtakes its address.
-/

namespace LagoEcosystem.RamWriter

open Clocked

variable {g : Generics}

/-- A cycle in which the word `w` arrives and `ALMOSTEMPTY` has the value `e`. -/
def In.flowing (cfg : BitVec g.axiAddrWidth) (w : BitVec 64) (e : Bool) : In g where
  aresetn := true
  cfgData := cfg
  fifoFull := false
  fifoAlmostempty := e
  mAxiAwready := true
  mAxiWready := true
  sAxisTdata := w
  sAxisTvalid := true

/-- The cycles from number `k` on, `n` of them. -/
def streaming (cfg : BitVec g.axiAddrWidth) (w : ℕ → BitVec 64) (k n : ℕ) : List (In g) :=
  (List.range' k n).map fun j => In.flowing cfg (w j) (decide (j < 17))

/-- The writer after `n` cycles. -/
structure Flows (n : ℕ) (s : St g) : Prop where
  wvalid : s.intWvalidReg = decide (17 < n)
  awvalid : n ≤ 17 → s.intAwvalidReg = false
  fifo : s.fifo.length = min n 18

variable {cfg : BitVec g.axiAddrWidth} {w : ℕ → BitVec 64} {n : ℕ} {s : St g}

theorem streaming_zero_append (cfg : BitVec g.axiAddrWidth) (w : ℕ → BitVec 64) (m n : ℕ) :
    streaming cfg w 0 m ++ streaming cfg w m n = streaming cfg w 0 (m + n) := by
  have hrange := List.range'_append_1 (s := 0) (m := m) (n := n)
  rw [Nat.zero_add] at hrange
  rw [streaming, streaming, ← List.map_append, hrange, streaming]

theorem streaming_succ (cfg : BitVec g.axiAddrWidth) (w : ℕ → BitVec 64) (n : ℕ) :
    streaming cfg w 0 (n + 1) =
      streaming cfg w 0 n ++ [In.flowing cfg (w n) (decide (n < 17))] := by
  rw [← streaming_zero_append]
  rfl

/-- A word is read in each cycle of a burst. -/
theorem Flows.intRdenWire (h : Flows n s) (cfg : BitVec g.axiAddrWidth) (d : BitVec 64)
    (e : Bool) :
    s.intRdenWire (In.flowing cfg d e) = decide (17 < n) := by
  simp [St.intRdenWire, In.flowing, h.wvalid]

theorem Flows.next (h : Flows n s) (d : BitVec 64) :
    Flows (n + 1) (step s (In.flowing cfg d (decide (n < 17)))) := by
  have hrden := h.intRdenWire cfg d (decide (n < 17))
  have hfifo := h.fifo
  have haw := h.awvalid
  rw [step_of_aresetn rfl]
  refine ⟨?_, fun hn => ?_, ?_⟩
  · show s.intWvalidNext _ = _
    rw [St.intWvalidNext, St.starts, h.wvalid, In.intEmptyWire]
    by_cases hlt : n < 17
    · have hnow : decide (17 < n) = false := decide_eq_false (by omega)
      rw [decide_eq_false (show ¬17 < n + 1 by omega)]
      simp [In.flowing, hlt, hnow]
    · by_cases heq : n = 17
      · simp [In.flowing, heq, haw heq.le]
      · simp [In.flowing, hlt, (by omega : 17 < n), (by omega : 17 < n + 1)]
  · show s.intAwvalidNext _ = _
    rw [St.intAwvalidNext, St.starts, haw (by omega), In.intEmptyWire]
    simp [In.flowing, (by omega : n < 17)]
  · show (s.fifoNext _).length = _
    rw [St.fifoNext, hrden]
    by_cases hlt : 17 < n
    · simp [In.wren, In.intTreadyWire, In.flowing, hlt, hfifo]
      omega
    · simp [In.wren, In.intTreadyWire, In.flowing, hlt, hfifo]
      omega

theorem Flows.orderly (h : Flows n s) (d : BitVec 64) :
    Orderly cfg s (In.flowing cfg d (decide (n < 17))) := by
  have hrden := h.intRdenWire cfg d (decide (n < 17))
  have hfifo := h.fifo
  refine ⟨⟨rfl, fun hstock => ?_⟩, ⟨rfl, rfl⟩, fun _ hready => Bool.noConfusion hready⟩
  have hn : ¬ n < 17 := by simpa [In.flowing] using hstock
  rw [hrden]
  split
  · rw [List.length_tail]
    omega
  · omega

theorem flows_reset : Flows 0 (St.reset g) := ⟨rfl, fun _ => rfl, rfl⟩

theorem flows_after (cfg : BitVec g.axiAddrWidth) (w : ℕ → BitVec 64) (n : ℕ) :
    Flows n (after (streaming cfg w 0 n)) := by
  induction n with
  | zero => exact flows_reset
  | succ n ih =>
    rw [streaming_succ, after_snoc]
    exact ih.next (w n)

theorem orderly_streaming (cfg : BitVec g.axiAddrWidth) (w : ℕ → BitVec 64) (n : ℕ) :
    Along step (Orderly cfg) (.reset g) (streaming cfg w 0 n) := by
  induction n with
  | zero => trivial
  | succ n ih =>
    rw [streaming_succ, along_append]
    exact ⟨ih, (flows_after cfg w n).orderly (w n), trivial⟩

/-- A word is stored in every cycle from the nineteenth on. -/
theorem length_beats_streaming (cfg : BitVec g.axiAddrWidth) (w : ℕ → BitVec 64) (n : ℕ) :
    (beats (streaming cfg w 0 n)).length = n - 18 := by
  induction n with
  | zero => rfl
  | succ n ih =>
    rw [streaming_succ, beats_snoc, List.length_append, ih, length_beatOut,
      (flows_after cfg w n).intRdenWire]
    simp only [decide_eq_true_eq]
    split <;> omega

end LagoEcosystem.RamWriter
