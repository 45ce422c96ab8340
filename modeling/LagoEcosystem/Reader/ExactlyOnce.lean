import LagoEcosystem.Reader.Window

/-!
# Exactly-once reading

The writer stores a stream into its ring while `read_buffer` is called again and again
with the position it has reached. `Paced` is the promise that the writer never runs a
ring ahead of the reader. With that promise the reader of v1_0 processes the stream word
by word.
-/

namespace LagoEcosystem.Reader

open Clocked RingMemory

/-- A call of `read_buffer`, with the number of eight-byte words that were stored when the
position was read and the number that are stored by the end of the call. -/
structure Call where
  reported : ℕ
  stored : ℕ
  reported_le : reported ≤ stored

/-- The reader between two calls: `current`, the number of words of four bytes that it has
processed, and the last position it was given, counted from the start of the run. -/
structure Progress where
  current : ℤ
  count : ℕ
  seen : ℕ

section Run

variable (v : Version)

/-- The words of four bytes in the ring of the writer. -/
def ringWords : ℕ := 2 * 2 ^ v.addrWidth

/-- The status word of the writer. -/
def Call.position (c : Call) : ℕ := c.reported % 2 ^ v.addrWidth

def Progress.start : Progress := ⟨-v.back, 0, 0⟩

def Progress.window (t : Progress) (c : Call) : Window := readWindow v t.current (c.position v)

def Progress.step (t : Progress) (c : Call) : Progress where
  current := (t.window v c).current
  count := t.count + (t.window v c).offsets.length
  seen := c.reported

/-- The words a call processes, when `w` is the stream of the writer and `init` what its
ring held before. -/
def Progress.processed {α : Type*} (init w : ℕ → α) (t : Progress) (c : Call) : List α :=
  (t.window v c).offsets.map fun i =>
    fill (ringWords v) init w (2 * c.stored) (v.unit * i / 4)

/-- The position has not gone back, and less than one ring is unread. -/
def Paced (t : Progress) (c : Call) : Prop :=
  t.seen ≤ c.reported ∧ 2 * c.stored < t.count + ringWords v

instance (t : Progress) (c : Call) : Decidable (Paced v t c) := by
  unfold Paced; infer_instance

end Run

/-! ## Version 1.0 -/

/-- The reader stands in the buffer where the words it has processed end. -/
structure Progress.Inv (t : Progress) : Prop where
  seen : t.count ≤ 2 * t.seen
  place : ∃ m ≤ bufferWords, m % 2 = 0 ∧ t.current = 4 * m - 4 ∧
    m % bufferWords = t.count % bufferWords

/-- Where a call ends that may read up to the position or to the end of the buffer. -/
def Progress.upTo (t : Progress) (c : Call) : ℕ := drained bufferWords t.count (2 * c.reported)

theorem Progress.Inv.window {t : Progress} {c : Call} (h : t.Inv) (hc : Paced v10 t c) :
    ∃ stop ≤ bufferWords, stop % 2 = 0 ∧ stop % bufferWords = t.upTo c % bufferWords ∧
      t.window v10 c =
        ⟨(List.range' (t.count % bufferWords) (t.upTo c - t.count)).map (4 * ·),
          4 * stop - 4⟩ := by
  obtain ⟨hseen, m, hm, heven, hcurrent, hplace⟩ := h
  obtain ⟨hreported, hpace⟩ := hc
  have hle := c.reported_le
  have hring : ringWords v10 = bufferWords := rfl
  have hposition : c.position v10 = c.reported % 2 ^ 20 := rfl
  rw [hring] at hpace
  have hnext : nextWord m = t.count % bufferWords := by
    by_cases hend : m = bufferWords
    · rw [nextWord, if_pos hend, ← hplace, hend, Nat.mod_self]
    · rw [nextWord, if_neg hend, ← hplace, Nat.mod_eq_of_lt (by omega)]
  have hstop : stopWord m (c.position v10) ≤ bufferWords ∧
      stopWord m (c.position v10) % bufferWords = t.upTo c % bufferWords ∧
      stopWord m (c.position v10) - nextWord m = t.upTo c - t.count := by
    by_cases hahead : t.count % bufferWords ≤ 2 * c.position v10
    · rw [stopWord, hnext, if_pos hahead, Progress.upTo, drained]
      simp only [hposition, bufferWords] at *
      omega
    · rw [stopWord, hnext, if_neg hahead, Progress.upTo, drained]
      simp only [hposition, bufferWords] at *
      omega
  obtain ⟨hstop_le, hstop_mod, hlength⟩ := hstop
  refine ⟨stopWord m (c.position v10), hstop_le, stopWord_even _ _, hstop_mod, ?_⟩
  rw [Progress.window, hcurrent, ← hnext, ← hlength]
  exact readBufferV10_eq hm heven (by rw [hposition]; omega)

theorem Progress.Inv.le_upTo {t : Progress} {c : Call} (h : t.Inv) (hc : Paced v10 t c) :
    t.count ≤ t.upTo c := by
  have := h.seen
  have := hc.1
  exact le_drained (by decide) (by omega)

theorem Progress.Inv.step {t : Progress} {c : Call} (h : t.Inv) (hc : Paced v10 t c) :
    (t.step v10 c).Inv ∧ (t.step v10 c).count = t.upTo c := by
  obtain ⟨stop, hle, heven, hmod, hwindow⟩ := h.window hc
  have hlow := h.le_upTo hc
  have hcount : (t.step v10 c).count = t.upTo c := by
    simp only [Progress.step, hwindow, List.length_map, List.length_range']
    omega
  refine ⟨⟨?_, stop, hle, heven, ?_, ?_⟩, hcount⟩
  · rw [hcount]
    exact drained_le _ _ _
  · simp only [Progress.step, hwindow]
  · rw [hcount, hmod]

/-- One call processes the words from where the reader was up to where it may read. -/
theorem Progress.Inv.processed {α : Type*} (init w : ℕ → α) {t : Progress} {c : Call}
    (h : t.Inv) (hc : Paced v10 t c) :
    t.processed v10 init w c = (List.range' t.count (t.upTo c - t.count)).map w := by
  obtain ⟨stop, -, -, -, hwindow⟩ := h.window hc
  have hcell : (fun i => fill (ringWords v10) init w (2 * c.stored) (v10.unit * i / 4)) ∘ (4 * ·) =
      fill bufferWords init w (2 * c.stored) := by
    funext i
    have hunit : v10.unit = 1 := rfl
    simp only [Function.comp, hunit]
    rw [show 1 * (4 * i) / 4 = i by omega]
    rfl
  have hle := c.reported_le
  have hpace : 2 * c.stored < t.count + bufferWords := hc.2
  rw [Progress.processed, hwindow, List.map_map, hcell]
  refine map_fill (by decide) (min_le_right _ _) ?_ hpace.le
  exact (drained_le _ _ _).trans (by omega)

theorem Progress.Inv.processed_eq_nil {α : Type*} (init w : ℕ → α) {t : Progress} {c : Call}
    (h : t.Inv) (hc : Paced v10 t c) (hread : 2 * c.reported ≤ t.count) :
    t.processed v10 init w c = [] := by
  have hle : t.upTo c ≤ t.count := (drained_le _ _ _).trans hread
  rw [h.processed init w hc, Nat.sub_eq_zero_of_le hle]
  rfl

/-- In every paced run each call processes the words up to the position or the end of the
buffer, and nothing if all of them were processed before. All calls together process the
stream from its start, each word once and none before it was reported. -/
theorem exactlyOnce_v10 {α : Type*} (init w : ℕ → α) (calls : List Call)
    (h : Along (Progress.step v10) (Paced v10) (Progress.start v10) calls) :
    Along (Progress.step v10)
        (fun t c => t.processed v10 init w c =
            (List.range' t.count (t.upTo c - t.count)).map w ∧
          (2 * c.reported ≤ t.count → t.processed v10 init w c = []))
        (Progress.start v10) calls ∧
      collect (Progress.step v10) (Progress.processed v10 init w) (Progress.start v10) calls =
        (List.range (run (Progress.step v10) (Progress.start v10) calls).count).map w ∧
      (run (Progress.step v10) (Progress.start v10) calls).count ≤
        2 * (run (Progress.step v10) (Progress.start v10) calls).seen := by
  have hstart : (Progress.start v10).Inv :=
    ⟨by decide, 0, by decide, by decide, by decide, by decide⟩
  have hinv := h.strengthen (P := Progress.Inv) hstart fun t c ht hc => (ht.step hc).1
  have hend := h.invariant (P := Progress.Inv) hstart fun t c ht hc => (ht.step hc).1
  refine ⟨hinv.mono fun t c ht =>
    ⟨ht.1.processed init w ht.2, ht.1.processed_eq_nil init w ht.2⟩, ?_, hend.seen⟩
  have hnone : [] = (List.range (Progress.start v10).count).map w := rfl
  have hall := hinv.history (Progress.processed v10 init w)
    (P := fun seen t => seen = (List.range t.count).map w) hnone ?_
  · simpa using hall
  · rintro seen t c rfl ⟨ht, hc⟩
    have hlow : t.count ≤ t.upTo c := ht.le_upTo hc
    obtain ⟨k, hk⟩ := Nat.exists_eq_add_of_le hlow
    rw [ht.processed init w hc, (ht.step hc).2, ← List.map_append, List.range_eq_range',
      List.range_eq_range', hk, Nat.add_sub_cancel_left]
    have happend := List.range'_append_1 (s := 0) (m := t.count) (n := k)
    rw [Nat.zero_add] at happend
    rw [happend]

/-- Three words, a timeout and two more words. -/
def someCalls : List Call := [⟨3, 3, le_rfl⟩, ⟨3, 4, by decide⟩, ⟨5, 5, le_rfl⟩]

theorem exactlyOnce_v10_someCalls :
    Along (Progress.step v10)
        (fun t c => t.processed v10 (fun _ => 0) id c =
            (List.range' t.count (t.upTo c - t.count)).map id ∧
          (2 * c.reported ≤ t.count → t.processed v10 (fun _ => 0) id c = []))
        (Progress.start v10) someCalls ∧
      collect (Progress.step v10) (Progress.processed v10 (fun _ => 0) id) (Progress.start v10)
          someCalls =
        (List.range (run (Progress.step v10) (Progress.start v10) someCalls).count).map id ∧
      (run (Progress.step v10) (Progress.start v10) someCalls).count ≤
        2 * (run (Progress.step v10) (Progress.start v10) someCalls).seen :=
  exactlyOnce_v10 _ _ someCalls (by decide +kernel)

end LagoEcosystem.Reader
