import LagoEcosystem.Reader.ExactlyOnce

/-!
# The first drain of v1_3

The reader of v1_3 counts words of four bytes where the position counts words of eight, and
continues two words after its last one. It processes the stream from its start in the first
call that reports a position other than zero. Every later call either reads nothing or
starts at a word that is not the next one.
-/

namespace LagoEcosystem.Reader

open Clocked RingMemory

/-- The words that a run processes, each as its number in the stream. A cell that was not
stored yet has none. -/
def processedNumbers (v : Version) (calls : List Call) : List (Option ℕ) :=
  collect (Progress.step v) (Progress.processed v (fun _ => none) some) (Progress.start v) calls

/-- The processed words are the first ones of the stream, each once and stored before. -/
def ExactlyOnce (v : Version) (calls : List Call) : Prop :=
  processedNumbers v calls = (List.range (processedNumbers v calls).length).map some

/-- The positions that make a call do nothing after one that read up to `p`. -/
def Idle (p q : ℕ) : Prop := if p = 2 ^ 20 - 1 then q = 0 else p ≤ q + 2 ∧ q ≤ p + 1

/-- Only the first call with a position other than zero reads anything. -/
def ReadsOnce (positions : List ℕ) : Prop :=
  match positions.dropWhile (· = 0) with
  | [] => True
  | p :: later => ∀ q ∈ later, Idle p q

/-! ## One call -/

/-- From the start of the buffer the words up to the position are read. -/
theorem readBufferV13_start {current : ℤ} (hcurrent : v13.home current = -2) {pos : ℕ}
    (hpos : pos < 2 ^ 20) :
    readBufferV13 current pos =
      ⟨List.range' 0 pos, if 0 < pos then (pos : ℤ) - 1 else -2⟩ := by
  have hback : v13.back = 2 := rfl
  have hscale : pos * v13.scale = 1 * pos := by simp only [v13]; ring
  have hwindow := readWindow_ahead v13 current (1 * 0) pos
    (by omega) (by omega) (by omega) (by omega) (by omega)
  rw [readBufferV13, hwindow, hscale, hcurrent, show v13.stride = 1 from rfl,
    drain_mul (by decide)]
  simp

section Later

variable {p q : ℕ} (hp : 0 < p) (hlast : p < 2 ^ 20 - 1)
include hp hlast

theorem home_v13 : v13.home ((p : ℤ) - 1) = p - 1 := by
  have hne : (p : ℤ) - 1 ≠ v13.limit - v13.back := by
    simp only [v13]
    omega
  rw [Version.home, if_neg hne]

theorem readBufferV13_idle (h : p ≤ q + 2 ∧ q ≤ p + 1) :
    readBufferV13 ((p : ℤ) - 1) q = ⟨[], (p : ℤ) - 1⟩ := by
  have hhome := home_v13 hp hlast
  have hback : v13.back = 2 := rfl
  have hscale : q * v13.scale = 1 * q := by simp only [v13]; ring
  by_cases hsame : (p : ℤ) - 1 = q
  · have hpos : (q : ℤ) * v13.scale = p - 1 := by rw [hsame]; simp only [v13]; ring
    simp only [readBufferV13, readWindow, hhome, hpos]
    simp
  · have hwindow := readWindow_ahead v13 ((p : ℤ) - 1) (1 * (p + 1)) q (by omega) (by omega)
      (by omega) (by omega) (by omega)
    rw [readBufferV13, hwindow, hscale, hhome, show v13.stride = 1 from rfl,
      drain_mul (by decide), if_neg (by omega), Nat.sub_eq_zero_of_le (by omega)]
    rfl

/-- Otherwise the call starts one word too far. -/
theorem readBufferV13_skips (hq : q < 2 ^ 20) (h : ¬ (p ≤ q + 2 ∧ q ≤ p + 1)) :
    ∃ rest, (readBufferV13 ((p : ℤ) - 1) q).offsets = (p + 1) :: rest := by
  have hhome := home_v13 hp hlast
  have hback : v13.back = 2 := rfl
  have hlimit : v13.limit = 1 * 2 ^ 20 := rfl
  have hscale : q * v13.scale = 1 * q := by simp only [v13]; ring
  have hoffsets : ∀ b, p + 1 < b →
      (drain v13.stride (v13.home ((p : ℤ) - 1)) (1 * (p + 1)) (1 * b)).offsets =
        (p + 1) :: List.range' (p + 2) (b - (p + 2)) := by
    intro b hb
    rw [show v13.stride = 1 from rfl, drain_mul (by decide)]
    simp only [Nat.one_mul, List.map_id']
    rw [show b - (p + 1) = b - (p + 2) + 1 by omega, List.range'_succ]
  by_cases hahead : p ≤ q + 2
  · have hwindow := readWindow_ahead v13 ((p : ℤ) - 1) (1 * (p + 1)) q (by omega) (by omega)
      (by omega) (by omega) (by omega)
    rw [readBufferV13, hwindow, hscale]
    exact ⟨_, hoffsets q (by omega)⟩
  · have hwindow := readWindow_behind v13 ((p : ℤ) - 1) (1 * (p + 1)) q (by omega) (by omega)
      (by omega) (by omega) (by omega)
    rw [readBufferV13, hwindow, hlimit]
    exact ⟨_, hoffsets (2 ^ 20) (by omega)⟩

end Later

/-! ## Runs -/

/-- No position other than zero was reported. -/
structure Waiting (t : Progress) : Prop where
  current : t.current = -2
  count : t.count = 0

/-- The first drain read up to `p`. -/
def Drained (p : ℕ) (t : Progress) : Prop :=
  if p = 2 ^ 20 - 1 then v13.home t.current = -2 else t.current = p - 1

section Runs

variable {t : Progress} {c : Call} {calls : List Call} {p : ℕ}

theorem Call.position_v13_lt (c : Call) : c.position v13 < 2 ^ 20 :=
  Nat.mod_lt _ (by decide)

theorem processed_v13 {α : Type*} (init w : ℕ → α) (t : Progress) (c : Call) :
    t.processed v13 init w c =
      (t.window v13 c).offsets.map (fill (2 ^ 21) init w (2 * c.stored)) := by
  have hcell : ∀ i, v13.unit * i / 4 = i := fun i => Nat.mul_div_cancel_left i (by decide)
  simp only [Progress.processed, hcell]
  rfl

theorem Waiting.window (h : Waiting t) :
    t.window v13 c = ⟨List.range' 0 (c.position v13),
      if 0 < c.position v13 then (c.position v13 : ℤ) - 1 else -2⟩ := by
  refine readBufferV13_start ?_ c.position_v13_lt
  rw [h.current]
  rfl

theorem Waiting.step_zero (h : Waiting t) (hc : c.position v13 = 0) : Waiting (t.step v13 c) := by
  have hwindow := h.window (c := c)
  rw [hc] at hwindow
  refine ⟨?_, ?_⟩
  · rw [Progress.step, hwindow]
    rfl
  · simp [Progress.step, hwindow, h.count]

theorem Waiting.processed_zero {α : Type*} {init w : ℕ → α} (h : Waiting t)
    (hc : c.position v13 = 0) : t.processed v13 init w c = [] := by
  rw [processed_v13, h.window, hc]
  rfl

theorem Waiting.step_pos (h : Waiting t) (hc : 0 < c.position v13) :
    Drained (c.position v13) (t.step v13 c) := by
  have hcurrent : (t.step v13 c).current = c.position v13 - 1 := by
    rw [Progress.step, h.window, if_pos hc]
  unfold Drained
  split
  case isTrue hlast =>
    rw [hcurrent, hlast]
    rfl
  case isFalse => exact hcurrent

/-- The words of the first drain are the first ones of the stream. -/
theorem Waiting.processed (h : Waiting t) (hc : Paced v13 t c) :
    t.processed v13 (fun _ => none) some c = (List.range (c.position v13)).map some := by
  have hpace := hc.2
  have hle := c.reported_le
  rw [h.count, Nat.zero_add, show ringWords v13 = 2 ^ 21 from rfl] at hpace
  have hposition : c.position v13 = c.reported := Nat.mod_eq_of_lt (b := 2 ^ 20) (by omega)
  rw [processed_v13, h.window, hposition, ← List.range_eq_range']
  refine List.map_congr_left fun i hi => ?_
  rw [List.mem_range] at hi
  have hcell : fill (2 ^ 21) (fun _ => none) some (2 * c.stored) (i % 2 ^ 21) = some i :=
    fill_mod (by omega) (by omega)
  rwa [Nat.mod_eq_of_lt (by omega)] at hcell

/-- Only the cell of word `p` can hold it. -/
theorem fill_ne_some {k j : ℕ} (hp : p < 2 ^ 20) (hj : j ≠ p) :
    fill (2 ^ 21) (fun _ => none) some k j ≠ some p := by
  rcases @fill_cell _ (2 ^ 21) (fun _ => none) some k j with h | ⟨i, -, hij, h⟩
  · rw [h]
    exact nofun
  · rw [h]
    intro heq
    obtain rfl : i = p := Option.some.inj heq
    rw [Nat.mod_eq_of_lt (by omega)] at hij
    exact hj hij.symm

variable (hp : 0 < p) (hlast : p ≤ 2 ^ 20 - 1) (h : Drained p t)
include hp hlast h

theorem Drained.idle (hq : Idle p (c.position v13)) :
    (t.window v13 c).offsets = [] ∧ Drained p (t.step v13 c) := by
  by_cases hend : p = 2 ^ 20 - 1
  · rw [Drained, if_pos hend] at h
    rw [Idle, if_pos hend] at hq
    have hwindow : t.window v13 c = ⟨[], -2⟩ := by
      rw [Progress.window, hq]
      exact readBufferV13_start h (by decide)
    rw [Drained, if_pos hend, Progress.step, hwindow]
    exact ⟨rfl, rfl⟩
  · rw [Drained, if_neg hend] at h
    rw [Idle, if_neg hend] at hq
    have hwindow : t.window v13 c = ⟨[], p - 1⟩ := by
      rw [Progress.window, h]
      exact readBufferV13_idle hp (by omega) hq
    rw [Drained, if_neg hend, Progress.step, hwindow]
    exact ⟨rfl, rfl⟩

/-- A call that is not idle does not go on with word `p`. -/
theorem Drained.skips (hq : ¬ Idle p (c.position v13)) :
    ∃ x rest, t.processed v13 (fun _ => none) some c = x :: rest ∧ x ≠ some p := by
  suffices hcell : ∃ j rest, (t.window v13 c).offsets = j :: rest ∧ j ≠ p by
    obtain ⟨j, rest, hoffsets, hj⟩ := hcell
    rw [processed_v13, hoffsets]
    exact ⟨_, _, rfl, fill_ne_some (by omega) hj⟩
  by_cases hend : p = 2 ^ 20 - 1
  · rw [Drained, if_pos hend] at h
    rw [Idle, if_pos hend] at hq
    obtain ⟨n, hn⟩ := Nat.exists_eq_succ_of_ne_zero hq
    have hwindow := readBufferV13_start h c.position_v13_lt
    refine ⟨0, List.range' 1 n, ?_, by omega⟩
    rw [Progress.window]
    refine (congrArg Window.offsets hwindow).trans ?_
    rw [hn]
    rfl
  · rw [Drained, if_neg hend] at h
    rw [Idle, if_neg hend] at hq
    obtain ⟨rest, hrest⟩ := readBufferV13_skips hp (by omega) c.position_v13_lt hq
    refine ⟨p + 1, rest, ?_, by omega⟩
    rw [Progress.window, h]
    exact hrest

/-- The calls after the first drain read nothing, or do not go on with word `p`. -/
theorem Drained.collect (calls : List Call) :
    let later := collect (Progress.step v13) (Progress.processed v13 (fun _ => none) some) t calls
    ((∀ q ∈ calls.map (Call.position v13), Idle p q) → later = []) ∧
      ((¬ ∀ q ∈ calls.map (Call.position v13), Idle p q) →
        ∃ x rest, later = x :: rest ∧ x ≠ some p) := by
  induction calls generalizing t with
  | nil => simp
  | cons c calls ih =>
    by_cases hq : Idle p (c.position v13)
    · obtain ⟨hoffsets, hstep⟩ := h.idle hp hlast hq
      have hprocessed : t.processed v13 (fun _ => none) some c = [] := by
        rw [processed_v13, hoffsets]
        rfl
      simpa [hprocessed, hq] using ih hstep
    · obtain ⟨x, rest, hprocessed, hx⟩ := h.skips hp hlast hq
      refine ⟨fun hall => absurd (hall _ (by simp)) hq, fun _ => ?_⟩
      rw [collect_cons, hprocessed, List.cons_append]
      exact ⟨x, _, rfl, hx⟩

end Runs

/-- A list of the first numbers goes on with the next one. -/
theorem range_append_cons_ne {p : ℕ} {x : Option ℕ} {rest : List (Option ℕ)} (hx : x ≠ some p) :
    let all := (List.range p).map some ++ x :: rest
    all ≠ (List.range all.length).map some := by
  intro all heq
  have hget : all[p]? = some x := by simp [all]
  have hlength : p < all.length := by simp [all]
  rw [heq] at hget
  simp only [List.getElem?_map, List.getElem?_range hlength, Option.map_some] at hget
  exact hx (Option.some.inj hget).symm

/-- From the start, the first drain decides. -/
theorem Waiting.exactlyOnce_iff {t : Progress} (h : Waiting t) {calls : List Call}
    (hpaced : Along (Progress.step v13) (Paced v13) t calls) :
    let all := collect (Progress.step v13) (Progress.processed v13 (fun _ => none) some) t calls
    all = (List.range all.length).map some ↔ ReadsOnce (calls.map (Call.position v13)) := by
  induction calls generalizing t with
  | nil => simp [ReadsOnce]
  | cons c calls ih =>
    by_cases hzero : c.position v13 = 0
    · have hreads : ReadsOnce ((c :: calls).map (Call.position v13)) =
          ReadsOnce (calls.map (Call.position v13)) := by
        simp [ReadsOnce, hzero]
      rw [hreads, collect_cons, h.processed_zero hzero]
      exact ih (h.step_zero hzero) hpaced.2
    · have hpos : 0 < c.position v13 := Nat.pos_of_ne_zero hzero
      have hlt := c.position_v13_lt
      have hreads : ReadsOnce ((c :: calls).map (Call.position v13)) =
          ∀ q ∈ calls.map (Call.position v13), Idle (c.position v13) q := by
        simp [ReadsOnce, hzero]
      obtain ⟨hidle, hskips⟩ := (h.step_pos hpos).collect hpos (by omega) calls
      rw [hreads, collect_cons, h.processed hpaced.1]
      by_cases hall : ∀ q ∈ calls.map (Call.position v13), Idle (c.position v13) q
      · rw [hidle hall]
        exact iff_of_true (by simp) hall
      · obtain ⟨x, rest, hlater, hx⟩ := hskips hall
        rw [hlater]
        exact iff_of_false (range_append_cons_ne hx) hall

/-- A paced run processes the stream exactly once if and only if at most one call of it
reads anything. -/
theorem exactlyOnce_v13_iff (calls : List Call)
    (h : Along (Progress.step v13) (Paced v13) (Progress.start v13) calls) :
    ExactlyOnce v13 calls ↔ ReadsOnce (calls.map (Call.position v13)) :=
  Waiting.exactlyOnce_iff ⟨rfl, rfl⟩ h

/-- Two words, and two more. -/
def twoDrains : List Call := [⟨2, 2, le_rfl⟩, ⟨4, 4, le_rfl⟩]

theorem exactlyOnce_v13_twoDrains :
    ExactlyOnce v13 twoDrains ↔ ReadsOnce (twoDrains.map (Call.position v13)) :=
  exactlyOnce_v13_iff twoDrains (by decide +kernel)

/-- Word 2 is never processed. -/
theorem not_exactlyOnce_twoDrains :
    Along (Progress.step v13) (Paced v13) (Progress.start v13) twoDrains ∧
      processedNumbers v13 twoDrains = [some 0, some 1, some 3] ∧
      ¬ ExactlyOnce v13 twoDrains := by
  have hnumbers : processedNumbers v13 twoDrains = [some 0, some 1, some 3] := by decide +kernel
  refine ⟨by decide +kernel, hnumbers, ?_⟩
  rw [ExactlyOnce, hnumbers]
  decide

end LagoEcosystem.Reader
