import LagoEcosystem.Recorder.Server

/-!
# The file of the recorder

`adc-recorder.c` runs the loop of the server into a file. When the loop ends, it stops the
acquisition, looks at the position once more and writes what remains of the half that the
writer is in. `recorded_iff` says when the file is everything that was stored.
-/

namespace LagoEcosystem.Recorder

open ByteMemory Clocked RingMemory RamWriter

variable {cfg : BitVec ring16.axiAddrWidth} {mem : Memory ring16.axiAddrWidth} {es : List Event}

/-- The offsets of the remaining data, after the last look at the position. -/
def remaining (limit position : ℕ) : List ℕ :=
  if (decide (limit > 0) && decide (position < limit)) ||
      (limit == 0 && decide (position > 32 * 1024)) then
    let offset := if limit > 0 then 0 else 256 * 1024
    List.range' offset (position * 8 - offset)
  else []

/-- The file at the end, when the writer stores no more. -/
def St.file (cfg : BitVec ring16.axiAddrWidth) (mem : Memory ring16.axiAddrWidth) (s : St) :
    List (BitVec 8) :=
  s.sent ++ (remaining s.limit s.position).map fun c => memory mem s.cycles (offset cfg c)

/-- Everything that was stored in the run. -/
def storedBytes (is : List (In ring16)) : List (BitVec 8) :=
  (List.range (8 * (beats is).length)).map (acceptedByte is)

/-- Never more than a half. -/
theorem length_remaining_lt {limit position : ℕ} (hlimit : limit = 32 * 1024 ∨ limit = 0)
    (hposition : position < 2 ^ 16) : (remaining limit position).length < 256 * 1024 := by
  rcases hlimit with rfl | rfl <;> rw [remaining] <;> split <;> simp_all <;> omega

/-- The half that the writer is in, when it is the next half of the reader. -/
theorem remaining_eq {taken stored limit : ℕ} (hle : taken ≤ stored)
    (hhalf : limit = 32 * 1024 ∧ taken % (2 ^ 16) = 0 ∨
      limit = 0 ∧ taken % (2 ^ 16) = 32 * 1024)
    (hlt : stored < taken + 32 * 1024) :
    remaining limit (stored % 2 ^ 16) =
      List.range' (8 * taken % (8 * 2 ^ 16)) (8 * stored - 8 * taken) := by
  rcases hhalf with ⟨rfl, hmod⟩ | ⟨rfl, hmod⟩
  · have hposition : stored % 2 ^ 16 = stored - taken := by omega
    have hoffset : 8 * taken % (8 * 2 ^ 16) = 0 := by omega
    rw [remaining, hposition, hoffset, if_pos (by simp; omega)]
    simp
    omega
  · have hposition : stored % 2 ^ 16 = 32 * 1024 + (stored - taken) := by omega
    have hoffset : 8 * taken % (8 * 2 ^ 16) = 256 * 1024 := by omega
    rw [remaining, hposition, hoffset]
    by_cases hnone : stored = taken
    · simp [hnone]
    · rw [if_pos (by simp; omega)]
      simp
      omega

/-- Where the program stands when nothing is left to be copied. -/
theorem halves_at_rest (h : Along RamWriter.step (Orderly cfg) (.reset ring16) (clocks es))
    (mem : Memory ring16.axiAddrWidth) (hend : (run (step cfg mem) .start es).todo = []) :
    ∃ taken ≤ (beats (clocks es)).length,
      (run (step cfg mem) .start es).sent.length = 8 * taken ∧
        ((run (step cfg mem) .start es).limit = 32 * 1024 ∧ taken % 2 ^ 16 = 0 ∨
          (run (step cfg mem) .start es).limit = 0 ∧ taken % 2 ^ 16 = 32 * 1024) := by
  obtain ⟨-, -, hhalf, hstored⟩ := inv_run mem h
  simp only [St.halves, HalfBuffers.St.taken, hend, List.length_nil, Nat.add_zero,
    cycles_start_run] at hhalf hstored
  exact ⟨(run (step cfg mem) .start es).sent.length / 8, by omega, by omega, by omega⟩

theorem map_memory_remaining
    (h : Along RamWriter.step (Orderly cfg) (.reset ring16) (clocks es)) {taken : ℕ}
    (hle : taken ≤ (beats (clocks es)).length)
    (hhalf : taken % 2 ^ 16 = 0 ∨ taken % 2 ^ 16 = 32 * 1024)
    (hlt : (beats (clocks es)).length < taken + 32 * 1024) :
    (List.range' (8 * taken % (8 * 2 ^ 16)) (8 * (beats (clocks es)).length - 8 * taken)).map
        (fun c => memory mem (clocks es) (offset cfg c)) =
      (List.range' (8 * taken) (8 * (beats (clocks es)).length - 8 * taken)).map
        (acceptedByte (clocks es)) := by
  have hturn := endOfTurn_eq (8 * 2 ^ 16) (8 * taken)
  have hcells : ∀ c ∈ List.range' (8 * taken % (8 * 2 ^ 16))
      (8 * (beats (clocks es)).length - 8 * taken),
      memory mem (clocks es) (offset cfg c) = fill (8 * 2 ^ 16) (initByte cfg mem)
        (acceptedByte (clocks es)) (8 * (beats (clocks es)).length) c := by
    intro c hc
    rw [List.mem_range'_1] at hc
    exact memory_offset List.prefix_rfl mem h (by omega : c < 8 * 2 ^ 16)
  exact (List.map_congr_left hcells).trans
    (map_fill (by decide) (by omega) le_rfl (by omega))

/-- When no copy was late, the file is everything that was stored if and only if the half that
the loop waited for was not complete at the end. -/
theorem recorded_iff (cfg : BitVec ring16.axiAddrWidth) (mem : Memory ring16.axiAddrWidth)
    (es : List Event) (h : Along RamWriter.step (Orderly cfg) (.reset ring16) (clocks es))
    (hon : Along (step cfg mem) OnTime .start es)
    (hend : (run (step cfg mem) .start es).todo = []) :
    (run (step cfg mem) .start es).file cfg mem = storedBytes (clocks es) ↔
      8 * (beats (clocks es)).length <
        (run (step cfg mem) .start es).sent.length + 256 * 1024 := by
  obtain ⟨taken, hle, hlen, hhalf⟩ := halves_at_rest h mem hend
  have hcycles := cycles_start_run cfg mem es
  have hsent := sent_eq mem h
  rw [(sources_eq_range_iff h).mpr hon] at hsent
  have hposition : (run (step cfg mem) .start es).position =
      (beats (clocks es)).length % 2 ^ 16 := by
    rw [← hcycles]
    exact position_eq (hcycles ▸ h)
  rw [St.file, hposition, hcycles, hlen]
  constructor
  · intro hfile
    have hshort := length_remaining_lt (hhalf.imp And.left And.left)
      (Nat.mod_lt (beats (clocks es)).length (by decide : 0 < 2 ^ 16))
    have hsame := congrArg List.length hfile
    simp only [List.length_append, List.length_map, hlen, storedBytes, List.length_range] at hsame
    omega
  · intro hlt
    rw [remaining_eq hle hhalf (by omega),
      map_memory_remaining h hle (hhalf.imp And.right And.right) (by omega), hsent, hlen,
      ← List.map_append, storedBytes, List.range_eq_range', List.range_eq_range']
    have happend := List.range'_append_1 (s := 0) (m := 8 * taken)
      (n := 8 * (beats (clocks es)).length - 8 * taken)
    rw [Nat.zero_add] at happend
    rw [happend, Nat.add_sub_cancel' (by omega)]

theorem length_beats_oneHalf : (beats (clocks oneHalf)).length = 33000 := by
  rw [oneHalf, clocks_pollTwice]
  exact length_beats_streaming _ _ _

/-- The file is the half that was sent and 232 words more. -/
theorem recorded_iff_oneHalf :
    (run (step 0x1E000000 fun _ => 0) .start oneHalf).file 0x1E000000 (fun _ => 0) =
        storedBytes (clocks oneHalf) ∧ (storedBytes (clocks oneHalf)).length = 264000 := by
  obtain ⟨htodo, hsent⟩ := length_sent_oneHalf fun _ => 0
  have hon : Along (step 0x1E000000 fun _ => 0) OnTime .start oneHalf :=
    onTime_of_timely (by decide) (by decide) orderly_oneHalf (timely_oneHalf _)
  refine ⟨(recorded_iff 0x1E000000 _ oneHalf orderly_oneHalf hon htodo).mpr ?_, ?_⟩
  · rw [length_beats_oneHalf, hsent]
    decide
  · rw [storedBytes, List.length_map, List.length_range, length_beats_oneHalf]

end LagoEcosystem.Recorder
