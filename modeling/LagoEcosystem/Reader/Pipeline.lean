import LagoEcosystem.Reader.DataPath
import LagoEcosystem.Reader.Language
import LagoEcosystem.Reader.Mapping
import LagoEcosystem.Streams.WidthConverter

/-!
# From the trigger to the records

The data path of v1_2 from end to end: the trigger core puts items into its stream, two words of
the stream make a word of the RAM writer, the writer stores them while the program reads, and the
program takes the words apart. Between the trigger core and the converter `axis_tlast_gen` passes
every word on as it is. The program keeps to its mapping for the first four mebibytes of a run,
and until then nothing has to be on time.
-/

namespace LagoEcosystem.Reader.DataPath

open ByteMemory Clocked RamWriter
open Trigger (Item Tracked)

/-- The writer of v1_2. -/
def writer : Generics := .blockDesign

variable {g : Trigger.Generics} {cfg : BitVec writer.axiAddrWidth}
  {mem : Memory writer.axiAddrWidth} {is : List Trigger.In} {es : List (Event writer)}

/-- The program after the events of a run. -/
def program (cfg : BitVec writer.axiAddrWidth) (mem : Memory writer.axiAddrWidth)
    (es : List (Event writer)) : St writer :=
  run (step v12 cfg mem) .start es

/-- What the program has read after the events `es`, `is` being the cycles of the trigger core. -/
structure ReadingLaw (g : Trigger.Generics) (cfg : BitVec writer.axiAddrWidth)
    (mem : Memory writer.axiAddrWidth) (is : List Trigger.In) (es : List (Event writer)) :
    Prop where
  /-- The words of the first items, and the program finds in each what the core put in. -/
  items : ∃ its, its <+: collect Tracked.step Tracked.put (.reset g) is ∧
    (program cfg mem es).processed = its.map Item.word ∧
    ∀ it ∈ its, ∀ r ∈ it.record, decode it.word = r
  /-- The words still to be read are in the mapping. -/
  inside : ∀ i ∈ (program cfg mem es).todo, i + 4 ≤ cmaBytes
  /-- When the loop of a call has ended, all that was stored before the call has been read. -/
  complete : ∀ js ks, es = js ++ .call :: ks → .call ∉ ks → (program cfg mem js).todo = [] →
    (program cfg mem es).todo = [] →
    (program cfg mem es).processed.length = 2 * (beats (clocks js)).length

/-! ## The first four mebibytes -/

theorem aligned_of_le {n : ℕ} (h : n ≤ 2 ^ 19) : Aligned writer n := .inr ⟨by decide, by omega⟩

theorem along_onTime (h : (beats (clocks es)).length ≤ 2 ^ 19) :
    Along (step v12 cfg mem) OnTime .start es := by
  refine (along_cycles v12 cfg mem es).mono fun s e hs => ?_
  have hmono := length_beats_mono hs
  have hring : ringWords v10 = 2 ^ 21 := rfl
  cases e with
  | clock i => trivial
  | call => exact fun _ => by omega
  | word => exact fun _ => by omega

theorem inv_program (mem : Memory writer.axiAddrWidth)
    (h : Along RamWriter.step (Orderly cfg) (.reset writer) (clocks es))
    (hfour : (beats (clocks es)).length ≤ 2 ^ 19) :
    Inv (clocks es) (program cfg mem es) :=
  inv_run rfl h (aligned_of_le hfour) (along_onTime hfour)

/-! ## The words of a call -/

/-- A call takes all that is stored. -/
theorem taken_call (mem : Memory writer.axiAddrWidth) {s : St writer} {all : List (In writer)}
    (hinv : Inv all s)
    (hcycles : Along RamWriter.step (Orderly cfg) (.reset writer) s.cycles)
    (hfour : (beats s.cycles).length ≤ 2 ^ 19) (hnil : s.todo = []) :
    (step v12 cfg mem s .call).taken = 2 * (beats s.cycles).length := by
  have hring : ringWords v10 = 2097152 := rfl
  have hbuffer : bufferWords = 2097152 := rfl
  have htime : OnTime s .call := fun _ => by omega
  obtain ⟨hlow, htodo, -⟩ := hinv.call_eq (v := v12) hnil rfl hcycles (aligned_of_le hfour) htime
  have hturn : bufferWords ≤ (s.processed.length / bufferWords + 1) * bufferWords :=
    Nat.le_mul_of_pos_left _ (Nat.succ_pos _)
  have hupTo : s.upTo = 2 * (beats s.cycles).length := min_eq_left (by omega)
  have hlen : (s.call v12).todo.length = s.upTo - s.processed.length := by simp [htodo]
  have hcall : step v12 cfg mem s .call = s.call v12 := if_pos (List.isEmpty_iff.mpr hnil)
  rw [hcall, St.taken]
  show s.processed.length + (s.call v12).todo.length = _
  omega

theorem taken_step {s : St writer} {e : Event writer} (he : e ≠ .call) :
    (step v12 cfg mem s e).taken = s.taken := by
  cases e with
  | clock i => rfl
  | call => exact absurd rfl he
  | word =>
    cases htodo : s.todo with
    | nil => simp [step, St.taken, htodo]
    | cons i is =>
      simp only [step, St.taken, htodo, List.tail_cons, List.length_append, List.length_map,
        List.length_take, List.length_cons]
      omega

theorem taken_run {s : St writer} (h : .call ∉ es) :
    (run (step v12 cfg mem) s es).taken = s.taken := by
  induction es generalizing s with
  | nil => rfl
  | cons e es ih =>
    rw [List.mem_cons, not_or] at h
    rw [run_cons, ih h.2, taken_step (Ne.symm h.1)]

/-! ## The words of the stream -/

/-- The halves of the accepted words are the words of the stream. -/
theorem map_acceptedHalf {ws : List (BitVec 32)} {ks : List (In writer)}
    (h : accepted ks <+: packWords ws) {n : ℕ} (hn : n ≤ 2 * (accepted ks).length) :
    (List.range n).map (acceptedHalf ks) = ws.take n := by
  have hlen := h.length_le
  rw [length_packWords] at hlen
  refine List.ext_getElem (by simp; omega) fun j hj _ => ?_
  rw [List.length_map, List.length_range] at hj
  have hword : acceptedWord ks (j / 2) = (packWords ws).getD (j / 2) 0 := by
    obtain ⟨rest, hrest⟩ := h
    rw [acceptedWord, ← hrest, List.getD_eq_getElem?_getD, List.getD_eq_getElem?_getD,
      List.getElem?_append_left (by omega)]
  rw [List.getElem_map, List.getElem_range, List.getElem_take, acceptedHalf, hword,
    packWords_half (by omega), List.getD_eq_getElem _ _ (by omega)]

/-- In a run of v1_2 of at most four mebibytes the program reads the items of the trigger core
from the first one on, each once and in order, however its calls fall between the cycles of the
writer. -/
theorem reads_items (g : Trigger.Generics) (cfg : BitVec writer.axiAddrWidth)
    (mem : Memory writer.axiAddrWidth) (is : List Trigger.In) (es : List (Event writer))
    (htrigger : Along Trigger.step Trigger.Harmless (.reset g) is)
    (hwriter : Along RamWriter.step (Orderly cfg) (.reset writer) (clocks es))
    (hwords : accepted (clocks es) <+: packWords (Trigger.transferred (.reset g) is))
    (hfour : (beats (clocks es)).length ≤ 2 ^ 19) : ReadingLaw g cfg mem is es := by
  have hinv := inv_program mem hwriter hfour
  have hcycles : (program cfg mem es).cycles = clocks es := cycles_start_run v12 cfg mem es
  have hstored := hinv.stored
  rw [hcycles] at hstored
  have haccepted := length_beats_le_accepted hwriter
  refine ⟨?_, ?_, ?_⟩
  · obtain ⟨rest, hrest⟩ := Trigger.transferred_isPrefix htrigger
    have hlen : (program cfg mem es).processed.length ≤ 2 * (accepted (clocks es)).length := by
      rw [St.taken] at hstored
      omega
    have htake := map_acceptedHalf hwords hlen
    have hprefix : (program cfg mem es).processed <+:
        (collect Tracked.step Tracked.put (.reset g) is).map Item.word := by
      rw [← Trigger.loaded_eq, hinv.processed, htake, ← hrest]
      exact (List.take_prefix _ _).trans (List.prefix_append _ _)
    obtain ⟨its, hits, hwords⟩ := List.prefix_map_iff.mp hprefix
    exact ⟨its, hits, hwords, fun it _ r hr => decode_word hr⟩
  · intro i hi
    rw [hinv.todo] at hi
    obtain ⟨j, hj, rfl⟩ := List.mem_map.mp hi
    have hmod := Nat.mod_le (program cfg mem es).processed.length bufferWords
    have hcma : cmaBytes = 2 ^ 22 := rfl
    rw [List.mem_range'_1] at hj
    rw [St.taken] at hstored
    omega
  · rintro js ks rfl hks hjs hes
    have hpast : clocks js <+: clocks (js ++ .call :: ks) :=
      clocks_isPrefix (List.prefix_append _ _)
    have hmono := length_beats_mono hpast
    have hthen : (program cfg mem js).cycles = clocks js := cycles_start_run v12 cfg mem js
    have hcall := taken_call mem (inv_program mem (hwriter.of_isPrefix hpast) (by omega))
      (by rw [hthen]; exact hwriter.of_isPrefix hpast) (by rw [hthen]; omega) hjs
    have htaken : (program cfg mem (js ++ .call :: ks)).taken =
        (step v12 cfg mem (program cfg mem js) .call).taken := by
      rw [program, run_append, run_cons, taken_run hks]
      rfl
    rw [hcall, hthen, St.taken, hes, List.length_nil, Nat.add_zero] at htaken
    exact htaken

/-- Four seconds without a trigger. -/
def fourSeconds : List Trigger.In :=
  (List.replicate 4 (Trigger.pulse :: List.replicate 14 .quiet)).flatten

/-- The metadata of a second without GPS, two words in one. -/
def secondWords : List (BitVec 64) :=
  [0xE8000000F0000000, 0xE3000000E4000000, 0xE1000000E2000000, 0xD8000000E0000000,
    0xC8000000D0000000, 0xFFFFFFFFC0000000]

def fourSecondsRun : List (Event writer) := burstRun fun k => secondWords.getD (k % 6) 0

theorem reads_items_fourSeconds :
    (program 0x1E000000 (fun _ => 0) fourSecondsRun).processed =
        [0xF0000000, 0xE8000000, 0xE4000000, 0xE3000000, 0xE2000000, 0xE1000000] ∧
      ReadingLaw .blockDesign 0x1E000000 (fun _ => 0) fourSeconds fourSecondsRun :=
  ⟨by decide +kernel, reads_items .blockDesign 0x1E000000 (fun _ => 0) fourSeconds fourSecondsRun
    ((along_of_forall _ _ (by simp [fourSeconds, Trigger.In.Ready, Trigger.pulse,
      Trigger.In.quiet])).mono fun s _ hi => Trigger.In.Ready.harmless hi s)
    (by decide +kernel) (by decide +kernel) (by decide +kernel)⟩

end LagoEcosystem.Reader.DataPath
