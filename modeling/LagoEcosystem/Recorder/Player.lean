import LagoEcosystem.AxiLite.AxisWriter
import Mathlib.Data.List.GetD

/-!
# The player

`dac-player.c` reads a file in pieces of 64 kB, waits until the FIFO in front of the converters
has room for a piece, and stores the piece word by word. `axi_axis_writer` does not look whether
the FIFO takes a word, so nothing but the wait keeps the samples from getting lost. Behind the
FIFO `axis_zeroer` fills the gaps with zeros.
-/

namespace LagoEcosystem.Player

open Clocked

/-! ## The words of a file -/

def byte (bytes : List (BitVec 8)) (k : ℕ) : BitVec 8 := bytes.getD k 0

/-- Four bytes from place `k` on, the low one first. -/
def word32 (bytes : List (BitVec 8)) (k : ℕ) : BitVec 32 :=
  byte bytes (k + 3) ++ byte bytes (k + 2) ++ byte bytes (k + 1) ++ byte bytes k

/-- `buffer[i]` -/
def word64 (bytes : List (BitVec 8)) (i : ℕ) : BitVec 64 :=
  word32 bytes (8 * i + 4) ++ word32 bytes (8 * i)

/-- The two words of a store of eight bytes, in the order of their addresses. -/
def beatsOf (w : BitVec 64) : List (BitVec 32) := [w.extractLsb' 0 32, w.extractLsb' 32 32]

/-- `for(i = 0; i < size / 8; ++i) *dac = buffer[i];` -/
def stores (bytes : List (BitVec 8)) : List (BitVec 32) :=
  (List.range (bytes.length / 8)).flatMap fun i => beatsOf (word64 bytes i)

/-! ## The system -/

/-- `FIFO_DEPTH` -/
def fifoDepth : ℕ := 32768

/-- The bytes of a call of `fread`. -/
def pieceBytes : ℕ := 65536

/-- The file from the place on that is read next, the piece that waits for room, the words of the
piece being stored, whether the response to a store is still missing, the core and the FIFO. -/
structure St where
  rest : List (BitVec 8)
  buffer : List (BitVec 8)
  todo : List (BitVec 32)
  busy : Bool
  core : AxiAxisWriter.St
  fifo : List (BitVec 32)

def St.start (file : List (BitVec 8)) : St := ⟨file, [], [], false, .reset, []⟩

/-- `fread`, a look at the FIFO that shows `count` words, and a clock cycle, in which the next
store may reach the core, the processor may take the response, and the converters may take a
word. -/
inductive Event where
  | fread
  | poll (count : ℕ)
  | cycle (store bready ready : Bool)

/-- No access of the program is under way. A store ends with its response. -/
def St.idle (s : St) : Bool := s.todo.isEmpty && !s.busy

/-- The next word is on the data channel. -/
def St.presents (s : St) (store : Bool) : Bool := store && !s.busy && !s.todo.isEmpty

def St.toIn (s : St) (store bready : Bool) : AxiAxisWriter.In 32 where
  aresetn := true
  sAxiWdata := s.todo.headD 0
  sAxiWvalid := s.presents store
  sAxiBready := bready

/-- `tready` of the FIFO. -/
def St.fifoTready (s : St) : Bool := s.fifo.length < fifoDepth

def step (s : St) : Event → St
  | .fread =>
    if s.idle && s.buffer.isEmpty then
      { s with buffer := s.rest.take pieceBytes, rest := s.rest.drop pieceBytes }
    else s
  | .poll count =>
    if s.idle && !decide (count > 16384) then { s with todo := stores s.buffer, buffer := [] }
    else s
  | .cycle store bready ready =>
    let i := s.toIn store bready
    { s with
      todo := if s.presents store then s.todo.tail else s.todo
      busy := s.presents store || s.busy && !((s.core.out i).sAxiBvalid && bready)
      core := AxiAxisWriter.step s.core i
      fifo := (if ready then s.fifo.tail else s.fifo) ++
        if s.fifoTready then AxiAxisWriter.streamOut s.core i else [] }

/-- What `axis_zeroer` has at its input when the converters take a word. -/
def played (s : St) : Event → List (Option (BitVec 32))
  | .cycle _ _ true => [s.fifo.head?]
  | _ => []

/-- `m_axis_tdata` of `axis_zeroer`, whose `m_axis_tvalid` is always high. -/
def zeroed (w : Option (BitVec 32)) : BitVec 32 := w.getD 0

/-- The FIFO holds no more words than it shows. -/
def Honest (s : St) (e : Event) : Prop :=
  match e with
  | .poll count => s.fifo.length ≤ count
  | _ => True

instance (s : St) : (e : Event) → Decidable (Honest s e)
  | .poll _ => inferInstanceAs (Decidable (_ ≤ _))
  | .fread | .cycle _ _ _ => .isTrue trivial

/-! ## The words of a piece -/

section Words

variable {xs ys : List (BitVec 8)}

theorem beatsOf_word64 (bytes : List (BitVec 8)) (i : ℕ) :
    beatsOf (word64 bytes i) = [word32 bytes (8 * i), word32 bytes (8 * i + 4)] := by
  rw [beatsOf, word64, BitVec.extractLsb'_append_eq_right, BitVec.extractLsb'_append_eq_left]

/-- The words that are stored are those of the file, in order, as far as it goes in steps of
eight bytes. -/
theorem stores_eq (bytes : List (BitVec 8)) :
    stores bytes = (List.range (2 * (bytes.length / 8))).map fun j => word32 bytes (4 * j) := by
  rw [stores]
  induction bytes.length / 8 with
  | zero => rfl
  | succ n ih =>
    have hlow : 8 * n = 4 * (2 * n + 0) := by omega
    have hhigh : 8 * n + 4 = 4 * (2 * n + 1) := by omega
    rw [List.range_succ, List.flatMap_append, ih, List.flatMap_singleton, beatsOf_word64,
      Nat.mul_succ, List.range_add, List.map_append, hhigh, hlow]
    rfl

theorem length_stores (bytes : List (BitVec 8)) :
    (stores bytes).length = 2 * (bytes.length / 8) := by
  rw [stores_eq, List.length_map, List.length_range]

theorem word32_append_left {k : ℕ} (hk : k + 3 < xs.length) :
    word32 (xs ++ ys) k = word32 xs k := by
  have hbyte {i : ℕ} (hi : i < xs.length) : byte (xs ++ ys) i = byte xs i := by
    rw [byte, byte, List.getD_append _ _ _ _ hi]
  rw [word32, word32, hbyte hk, hbyte (by omega), hbyte (by omega), hbyte (by omega)]

theorem word32_append_right (k : ℕ) : word32 (xs ++ ys) (xs.length + k) = word32 ys k := by
  have hbyte (i : ℕ) : byte (xs ++ ys) (xs.length + i) = byte ys i := by
    rw [byte, byte, List.getD_append_right _ _ _ _ (Nat.le_add_right _ _), Nat.add_sub_cancel_left]
  simp only [word32, Nat.add_assoc, hbyte]

/-- A piece that ends with a word leaves the words of the rest as they are. -/
theorem stores_append (h : 8 ∣ xs.length) : stores (xs ++ ys) = stores xs ++ stores ys := by
  obtain ⟨n, hn⟩ := h
  have hlen : 2 * ((xs ++ ys).length / 8) = 2 * (xs.length / 8) + 2 * (ys.length / 8) := by
    rw [List.length_append]
    omega
  rw [stores_eq, stores_eq, stores_eq, hlen, List.range_add, List.map_append, List.map_map]
  congr 1
  · refine List.map_congr_left fun j hj => word32_append_left ?_
    rw [List.mem_range] at hj
    omega
  · refine List.map_congr_left fun j _ => ?_
    have hplace : 4 * (2 * (xs.length / 8) + j) = xs.length + 4 * j := by omega
    rw [Function.comp_apply, hplace, word32_append_right]

theorem stores_take_append_drop (bytes : List (BitVec 8)) :
    stores (bytes.take pieceBytes) ++ stores (bytes.drop pieceBytes) = stores bytes := by
  by_cases h : bytes.length ≤ pieceBytes
  · rw [List.take_of_length_le h, List.drop_eq_nil_of_le h]
    exact List.append_nil _
  · rw [← stores_append, List.take_append_drop]
    rw [List.length_take_of_le (by omega)]
    exact ⟨8192, rfl⟩

end Words

/-! ## No word is lost -/

variable {s : St} {e : Event} {file : List (BitVec 8)} {es : List Event}

/-- There is room in the FIFO for what is left of the piece, a piece is not longer than it may
be, and the processor waits for a response exactly if the core has one. -/
structure Inv (s : St) : Prop where
  room : s.fifo.length + s.todo.length ≤ fifoDepth
  piece : s.buffer.length ≤ pieceBytes
  busy : s.busy = s.core.intValidReg

theorem inv_start : Inv (.start file) where
  room := by simp [St.start]
  piece := by simp [St.start]
  busy := rfl

theorem streamOut_toIn (s : St) (store bready : Bool) :
    AxiAxisWriter.streamOut s.core (s.toIn store bready) =
      if s.presents store then s.todo.take 1 else [] := by
  cases htodo : s.todo <;>
    simp [AxiAxisWriter.streamOut, AxiAxisWriter.St.out, St.toIn, St.presents, htodo]

/-- The FIFO takes every word that the program stores. -/
theorem Inv.pushed (h : Inv s) (store bready : Bool) :
    (if s.fifoTready then AxiAxisWriter.streamOut s.core (s.toIn store bready) else []) =
      if s.presents store then s.todo.take 1 else [] := by
  rw [streamOut_toIn]
  cases hpresents : s.presents store with
  | false => simp
  | true =>
    have hpos : 0 < s.todo.length := by
      simp [St.presents] at hpresents
      exact List.length_pos_iff.mpr hpresents.2
    have hroom := h.room
    have htready : s.fifoTready = true := by
      simp [St.fifoTready]
      omega
    rw [htready]
    rfl

theorem Inv.step (h : Inv s) (he : Honest s e) : Inv (step s e) := by
  obtain ⟨hroom, hpiece, hbusy⟩ := h
  cases e with
  | fread =>
    rw [Player.step]
    split
    case isTrue => exact ⟨hroom, List.length_take_le _ _, hbusy⟩
    case isFalse => exact ⟨hroom, hpiece, hbusy⟩
  | poll count =>
    rw [Player.step]
    split
    case isTrue hpoll =>
      have hcount : count ≤ 16384 := by simp at hpoll; omega
      have hfree : s.fifo.length + (stores s.buffer).length ≤ fifoDepth := by
        have hfifo : s.fifo.length ≤ count := he
        rw [length_stores, fifoDepth]
        rw [pieceBytes] at hpiece
        omega
      exact ⟨hfree, Nat.zero_le _, hbusy⟩
    case isFalse => exact ⟨hroom, hpiece, hbusy⟩
  | cycle store bready ready =>
    have hpushed := Inv.pushed ⟨hroom, hpiece, hbusy⟩ store bready
    refine ⟨?_, hpiece, ?_⟩
    · show List.length (_ ++ if s.fifoTready then _ else _) +
        (if s.presents store then s.todo.tail else s.todo).length ≤ fifoDepth
      rw [hpushed]
      cases hpresents : s.presents store <;> cases ready <;> grind [St.presents]
    · show (s.presents store || s.busy && !(s.core.intValidReg && bready)) =
        (s.core.intValidNext (s.toIn store bready))
      rw [hbusy]
      cases hpresents : s.presents store <;> cases hvalid : s.core.intValidReg <;> cases bready <;>
        simp [AxiAxisWriter.St.intValidNext, St.toIn, hpresents, hvalid]

/-- The words on their way, from the FIFO back to the file. -/
def St.words (s : St) : List (BitVec 32) := s.fifo ++ s.todo ++ stores s.buffer ++ stores s.rest

theorem words_start (file : List (BitVec 8)) : [] ++ (St.start file).words = stores file := by
  simp [St.words, St.start, stores]

/-- What goes into the FIFO comes out, and nothing else does. -/
theorem Inv.words (h : Inv s) (e : Event) :
    s.words = (played s e).flatMap Option.toList ++ (Player.step s e).words := by
  have hnil : stores [] = [] := rfl
  cases e with
  | fread =>
    rw [Player.step]
    split
    case isTrue hread =>
      have hbuffer : s.buffer = [] := by simp at hread; exact hread.2
      simp [St.words, played, hbuffer, hnil, stores_take_append_drop]
    case isFalse => rfl
  | poll count =>
    rw [Player.step]
    split
    case isTrue hpoll =>
      have htodo : s.todo = [] := by simp [St.idle] at hpoll; exact hpoll.1.1
      simp [St.words, played, htodo, hnil]
    case isFalse => rfl
  | cycle store bready ready =>
    have hpushed := h.pushed store bready
    have hplayed : (played s (.cycle store bready ready)).flatMap Option.toList ++
        (if ready then s.fifo.tail else s.fifo) = s.fifo := by
      cases ready <;> cases hfifo : s.fifo <;> simp [played, hfifo]
    have htodo : (if s.presents store then s.todo.take 1 else []) ++
        (if s.presents store then s.todo.tail else s.todo) = s.todo := by
      cases s.presents store <;> cases s.todo <;> rfl
    simp only [Player.step, St.words, hpushed]
    rw [← List.append_assoc, ← List.append_assoc, List.append_assoc (if ready then _ else _), htodo,
      ← List.append_assoc, hplayed]

/-- What the converters have taken, with the zeros of the gaps left out, and what is still on its
way. -/
structure PlayLaw (file : List (BitVec 8)) (es : List Event) : Prop where
  played : (collect step played (.start file) es).flatMap Option.toList ++
      (run step (.start file) es).words =
    (List.range (2 * (file.length / 8))).map fun j => word32 file (4 * j)
  room : (run step (.start file) es).fifo.length + (run step (.start file) es).todo.length ≤
    fifoDepth

/-- In whatever order the program looks at the FIFO, the stores arrive and the converters take
their words, no word of the file gets lost, repeated or out of order. -/
theorem playLaw (file : List (BitVec 8)) (es : List Event)
    (h : Along step Honest (.start file) es) : PlayLaw file es := by
  have hinv : Along step (fun s e => Inv s ∧ Honest s e) (.start file) es :=
    h.strengthen inv_start fun s e hs he => hs.step he
  have hwords := hinv.history (P := fun words s => words ++ s.words = stores file)
    (fun s e => (played s e).flatMap Option.toList) (words_start file) fun words s e hs he => by
      rw [List.append_assoc, ← he.1.words e]
      exact hs
  rw [List.nil_append, collect_flatMap, stores_eq] at hwords
  exact ⟨hwords, (h.invariant inv_start fun s e hs he => hs.step he).room⟩

/-- The rest of a file of nineteen bytes is dropped, and the converters take a word too early. -/
def shortRun : List Event :=
  [.fread, .poll 0, .cycle true false true, .cycle false true false, .cycle true false true,
    .cycle false true true, .cycle true true false, .cycle true true false, .cycle true false false,
    .cycle false true true, .fread, .poll 1, .cycle false false true]

def shortFile : List (BitVec 8) := (List.range 19).map fun k => BitVec.ofNat 8 (k + 1)

theorem playLaw_shortFile :
    (collect step played (.start shortFile) shortRun).map zeroed =
        [0, 0x04030201, 0x08070605, 0x0C0B0A09, 0x100F0E0D] ∧
      PlayLaw shortFile shortRun :=
  ⟨by decide +kernel, playLaw shortFile shortRun (by decide +kernel)⟩

end LagoEcosystem.Player
