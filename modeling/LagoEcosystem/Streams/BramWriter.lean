import LagoEcosystem.Library.BitFields
import LagoEcosystem.Library.Clocked
import LagoEcosystem.Library.RingMemory
import Mathlib.Data.BitVec

/-!
# The writer of a ring memory

`axis_bram_writer`, which stores a stream into a memory, word by word and round and round.
Address, data and write enable are those of the cycle in which the word is accepted; the
address register moves on at the edge that ends it.
-/

namespace LagoEcosystem.AxisBramWriter

open BitFields Clocked RingMemory

/-- The input ports. The memory has `B` bytes in a word: `AXIS_TDATA_WIDTH` and
`BRAM_DATA_WIDTH` are `8 * B`. -/
structure In (B : ℕ) where
  aresetn : Bool
  sAxisTdata : BitVec (8 * B)
  sAxisTvalid : Bool

/-- The memory at the port; `A` is `BRAM_ADDR_WIDTH`. -/
abbrev Bram (A B : ℕ) := BitVec A → BitVec (8 * B)

/-- The registers, with the memory. -/
structure St (A B : ℕ) where
  enblReg : Bool
  addrReg : BitVec A
  bram : Bram A B

/-- The output ports. -/
structure Out (A B : ℕ) where
  stsData : BitVec A
  sAxisTready : Bool
  bramPortaRst : Bool
  bramPortaAddr : BitVec A
  bramPortaWrdata : BitVec (8 * B)
  bramPortaWe : BitVec B

variable {A B : ℕ}

def St.enblNext (s : St A B) : Bool := if !s.enblReg then true else s.enblReg

def St.addrNext (s : St A B) (i : In B) : BitVec A :=
  if i.sAxisTvalid && s.enblReg then s.addrReg + 1 else s.addrReg

def St.sAux1 (s : St A B) (i : In B) : Bool := if i.sAxisTvalid && s.enblReg then true else false

def St.out (s : St A B) (i : In B) : Out A B where
  stsData := s.addrReg
  sAxisTready := s.enblReg
  bramPortaRst := !i.aresetn
  bramPortaAddr := s.addrReg
  bramPortaWrdata := i.sAxisTdata
  bramPortaWe := if s.sAux1 i then BitVec.allOnes B else 0

/-- A write replaces the bytes whose enable bit is set. -/
def storeBytes (we : BitVec B) (new old : BitVec (8 * B)) : BitVec (8 * B) :=
  ofBits fun k => if we.getLsbD (k / 8) then new.getLsbD k else old.getLsbD k

/-- The memory after a clock edge. -/
def bramNext (bram : Bram A B) (o : Out A B) : Bram A B :=
  Function.update bram o.bramPortaAddr
    (storeBytes o.bramPortaWe o.bramPortaWrdata (bram o.bramPortaAddr))

/-- The registers after a clock edge with `aresetn` low. The memory keeps its words. -/
def St.reset (bram : Bram A B) : St A B := ⟨false, 0, bram⟩

def step (s : St A B) (i : In B) : St A B where
  enblReg := i.aresetn && s.enblNext
  addrReg := if i.aresetn then s.addrNext i else 0
  bram := bramNext s.bram (s.out i)

/-- The word that the slave side accepts in a cycle. -/
def accepted (s : St A B) (i : In B) : List (BitVec (8 * B)) :=
  if i.sAxisTvalid && (s.out i).sAxisTready then [i.sAxisTdata] else []

/-- What the sender does in a cycle outside the reset. -/
structure Cycle (B : ℕ) where
  tdata : BitVec (8 * B)
  tvalid : Bool

def Cycle.toIn (c : Cycle B) : In B := ⟨true, c.tdata, c.tvalid⟩

theorem step_reset (s : St A B) {i : In B} (h : i.aresetn = false) :
    step s i = .reset (bramNext s.bram (s.out i)) := by
  simp [step, St.reset, h]

section Run

variable (bram : Bram A B) (cs : List (Cycle B))

/-- The registers and the memory after a run. -/
def after : St A B := run step (.reset bram) (cs.map Cycle.toIn)

/-- The words accepted in a run. -/
def taken : List (BitVec (8 * B)) := collect step accepted (.reset bram) (cs.map Cycle.toIn)

/-- The last words are in the memory, as many as it has cells, each at its number modulo the
size of the memory, and the status is the number of words. -/
structure RingLaw : Prop where
  /-- From the second cycle on every word is accepted. -/
  accepts : taken bram cs = (cs.tail.filter Cycle.tvalid).map Cycle.tdata
  stored : ∀ j, (taken bram cs).length - min (taken bram cs).length (2 ^ A) ≤ j →
    ∀ d ∈ (taken bram cs)[j]?, (after bram cs).bram (BitVec.ofNat A (j % 2 ^ A)) = d
  status : ∀ i, ((after bram cs).out i).stsData.toNat = (taken bram cs).length % 2 ^ A

end Run

/-! ## One edge -/

theorem getLsbD_storeBytes (we : BitVec B) (new old : BitVec (8 * B)) {k : ℕ} (hk : k < 8 * B) :
    (storeBytes we new old).getLsbD k =
      if we.getLsbD (k / 8) then new.getLsbD k else old.getLsbD k :=
  getLsbD_ofBits _ ⟨k, hk⟩

theorem storeBytes_allOnes (new old : BitVec (8 * B)) :
    storeBytes (BitVec.allOnes B) new old = new := by
  apply BitVec.eq_of_getLsbD_eq
  intro k hk
  have hbyte : k / 8 < B := by omega
  rw [getLsbD_storeBytes _ _ _ hk]
  simp [hbyte]

theorem storeBytes_zero (new old : BitVec (8 * B)) : storeBytes 0 new old = old := by
  apply BitVec.eq_of_getLsbD_eq
  intro k hk
  rw [getLsbD_storeBytes _ _ _ hk]
  simp

section Edge

variable {s : St A B} {c : Cycle B}

/-- A word is stored in the cycle in which it is accepted, and in no other. -/
theorem bramNext_out (s : St A B) (c : Cycle B) : bramNext s.bram (s.out c.toIn) =
    if c.tvalid && s.enblReg then Function.update s.bram s.addrReg c.tdata else s.bram := by
  have haux : s.sAux1 c.toIn = (c.tvalid && s.enblReg) := by simp [St.sAux1, Cycle.toIn]
  rw [bramNext, St.out, haux]
  cases c.tvalid && s.enblReg with
  | false =>
    simp only [Bool.false_eq_true, if_false, storeBytes_zero]
    exact Function.update_eq_self _ _
  | true => simp only [if_true, storeBytes_allOnes, Cycle.toIn]

/-- The enable flag stays set from the first edge on. -/
theorem enblNext_eq (s : St A B) : s.enblNext = true := by
  cases hs : s.enblReg <;> simp [St.enblNext, hs]

theorem step_idle (h : (c.tvalid && s.enblReg) = false) :
    step s c.toIn = ⟨true, s.addrReg, s.bram⟩ ∧ accepted s c.toIn = [] := by
  constructor
  · rw [step, bramNext_out, h]
    simp [St.addrNext, Cycle.toIn, h, enblNext_eq]
  · simp [accepted, St.out, Cycle.toIn, h]

theorem step_word (h : (c.tvalid && s.enblReg) = true) :
    step s c.toIn = ⟨true, s.addrReg + 1, Function.update s.bram s.addrReg c.tdata⟩ ∧
      accepted s c.toIn = [c.tdata] := by
  constructor
  · rw [step, bramNext_out, h]
    simp only [St.addrNext, Cycle.toIn, h, enblNext_eq, Bool.and_self, if_true]
  · simp only [accepted, St.out, Cycle.toIn, h, if_true]

end Edge

/-! ## Runs -/

section Run

variable {bram : Bram A B} {cs : List (Cycle B)} {c : Cycle B}

theorem after_snoc : after bram (cs ++ [c]) = step (after bram cs) c.toIn := by simp [after]

theorem taken_snoc : taken bram (cs ++ [c]) =
    taken bram cs ++ accepted (after bram cs) c.toIn := by
  simp [taken, after]

/-- The stream that begins with the words of `ds`. -/
def stream (ds : List (BitVec (8 * B))) (j : ℕ) : BitVec (8 * B) := ds.getD j 0

theorem fill_stream_append {N : ℕ} {init : ℕ → BitVec (8 * B)} (ds : List (BitVec (8 * B)))
    (d : BitVec (8 * B)) : fill N init (stream (ds ++ [d])) (ds.length + 1) =
      Function.update (fill N init (stream ds) ds.length) (ds.length % N) d := by
  have hlast : stream (ds ++ [d]) ds.length = d := by simp [stream]
  have hold : fill N init (stream (ds ++ [d])) ds.length = fill N init (stream ds) ds.length :=
    fill_congr fun i hi => by simp [stream, List.getElem?_append_left hi]
  rw [fill, hlast, hold]

/-- The registers and the memory after the words of `ds`. -/
structure Filled (bram : Bram A B) (ds : List (BitVec (8 * B))) (s : St A B) : Prop where
  addr : s.addrReg = BitVec.ofNat A ds.length
  mem : ∀ a, s.bram a =
    fill (2 ^ A) (fun j => bram (BitVec.ofNat A j)) (stream ds) ds.length a.toNat

theorem Filled.step {ds : List (BitVec (8 * B))} {s : St A B} (h : Filled bram ds s) :
    Filled bram (ds ++ accepted s c.toIn) (step s c.toIn) := by
  cases hgo : c.tvalid && s.enblReg with
  | false =>
    obtain ⟨hstep, hacc⟩ := step_idle hgo
    rw [hstep, hacc, List.append_nil]
    exact ⟨h.addr, h.mem⟩
  | true =>
    obtain ⟨hstep, hacc⟩ := step_word hgo
    rw [hstep, hacc]
    refine ⟨by simp [h.addr, BitVec.ofNat_add], fun a => ?_⟩
    have hlen : (ds ++ [c.tdata]).length = ds.length + 1 := by simp
    rw [hlen, fill_stream_append]
    show Function.update s.bram s.addrReg c.tdata a = _
    by_cases ha : a = s.addrReg
    case pos =>
      have hcell : a.toNat = ds.length % 2 ^ A := by rw [ha, h.addr, BitVec.toNat_ofNat]
      rw [ha, Function.update_self, ← ha, hcell, Function.update_self]
    case neg =>
      have hcell : a.toNat ≠ ds.length % 2 ^ A := by
        rw [← BitVec.toNat_ofNat, ← h.addr]
        exact fun heq => ha (BitVec.eq_of_toNat_eq heq)
      rw [Function.update_of_ne ha, Function.update_of_ne hcell, h.mem]

theorem filled_after (bram : Bram A B) (cs : List (Cycle B)) :
    Filled bram (taken bram cs) (after bram cs) := by
  induction cs using List.reverseRecOn with
  | nil => exact ⟨rfl, fun a => by simp [after, taken, fill, St.reset]⟩
  | append_singleton cs c ih =>
    rw [after_snoc, taken_snoc]
    exact ih.step

/-- The slave side is closed in the first cycle only. -/
theorem taken_eq (bram : Bram A B) (cs : List (Cycle B)) :
    taken bram cs = (cs.tail.filter Cycle.tvalid).map Cycle.tdata := by
  have hopen : ∀ (cs : List (Cycle B)) (s : St A B), s.enblReg = true →
      collect step accepted s (cs.map Cycle.toIn) =
        (cs.filter Cycle.tvalid).map Cycle.tdata := by
    intro cs
    induction cs with
    | nil => exact fun s _ => rfl
    | cons c cs ih =>
      intro s hs
      rw [List.map_cons, collect_cons]
      cases hv : c.tvalid with
      | false =>
        obtain ⟨hstep, hacc⟩ := step_idle (s := s) (c := c) (by simp [hv])
        rw [hacc, ih _ (by rw [hstep]), List.filter_cons_of_neg (by simp [hv])]
        rfl
      | true =>
        obtain ⟨hstep, hacc⟩ := step_word (s := s) (c := c) (by simp [hv, hs])
        rw [hacc, ih _ (by rw [hstep]), List.filter_cons_of_pos hv]
        rfl
  cases cs with
  | nil => rfl
  | cons c cs =>
    obtain ⟨hstep, hacc⟩ := step_idle (s := .reset bram) (c := c) (by simp [St.reset])
    rw [taken, List.map_cons, collect_cons, hacc, hopen cs _ (by rw [hstep])]
    rfl

/-- The law of the writer. -/
theorem ringLaw (bram : Bram A B) (cs : List (Cycle B)) : RingLaw bram cs := by
  have hfilled := filled_after bram cs
  refine ⟨taken_eq bram cs, fun j hj d hd => ?_, fun i => ?_⟩
  case refine_1 =>
    obtain ⟨hlt, hget⟩ := List.getElem?_eq_some_iff.mp hd
    have hword : stream (taken bram cs) j = d := by simp [stream, hlt, hget]
    rw [hfilled.mem, BitVec.toNat_ofNat, Nat.mod_mod, ← hword]
    exact fill_mod hlt (by omega)
  case refine_2 =>
    show (after bram cs).addrReg.toNat = _
    rw [hfilled.addr, BitVec.toNat_ofNat]

end Run

end LagoEcosystem.AxisBramWriter
