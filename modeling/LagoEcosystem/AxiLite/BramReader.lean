import LagoEcosystem.CfgRegister.Answers
import Mathlib.Data.BitVec

/-!
# The memory reader of the processor

`axi_bram_reader`, through which the processor reads a memory over AXI4-Lite. The read data
channel is the output of the memory and the memory sees the address channel, in every cycle
and not only in that of a request. So the word on the data channel is that of the address one
clock before, and it answers the request only if the address is the same then.

The core declares the ports of the write channels and drives none of them.
-/

namespace LagoEcosystem.AxiBramReader

open BitFields Clocked Cores
open CfgRegister (flagNext)

/-- The address bits inside a word, `ADDR_LSB`. -/
def addrLsb (axiDataWidth : ℕ) : ℕ := clogb2 (axiDataWidth / 8 - 1)

/-- The generics of the core. `AXI_DATA_WIDTH` and `BRAM_DATA_WIDTH` are `dataWidth`, and the
argument of `clogb2` is a natural number. -/
structure Generics where
  dataWidth : ℕ
  axiAddrWidth : ℕ
  bramAddrWidth : ℕ
  byte : 1 ≤ dataWidth / 8
  fits : addrLsb dataWidth + bramAddrWidth ≤ axiAddrWidth

/-- The default values of the source. -/
def Generics.default : Generics := ⟨32, 16, 10, by decide, by decide⟩

variable {g : Generics}

/-- The input ports. -/
structure In (g : Generics) where
  aresetn : Bool
  sAxiAraddr : BitVec g.axiAddrWidth
  sAxiArvalid : Bool
  sAxiRready : Bool

/-- The register of the core and that of the memory port. -/
structure St (g : Generics) where
  intRvalidReg : Bool
  bramPortaRddata : BitVec g.dataWidth

/-- The output ports. -/
structure Out (g : Generics) where
  sAxiArready : Bool
  sAxiRdata : BitVec g.dataWidth
  sAxiRresp : BitVec 2
  sAxiRvalid : Bool
  bramPortaRst : Bool
  bramPortaAddr : BitVec g.bramAddrWidth

/-- A memory content. -/
abbrev Bram (g : Generics) := BitVec g.bramAddrWidth → BitVec g.dataWidth

/-- The address of the memory word. -/
def wordAddr (addr : BitVec g.axiAddrWidth) : BitVec g.bramAddrWidth :=
  addr.extractLsb' (addrLsb g.dataWidth) g.bramAddrWidth

def St.intRvalidNext (s : St g) (i : In g) : Bool :=
  if i.sAxiArvalid then true
  else if i.sAxiRready && s.intRvalidReg then false
  else s.intRvalidReg

def St.out (s : St g) (i : In g) : Out g where
  sAxiArready := true
  sAxiRdata := s.bramPortaRddata
  sAxiRresp := 0
  sAxiRvalid := s.intRvalidReg
  bramPortaRst := !i.aresetn
  bramPortaAddr := wordAddr i.sAxiAraddr

/-- The registers after a clock edge with `aresetn` low. -/
def St.reset (g : Generics) : St g := ⟨false, 0⟩

/-- The clock edge. The memory answers one clock later. -/
def step (mem : Bram g) (s : St g) (i : In g) : St g where
  intRvalidReg := i.aresetn && s.intRvalidNext i
  bramPortaRddata := if (s.out i).bramPortaRst then 0 else mem (s.out i).bramPortaAddr

/-- The request accepted in a cycle, as the address of its word. -/
def requestOut (s : St g) (i : In g) : List (BitVec g.bramAddrWidth) :=
  if i.sAxiArvalid && (s.out i).sAxiArready then [wordAddr i.sAxiAraddr] else []

/-- The word handed over on the read data channel in a cycle. -/
def answerOut (s : St g) (i : In g) : List (BitVec g.dataWidth) :=
  if (s.out i).sAxiRvalid && i.sAxiRready then [(s.out i).sAxiRdata] else []

/-- What the master does in a cycle outside the reset. -/
structure Cycle (g : Generics) where
  araddr : BitVec g.axiAddrWidth
  arvalid : Bool
  rready : Bool

def Cycle.toIn (c : Cycle g) : In g := ⟨true, c.araddr, c.arvalid, c.rready⟩

theorem step_reset (mem : Bram g) (s : St g) {i : In g} (h : i.aresetn = false) :
    step mem s i = .reset g := by
  simp [step, St.out, St.reset, h]

section Run

variable (mem : Bram g) (cs : List (Cycle g))

def after : St g := run (step mem) (.reset g) (cs.map Cycle.toIn)
def requests : List (BitVec g.bramAddrWidth) :=
  collect (step mem) requestOut (.reset g) (cs.map Cycle.toIn)
def answers : List (BitVec g.dataWidth) :=
  collect (step mem) answerOut (.reset g) (cs.map Cycle.toIn)

end Run

/-- With every memory content, each request is answered once or about to be, and by the word it
asked for. -/
structure ReadLaw (cs : List (Cycle g)) : Prop where
  answered : ∀ (mem : Bram g) js, js <+: cs →
    (requests mem js).length = (answers mem js).length + (after mem js).intRvalidReg.toNat
  word : ∀ (mem : Bram g) (k : ℕ), ∀ x ∈ (answers mem cs)[k]?, ∃ a ∈ (requests mem cs)[k]?, x = mem a

/-! ## The addresses -/

/-- The addresses behind the read data channel: `shown` is that of the word on it, `asked` that
of the last request. -/
structure Track (g : Generics) where
  rvalid : Bool
  shown : BitVec g.bramAddrWidth
  asked : BitVec g.bramAddrWidth

def Track.reset : Track g := ⟨false, 0, 0⟩

def Track.step (t : Track g) (c : Cycle g) : Track g where
  rvalid := flagNext t.rvalid c.arvalid c.rready
  shown := wordAddr c.araddr
  asked := if c.arvalid then wordAddr c.araddr else t.asked

/-- No request is made while the answer before it waits and is not taken. -/
def NoOverrun (t : Track g) (c : Cycle g) : Prop :=
  c.arvalid = true → t.rvalid = true → c.rready = true

/-- In the cycle before an answer is taken the address is that of the request. -/
def Held (t : Track g) (c : Cycle g) : Prop :=
  t.rvalid = true → c.rready = true → t.shown = t.asked

/-- The condition on a cycle. -/
def Keeps (t : Track g) (c : Cycle g) : Prop := NoOverrun t c ∧ Held t c

instance (t : Track g) (c : Cycle g) : Decidable (Keeps t c) :=
  inferInstanceAs (Decidable ((_ → _ → _) ∧ (_ → _ → _)))

namespace Track

variable (t : Track g) (c : Cycle g)

def requestOut : List (BitVec g.bramAddrWidth) := if c.arvalid then [wordAddr c.araddr] else []
def shownOut : List (BitVec g.bramAddrWidth) := if t.rvalid && c.rready then [t.shown] else []
def askedOut : List (BitVec g.bramAddrWidth) := if t.rvalid && c.rready then [t.asked] else []

/-- The request whose answer waits. -/
def waiting : List (BitVec g.bramAddrWidth) := if t.rvalid then [t.asked] else []

/-- The request that gets no answer. -/
def lost : List (BitVec g.bramAddrWidth) :=
  if t.rvalid && c.arvalid && !c.rready then [t.asked] else []

theorem noOverrun_iff : NoOverrun t c ↔ t.lost c = [] := by
  unfold NoOverrun lost
  cases c.arvalid <;> cases t.rvalid <;> cases c.rready <;> simp

theorem held_iff : Held t c ↔ t.shownOut c = t.askedOut c := by
  unfold Held shownOut askedOut
  cases t.rvalid <;> cases c.rready <;> simp

theorem length_shownOut : (t.shownOut c).length = (t.askedOut c).length := by
  unfold shownOut askedOut
  cases t.rvalid && c.rready <;> rfl

/-- One edge of the channel: a request waits, is answered or gets lost. -/
theorem length_conserved : t.waiting.length + (requestOut c).length =
    (t.shownOut c).length + (t.step c).waiting.length + (t.lost c).length := by
  unfold waiting requestOut shownOut lost step flagNext
  cases t.rvalid <;> cases c.arvalid <;> cases c.rready <;> rfl

theorem conserved (h : t.lost c = []) :
    t.waiting ++ requestOut c = t.askedOut c ++ (t.step c).waiting := by
  revert h
  unfold waiting requestOut askedOut lost step flagNext
  cases t.rvalid <;> cases c.arvalid <;> cases c.rready <;> simp

end Track

/-- The memory port shows the word at the address `shown`. -/
def Shows (mem : Bram g) (s : St g) (t : Track g) : Prop :=
  s.intRvalidReg = t.rvalid ∧ (t.rvalid = true → s.bramPortaRddata = mem t.shown)

theorem Shows.step {mem : Bram g} {s : St g} {t : Track g} (c : Cycle g) (h : Shows mem s t) :
    Shows mem (step mem s c.toIn) (t.step c) := by
  refine ⟨?_, fun _ => rfl⟩
  show flagNext s.intRvalidReg c.arvalid c.rready = _
  rw [h.1]
  rfl

theorem Shows.answerOut_eq {mem : Bram g} {s : St g} {t : Track g} (c : Cycle g)
    (h : Shows mem s t) : answerOut s c.toIn = (t.shownOut c).map mem := by
  show (if s.intRvalidReg && c.rready then [s.bramPortaRddata] else []) = _
  rw [h.1, Track.shownOut]
  cases hgo : t.rvalid && c.rready with
  | false => rfl
  | true =>
    rw [if_pos rfl, if_pos rfl, h.2 (Bool.and_eq_true_iff.mp hgo).1]
    rfl

/-! ## Runs -/

section Run

variable (mem : Bram g) (cs : List (Cycle g))

/-- The addresses after a run. -/
def track : Track g := run Track.step .reset cs

theorem shows_reset : Shows mem (.reset g) .reset := ⟨rfl, fun h => Bool.noConfusion h⟩

theorem shows_track : Shows mem (after mem cs) (track cs) ∧
    answers mem cs = (collect Track.step Track.shownOut .reset cs).map mem :=
  simulate Cycle.toIn mem (fun _ _ c h => h.step c) (fun _ _ c h => h.answerOut_eq c)
    (shows_reset mem) cs

theorem requests_eq :
    requests mem cs = collect Track.step (fun _ => Track.requestOut) .reset cs := by
  have hout : ∀ (s : St g) (t : Track g) (c : Cycle g), Shows mem s t →
      requestOut s c.toIn = (Track.requestOut c).map id := by
    intro s t c _
    rw [List.map_id, requestOut, Track.requestOut, St.out, Bool.and_true]
    rfl
  exact (simulate Cycle.toIn id (fun _ _ c h => h.step c) hout (shows_reset mem) cs).2.trans
    (List.map_id _)

/-- The requests are answered in turn or wait, except for those that get lost. -/
theorem count_requests : (requests mem cs).length = (answers mem cs).length +
    (after mem cs).intRvalidReg.toNat + (collect Track.step Track.lost .reset cs).length := by
  have hall : Along Track.step (fun _ _ => True) (.reset : Track g) cs :=
    along_of_forall Track.step .reset fun _ _ => trivial
  have hcount := hall.length_conserve (fun _ => Track.requestOut) Track.shownOut Track.waiting
    Track.lost fun t c _ => t.length_conserved c
  obtain ⟨hshows, hanswers⟩ := shows_track mem cs
  have hwait : (track cs).waiting.length = (after mem cs).intRvalidReg.toNat := by
    rw [hshows.1, Track.waiting]
    cases (track cs).rvalid <;> rfl
  have hstart : (.reset : Track g).waiting = [] := rfl
  rw [hstart, List.length_nil, Nat.zero_add] at hcount
  rw [requests_eq, hanswers, List.length_map, ← hwait]
  exact hcount

end Run

theorem along_noOverrun_iff (cs : List (Cycle g)) :
    Along Track.step NoOverrun .reset cs ↔ collect Track.step Track.lost .reset cs = [] := by
  rw [collect_eq_nil_iff]
  exact along_congr (P := fun _ => True) trivial (fun _ _ _ => trivial)
    (fun t c _ => t.noOverrun_iff c) cs

theorem along_held_iff (cs : List (Cycle g)) : Along Track.step Held .reset cs ↔
    collect Track.step Track.shownOut .reset cs = collect Track.step Track.askedOut .reset cs := by
  rw [collect_eq_collect_iff Track.length_shownOut]
  exact along_congr (P := fun _ => True) trivial (fun _ _ _ => trivial)
    (fun t c _ => t.held_iff c) cs

/-- Without overrun the requests are answered in turn. -/
theorem requests_eq_askedOut (mem : Bram g) {cs : List (Cycle g)}
    (h : Along Track.step NoOverrun .reset cs) : requests mem cs =
      collect Track.step Track.askedOut .reset cs ++ (track cs).waiting := by
  rw [requests_eq]
  exact h.conserve fun t c hc => t.conserved c ((t.noOverrun_iff c).mp hc)

/-- The core answers every request with its word if and only if none overruns the one before and
the address is the right one before every answer. -/
theorem readLaw_iff (cs : List (Cycle g)) :
    ReadLaw cs ↔ Along Track.step Keeps (.reset : Track g) cs := by
  have hboth : Along Track.step Keeps (.reset : Track g) cs ↔
      Along Track.step NoOverrun (.reset : Track g) cs ∧ Along Track.step Held .reset cs :=
    along_and
  rw [hboth]
  constructor
  case mp =>
    intro hlaw
    have hcount := count_requests (fun _ => 0) cs
    rw [hlaw.answered _ cs List.prefix_rfl] at hcount
    have hno := (along_noOverrun_iff cs).mpr (List.eq_nil_of_length_eq_zero (by omega))
    have := nontrivial_of_pos (w := g.dataWidth) (by have := g.byte; omega)
    refine ⟨hno, (along_held_iff cs).mpr ?_⟩
    have hlen := length_collect_congr Track.step Track.length_shownOut .reset cs
    refine List.ext_getElem hlen fun k hk hk' =>
      eq_of_forall_mem_eq (BitVec g.dataWidth) fun mem => ?_
    obtain ⟨a, ha, heq⟩ := hlaw.word mem k _ (by
      rw [(shows_track mem cs).2, List.getElem?_map, List.getElem?_eq_getElem hk]
      rfl)
    rw [requests_eq_askedOut mem hno, List.getElem?_append_left hk',
      List.getElem?_eq_getElem hk'] at ha
    rw [heq, Option.some.inj ha]
  case mpr =>
    rintro ⟨hno, hheld⟩
    refine ⟨fun mem js hjs => ?_, fun mem k x hx => ?_⟩
    · have hcount := count_requests mem js
      rw [(along_noOverrun_iff js).mp (hno.of_isPrefix hjs)] at hcount
      exact hcount
    · rw [(shows_track mem cs).2, (along_held_iff cs).mp hheld, List.getElem?_map] at hx
      obtain ⟨a, ha, rfl⟩ := Option.map_eq_some_iff.mp hx
      have hlt := (List.getElem?_eq_some_iff.mp ha).1
      exact ⟨a, by rwa [requests_eq_askedOut mem hno, List.getElem?_append_left hlt], rfl⟩

/-- The processor reads word 1 and takes its time with the answer, and the next address is on
the bus meanwhile. The answer is the word of that address. -/
theorem next_address_answered : ¬ReadLaw (g := .default)
    [⟨4, true, false⟩, ⟨8, false, false⟩, ⟨8, false, true⟩] := by
  intro hlaw
  obtain ⟨a, ha, heq⟩ := hlaw.word (fun a => a.setWidth 32) 0 2 (by decide)
  have hone : a = 1 := Option.some.inj (ha.symm.trans (by decide))
  have hword : (2 : BitVec 32) = a.setWidth 32 := heq
  rw [hone] at hword
  exact absurd hword (by decide)

end LagoEcosystem.AxiBramReader
