import LagoEcosystem.CfgRegister.Answers
import Mathlib.Data.BitVec

/-!
# The stream reader of the processor

`axi_axis_reader`, through which the processor reads a stream, a word with each read and zero
when there is none. The word is latched when the request is accepted, and the stream moves on
when the answer is taken. Between the two a word may come in that the request has not found,
and a request accepted together with an answer finds the word that is just being taken.

The core declares the ports of the write channels and drives none of them, and it reads no
address.
-/

namespace LagoEcosystem.AxiAxisReader

open BitFields Clocked
open CfgRegister (flagNext)

/-- The input ports; `D` is `AXI_DATA_WIDTH`. -/
structure In (D : ℕ) where
  aresetn : Bool
  sAxiArvalid : Bool
  sAxiRready : Bool
  sAxisTdata : BitVec D
  sAxisTvalid : Bool

structure St (D : ℕ) where
  intRvalidReg : Bool
  intRdataReg : BitVec D

/-- The output ports. -/
structure Out (D : ℕ) where
  sAxiArready : Bool
  sAxiRdata : BitVec D
  sAxiRresp : BitVec 2
  sAxiRvalid : Bool
  sAxisTready : Bool

variable {D : ℕ}

def St.intRvalidNext (s : St D) (i : In D) : Bool :=
  if i.sAxiArvalid then true
  else if i.sAxiRready && s.intRvalidReg then false
  else s.intRvalidReg

def St.intRdataNext (s : St D) (i : In D) : BitVec D :=
  if i.sAxiArvalid && i.sAxisTvalid then i.sAxisTdata
  else if i.sAxiArvalid && !i.sAxisTvalid then 0
  else s.intRdataReg

def St.out (s : St D) (i : In D) : Out D where
  sAxiArready := true
  sAxiRdata := s.intRdataReg
  sAxiRresp := 0
  sAxiRvalid := s.intRvalidReg
  sAxisTready := i.sAxiRready && s.intRvalidReg

/-- The registers after a clock edge with `aresetn` low. -/
def St.reset : St D := ⟨false, 0⟩

def step (s : St D) (i : In D) : St D :=
  if i.aresetn then ⟨s.intRvalidNext i, s.intRdataNext i⟩ else .reset

theorem step_reset (s : St D) {i : In D} (h : i.aresetn = false) : step s i = .reset := by
  simp [step, h]

/-- The core reads the data of the stream with its `tvalid` only. -/
theorem step_sAxisTdata (s : St D) {i : In D} (h : i.sAxisTvalid = false) (x : BitVec D) :
    step s { i with sAxisTdata := x } = step s i := by
  simp [step, St.intRvalidNext, St.intRdataNext, h]

/-! ## The core between a master and a stream -/

/-- What the neighbours do in a cycle outside the reset. The source may `offer` its next word;
a word on offer stays there until it is taken. -/
structure Cycle where
  arvalid : Bool
  rready : Bool
  offer : Bool

/-- The core and the stream: whether a word is left on offer, the number of words taken, and
whether the last request has found a word. -/
structure Loop (D : ℕ) where
  core : St D
  offering : Bool
  popped : ℕ
  found : Bool

def Loop.reset : Loop D := ⟨.reset, false, 0, false⟩

section Loop

variable (words : ℕ → BitVec D) (l : Loop D) (c : Cycle)

def Loop.tvalid : Bool := l.offering || c.offer

def Loop.toIn : In D := ⟨true, c.arvalid, c.rready, words l.popped, l.tvalid c⟩

/-- The stream transfers a word. -/
def Loop.pops : Bool := (l.core.out (l.toIn words c)).sAxisTready && l.tvalid c

def Loop.step : Loop D where
  core := AxiAxisReader.step l.core (l.toIn words c)
  offering := l.tvalid c && !l.pops words c
  popped := l.popped + (l.pops words c).toNat
  found := if c.arvalid then l.tvalid c else l.found

/-- The word taken from the stream in a cycle. -/
def takenOut : List (BitVec D) := if l.pops words c then [words l.popped] else []

/-- The word handed over on the read data channel in a cycle, and whether its request has found
one. -/
def answerOut : List (BitVec D × Bool) :=
  if (l.core.out (l.toIn words c)).sAxiRvalid && c.rready then
    [((l.core.out (l.toIn words c)).sAxiRdata, l.found)]
  else []

/-- The word that a request has found and that waits to be handed over. -/
def Loop.waiting : List (BitVec D) :=
  if l.core.intRvalidReg && l.found then [l.core.intRdataReg] else []

end Loop

section Run

variable (words : ℕ → BitVec D) (cs : List Cycle)

def after : Loop D := run (Loop.step words) .reset cs
def taken : List (BitVec D) := collect (Loop.step words) (takenOut words) .reset cs
def answers : List (BitVec D × Bool) := collect (Loop.step words) (answerOut words) .reset cs

/-- The words of the answers to the requests that have found one. -/
def delivered : List (BitVec D) := ((answers words cs).filter Prod.snd).map Prod.fst

end Run

/-- Whatever the words are, the ones delivered are words taken from the stream, in order and
none twice, every word taken is delivered or waits to be, and the other answers are zero. -/
structure StreamLaw (D : ℕ) (cs : List Cycle) : Prop where
  inOrder : ∀ (words : ℕ → BitVec D) js, js <+: cs → delivered words js <+: taken words js
  noneLost : ∀ (words : ℕ → BitVec D) js, js <+: cs →
    taken words js <+: delivered words js ++ (after words js).waiting
  others : ∀ (words : ℕ → BitVec D), ∀ a ∈ answers words cs, a.2 = false → a.1 = 0

/-! ## The numbers of the words -/

/-- The loop with the number of the word that the last request has found. A word is `owed` if
it was taken in a cycle with an answer that does not carry it. -/
structure Track where
  rvalid : Bool
  asked : Option ℕ
  offering : Bool
  popped : ℕ
  owed : Bool

namespace Track

def reset : Track := ⟨false, none, false, 0, false⟩

variable (t : Track) (c : Cycle)

def tvalid : Bool := t.offering || c.offer

/-- An answer is taken. -/
def answered : Bool := t.rvalid && c.rready

def step : Track where
  rvalid := flagNext t.rvalid c.arvalid c.rready
  asked := if c.arvalid then if t.tvalid c then some t.popped else none else t.asked
  offering := t.tvalid c && !(t.answered c && t.tvalid c)
  popped := t.popped + (t.answered c && t.tvalid c).toNat
  owed := if t.answered c then t.tvalid c && decide (t.asked ≠ some t.popped) else t.owed

def takenOut : List ℕ := if t.answered c && t.tvalid c then [t.popped] else []
def answerOut : List (Option ℕ) := if t.answered c then [t.asked] else []
def deliveredOut : List ℕ := if t.answered c then t.asked.toList else []
def waiting : List ℕ := if t.rvalid then t.asked.toList else []

/-- The loop that is tracked. -/
def toLoop (words : ℕ → BitVec D) : Loop D :=
  ⟨⟨t.rvalid, t.asked.elim 0 words⟩, t.offering, t.popped, t.asked.isSome⟩

end Track

/-- The condition on a cycle. A word that was taken by an answer to a request that had not found
it is latched in the same cycle and not latched over, and a word that was handed over is not
handed over again. -/
structure Keeps (t : Track) (c : Cycle) : Prop where
  latched : t.answered c = true → t.tvalid c = true → t.asked ≠ some t.popped → c.arvalid = true
  kept : t.answered c = false → t.owed = true → c.arvalid = false
  once : t.answered c = true → t.owed = false → ∀ k, t.asked = some k → k = t.popped

/-! ## The loop and its track -/

section Loop

variable (words : ℕ → BitVec D) (t : Track) (c : Cycle)

theorem pops_toLoop : (t.toLoop words).pops words c = (t.answered c && t.tvalid c) := by
  show (c.rready && t.rvalid && t.tvalid c) = _
  rw [Bool.and_comm c.rready]
  rfl

theorem step_toLoop : (t.toLoop words).step words c = (t.step c).toLoop words := by
  have hcore : step (t.toLoop words).core ((t.toLoop words).toIn words c) =
      ((t.step c).toLoop words).core := by
    show (⟨flagNext t.rvalid c.arvalid c.rready, _⟩ : St D) = ⟨_, _⟩
    cases ha : c.arvalid <;> cases hv : t.tvalid c <;>
      simp_all [St.intRdataNext, Loop.toIn, Loop.tvalid, Track.toLoop, Track.step, Track.tvalid]
  have hfound : (if c.arvalid then t.tvalid c else t.asked.isSome) = (t.step c).asked.isSome := by
    cases ha : c.arvalid <;> cases hv : t.tvalid c <;> simp [Track.step, ha, hv]
  show (⟨_, _, _, if c.arvalid then t.tvalid c else t.asked.isSome⟩ : Loop D) = _
  rw [hcore, hfound, pops_toLoop]
  rfl

theorem waiting_toLoop : (t.toLoop words).waiting = t.waiting.map words := by
  show (if t.rvalid && t.asked.isSome then [t.asked.elim 0 words] else []) = _
  rw [Track.waiting]
  cases t.rvalid <;> cases t.asked <;> rfl

/-- `t` is the track of the loop. -/
def Tracks (l : Loop D) (t : Track) : Prop := l = t.toLoop words

variable {words t} {l : Loop D}

theorem Tracks.step (h : Tracks words l t) : Tracks words (l.step words c) (t.step c) := by
  rw [Tracks, show l = t.toLoop words from h, step_toLoop]

theorem Tracks.takenOut_eq (h : Tracks words l t) :
    takenOut words l c = (t.takenOut c).map words := by
  rw [show l = t.toLoop words from h, takenOut, pops_toLoop, Track.takenOut]
  split_ifs <;> rfl

theorem Tracks.answerOut_eq (h : Tracks words l t) : answerOut words l c =
    (t.answerOut c).map fun a => (a.elim 0 words, a.isSome) := by
  rw [show l = t.toLoop words from h]
  show (if t.rvalid && c.rready then [(t.asked.elim 0 words, t.asked.isSome)] else []) = _
  rw [Track.answerOut, Track.answered]
  split_ifs <;> rfl

end Loop

section Run

variable (words : ℕ → BitVec D) (cs : List Cycle)

/-- The track after a run. -/
def track : Track := run Track.step .reset cs

/-- The numbers of the words delivered in a run. -/
def numbers : List ℕ := collect Track.step Track.deliveredOut .reset cs

theorem tracks_track : Tracks words (after words cs) (track cs) ∧
    taken words cs = (collect Track.step Track.takenOut .reset cs).map words := by
  have hreset : Tracks words .reset .reset := rfl
  have hsim := simulate id words (fun _ _ c h => h.step c) (fun _ _ c h => h.takenOut_eq c)
    hreset cs
  rwa [List.map_id] at hsim

theorem answers_eq : answers words cs =
    (collect Track.step Track.answerOut .reset cs).map fun a => (a.elim 0 words, a.isSome) := by
  have hreset : Tracks words .reset .reset := rfl
  have hsim := simulate id _ (fun _ _ c h => h.step c) (fun _ _ c h => h.answerOut_eq c) hreset cs
  rw [List.map_id] at hsim
  exact hsim.2

/-- The delivered words are those of the answers that carry one. -/
theorem delivered_eq : delivered words cs = (numbers cs).map words := by
  have hnumbers : ∀ (cs : List Cycle) (t : Track), collect Track.step Track.deliveredOut t cs =
      (collect Track.step Track.answerOut t cs).filterMap id := by
    intro cs
    induction cs with
    | nil => exact fun t => rfl
    | cons c cs ih =>
      intro t
      rw [collect_cons, collect_cons, ih, List.filterMap_append, Track.deliveredOut,
        Track.answerOut]
      cases t.answered c <;> cases t.asked <;> rfl
  rw [delivered, answers_eq, numbers, hnumbers]
  induction collect Track.step Track.answerOut .reset cs with
  | nil => rfl
  | cons a as ih =>
    cases a with
    | none => simpa using ih
    | some k => simpa using ih

theorem track_snoc (c : Cycle) : track (cs ++ [c]) = (track cs).step c := by simp [track]

theorem taken_eq : taken words cs = (List.range (track cs).popped).map words := by
  rw [(tracks_track words cs).2]
  congr 1
  induction cs using List.reverseRecOn with
  | nil => rfl
  | append_singleton cs c ih =>
    have hpopped : (track (cs ++ [c])).popped = (track cs).popped +
        ((track cs).answered c && (track cs).tvalid c).toNat := by
      rw [track_snoc]
      rfl
    rw [collect_append, ih, collect_cons, collect_nil, List.append_nil, hpopped,
      Track.takenOut, ← track]
    cases (track cs).answered c && (track cs).tvalid c with
    | false => exact List.append_nil _
    | true => exact List.range_succ.symm

end Run

/-! ## The law for the numbers -/

/-- The law for a track on which the words of `ns` were delivered. -/
def Lawful (t : Track) (ns : List ℕ) : Prop :=
  ns <+: List.range t.popped ∧ List.range t.popped <+: ns ++ t.waiting

/-- A track on which the condition was met. -/
structure Inv (t : Track) (ns : List ℕ) : Prop where
  asked : t.rvalid = true → ∀ k, t.asked = some k →
    (k = t.popped ∧ t.offering = true) ∨ k + 1 = t.popped
  clear : t.owed = false → ns = List.range t.popped
  owes : t.owed = true → t.rvalid = true ∧
    ∃ k, t.asked = some k ∧ t.popped = k + 1 ∧ ns = List.range k

theorem lawful_of_clear {t : Track} {ns : List ℕ} (h : ns = List.range t.popped) :
    Lawful t ns := by
  rw [h]
  exact ⟨List.prefix_rfl, List.prefix_append _ _⟩

/-- With one word taken that is not delivered, that word has to wait. -/
theorem lawful_iff_waiting {t : Track} {k : ℕ} (h : t.popped = k + 1) :
    Lawful t (List.range k) ↔ [k] <+: t.waiting := by
  rw [Lawful, h, List.range_succ, List.prefix_append_right_inj]
  exact and_iff_right (List.prefix_append _ _)

section Edge

variable {t : Track} {ns : List ℕ} {c : Cycle}

theorem step_of_arvalid (hc : c.arvalid = true) :
    (t.step c).rvalid = true ∧
      (t.step c).asked = if t.tvalid c then some t.popped else none := by
  simp [Track.step, CfgRegister.flagNext, hc]

theorem waiting_of_arvalid (hc : c.arvalid = true) :
    (t.step c).waiting = if t.tvalid c then [t.popped] else [] := by
  obtain ⟨hv, ha⟩ := step_of_arvalid (t := t) hc
  rw [Track.waiting, hv, ha]
  cases t.tvalid c <;> rfl

/-- Without a request the flag stays until an answer is taken, and the number stays. -/
theorem step_of_not_arvalid (hc : c.arvalid = false) :
    (t.step c).rvalid = (t.rvalid && !t.answered c) ∧ (t.step c).asked = t.asked := by
  cases hv : t.rvalid <;> cases hr : c.rready <;>
    simp [Track.step, CfgRegister.flagNext, Track.answered, hc, hv, hr]

/-- A request finds the word that is on offer, or the one that is just being taken. -/
theorem Inv.asked_step (h : Inv t ns) (c : Cycle) (hv : (t.step c).rvalid = true) (k : ℕ)
    (hk : (t.step c).asked = some k) : (k = (t.step c).popped ∧ (t.step c).offering = true) ∨
      k + 1 = (t.step c).popped := by
  cases hc : c.arvalid with
  | true =>
    rw [(step_of_arvalid hc).2] at hk
    cases hoffer : t.tvalid c with
    | false => simp [hoffer] at hk
    | true =>
      obtain rfl : t.popped = k := by simpa [hoffer] using hk
      cases hans : t.answered c <;> simp [Track.step, hoffer, hans]
  | false =>
    obtain ⟨hflag, hasked⟩ := step_of_not_arvalid (t := t) hc
    rw [hflag, Bool.and_eq_true_iff] at hv
    have hans : t.answered c = false := by simpa using hv.2
    rw [hasked] at hk
    rcases h.asked hv.1 k hk with ⟨rfl, hoffer⟩ | hnext
    · simp [Track.step, Track.tvalid, hans, hoffer]
    · simp [Track.step, hans, hnext]

end Edge

/-- A cycle in which no answer is taken. -/
theorem Inv.wait {t : Track} {ns : List ℕ} (h : Inv t ns) {c : Cycle}
    (hc : t.answered c = false) :
    (Lawful (t.step c) (ns ++ t.deliveredOut c) ↔ Keeps t c) ∧
      (Keeps t c → Inv (t.step c) (ns ++ t.deliveredOut c)) := by
  have hnone : ns ++ t.deliveredOut c = ns := by simp [Track.deliveredOut, hc]
  have hpopped : (t.step c).popped = t.popped := by simp [Track.step, hc]
  have howed : (t.step c).owed = t.owed := by simp [Track.step, hc]
  rw [hnone]
  cases ho : t.owed with
  | false =>
    have hclear : ns = List.range (t.step c).popped := by rw [hpopped, h.clear ho]
    have hkeeps : Keeps t c := ⟨by simp [hc], by simp [ho], by simp [hc]⟩
    exact ⟨iff_of_true (lawful_of_clear hclear) hkeeps,
      fun _ => ⟨h.asked_step c, fun _ => hclear, by simp [howed, ho]⟩⟩
  | true =>
    obtain ⟨hv, k, hk, hp, rfl⟩ := h.owes ho
    rw [lawful_iff_waiting (hpopped.trans hp)]
    cases ha : c.arvalid with
    | false =>
      obtain ⟨hflag, hasked⟩ := step_of_not_arvalid (t := t) ha
      have hv' : (t.step c).rvalid = true := by simp [hflag, hv, hc]
      have hkeeps : Keeps t c := ⟨by simp [hc], fun _ _ => ha, by simp [hc]⟩
      refine ⟨iff_of_true ?_ hkeeps, fun _ => ⟨h.asked_step c, by simp [howed, ho], fun _ =>
        ⟨hv', k, hasked.trans hk, hpopped.trans hp, rfl⟩⟩⟩
      rw [Track.waiting, hv', hasked, hk]
      exact List.prefix_rfl
    | true =>
      have hkeeps : ¬Keeps t c := fun hkeeps => by simpa [ha] using hkeeps.kept hc ho
      refine ⟨iff_of_false ?_ hkeeps, fun h => absurd h hkeeps⟩
      rw [waiting_of_arvalid ha, hp]
      cases t.tvalid c <;> simp

section Answer

variable {t : Track} {ns : List ℕ} {c : Cycle}

theorem step_of_answered (hc : t.answered c = true) :
    (t.step c).popped = t.popped + (t.tvalid c).toNat ∧
      (t.step c).owed = (t.tvalid c && decide (t.asked ≠ some t.popped)) ∧
      t.deliveredOut c = t.asked.toList := by
  simp [Track.step, Track.deliveredOut, hc]

/-- The answer does not carry the word that is on offer, and all words taken before are
delivered with it. A word that is on offer has to be latched. -/
theorem Inv.answer_other (h : Inv t ns) (hc : t.answered c = true)
    (hns : ns ++ t.asked.toList = List.range t.popped) (hother : t.asked ≠ some t.popped)
    (honce : t.owed = false → ∀ k, t.asked = some k → k = t.popped) :
    (Lawful (t.step c) (ns ++ t.deliveredOut c) ↔ Keeps t c) ∧
      (Keeps t c → Inv (t.step c) (ns ++ t.deliveredOut c)) := by
  obtain ⟨hpopped, howed, hdelivered⟩ := step_of_answered hc
  rw [hdelivered, hns]
  cases hoffer : t.tvalid c with
  | false =>
    rw [hoffer, Bool.toNat_false, Nat.add_zero] at hpopped
    rw [hoffer, Bool.false_and] at howed
    have hkeeps : Keeps t c := ⟨by simp [hoffer], by simp [hc], fun _ => honce⟩
    exact ⟨iff_of_true (lawful_of_clear (by rw [hpopped])) hkeeps,
      fun _ => ⟨h.asked_step c, fun _ => by rw [hpopped], by simp [howed]⟩⟩
  | true =>
    rw [hoffer, Bool.toNat_true] at hpopped
    rw [hoffer, Bool.true_and, decide_eq_true hother] at howed
    rw [lawful_iff_waiting hpopped]
    cases ha : c.arvalid with
    | true =>
      obtain ⟨hv, hasked⟩ := step_of_arvalid (t := t) ha
      rw [if_pos hoffer] at hasked
      have hkeeps : Keeps t c := ⟨fun _ _ _ => ha, by simp [hc], fun _ => honce⟩
      refine ⟨iff_of_true ?_ hkeeps, fun _ => ⟨h.asked_step c, by simp [howed], fun _ =>
        ⟨hv, _, hasked, hpopped, rfl⟩⟩⟩
      rw [waiting_of_arvalid ha, if_pos hoffer]
    | false =>
      have hkeeps : ¬Keeps t c := fun hkeeps => by
        simpa [ha] using hkeeps.latched hc hoffer hother
      refine ⟨iff_of_false ?_ hkeeps, fun h => absurd h hkeeps⟩
      rw [Track.waiting, (step_of_not_arvalid ha).1, hc]
      simp

/-- The answer carries the word that is on offer and taken with it. -/
theorem Inv.answer_offered (h : Inv t ns) (hc : t.answered c = true) (ho : t.owed = false)
    (hasked : t.asked = some t.popped) (hoffer : t.offering = true) :
    (Lawful (t.step c) (ns ++ t.deliveredOut c) ↔ Keeps t c) ∧
      (Keeps t c → Inv (t.step c) (ns ++ t.deliveredOut c)) := by
  obtain ⟨hpopped, howed, hdelivered⟩ := step_of_answered hc
  have htvalid : t.tvalid c = true := by simp [Track.tvalid, hoffer]
  rw [htvalid, Bool.toNat_true] at hpopped
  rw [htvalid, hasked] at howed
  have hclear : ns ++ t.deliveredOut c = List.range (t.step c).popped := by
    rw [hdelivered, hasked, h.clear ho, hpopped, List.range_succ]
    rfl
  have hkeeps : Keeps t c := by
    refine ⟨fun _ _ hne => absurd hasked hne, by simp [hc], fun _ _ k hk => ?_⟩
    exact Option.some.inj (hk.symm.trans hasked)
  exact ⟨iff_of_true (lawful_of_clear hclear) hkeeps,
    fun _ => ⟨h.asked_step c, fun _ => hclear, by simp [howed]⟩⟩

/-- The answer carries a word that was delivered before. -/
theorem Inv.answer_again (h : Inv t ns) (hc : t.answered c = true) (ho : t.owed = false) {k : ℕ}
    (hasked : t.asked = some k) (hk : k + 1 = t.popped) :
    ¬Lawful (t.step c) (ns ++ t.deliveredOut c) ∧ ¬Keeps t c := by
  obtain ⟨hpopped, -, hdelivered⟩ := step_of_answered hc
  constructor
  · rintro ⟨hstart, -⟩
    rw [hdelivered, hasked, h.clear ho, hpopped] at hstart
    cases hoffer : t.tvalid c with
    | false =>
      have hlen := hstart.length_le
      simp [hoffer] at hlen
    | true =>
      rw [hoffer, Bool.toNat_true, List.range_succ, List.prefix_append_right_inj] at hstart
      have heq : k = t.popped := by simpa using hstart
      omega
  · intro hkeeps
    have heq := hkeeps.once hc ho k hasked
    omega

/-- A cycle in which an answer is taken. -/
theorem Inv.answer (h : Inv t ns) (hc : t.answered c = true) :
    (Lawful (t.step c) (ns ++ t.deliveredOut c) ↔ Keeps t c) ∧
      (Keeps t c → Inv (t.step c) (ns ++ t.deliveredOut c)) := by
  have hv : t.rvalid = true := (Bool.and_eq_true_iff.mp hc).1
  cases ho : t.owed with
  | true =>
    obtain ⟨-, k, hk, hp, rfl⟩ := h.owes ho
    refine h.answer_other hc ?_ ?_ (by simp [ho])
    · rw [hk, hp, List.range_succ]
      rfl
    · rw [hk, hp]
      simp
  | false =>
    cases hasked : t.asked with
    | none =>
      refine h.answer_other hc ?_ (by simp [hasked]) (by simp [hasked])
      rw [hasked, h.clear ho]
      exact List.append_nil _
    | some k =>
      rcases h.asked hv k hasked with ⟨rfl, hoffer⟩ | hk
      · exact h.answer_offered hc ho hasked hoffer
      · obtain ⟨hlaw, hkeeps⟩ := h.answer_again hc ho hasked hk
        exact ⟨iff_of_false hlaw hkeeps, fun hkeeps' => absurd hkeeps' hkeeps⟩

end Answer

/-! ## Runs -/

theorem Inv.lawful {t : Track} {ns : List ℕ} (h : Inv t ns) : Lawful t ns := by
  cases ho : t.owed with
  | false => exact lawful_of_clear (h.clear ho)
  | true =>
    obtain ⟨hv, k, hk, hp, rfl⟩ := h.owes ho
    rw [lawful_iff_waiting hp, Track.waiting, hv, hk]
    exact List.prefix_rfl

theorem Inv.edge {t : Track} {ns : List ℕ} (h : Inv t ns) (c : Cycle) :
    (Lawful (t.step c) (ns ++ t.deliveredOut c) ↔ Keeps t c) ∧
      (Keeps t c → Inv (t.step c) (ns ++ t.deliveredOut c)) := by
  cases hc : t.answered c with
  | false => exact h.wait hc
  | true => exact h.answer hc

/-- The law holds as long as the condition is met, and no longer. -/
theorem Inv.lawful_iff {t : Track} {ns : List ℕ} (h : Inv t ns) (cs : List Cycle) :
    (∀ js, js <+: cs → Lawful (run Track.step t js)
      (ns ++ collect Track.step Track.deliveredOut t js)) ↔ Along Track.step Keeps t cs := by
  induction cs generalizing t ns with
  | nil =>
    refine iff_of_true (fun js hjs => ?_) trivial
    rw [List.prefix_nil.mp hjs, collect_nil, List.append_nil]
    exact h.lawful
  | cons c cs ih =>
    obtain ⟨hiff, hnext⟩ := h.edge c
    rw [along_cons]
    constructor
    case mp =>
      intro hall
      have hkeeps : Keeps t c := by
        have hone := hall [c] (List.prefix_append [c] cs)
        rw [collect_cons, collect_nil, List.append_nil] at hone
        exact hiff.mp hone
      refine ⟨hkeeps, (ih (hnext hkeeps)).mp fun js hjs => ?_⟩
      have hmore := hall (c :: js) (List.cons_prefix_cons.mpr ⟨rfl, hjs⟩)
      rwa [collect_cons, ← List.append_assoc] at hmore
    case mpr =>
      rintro ⟨hkeeps, hrest⟩ js hjs
      cases js with
      | nil =>
        rw [collect_nil, List.append_nil]
        exact h.lawful
      | cons d js =>
        obtain ⟨rfl, hjs'⟩ := List.cons_prefix_cons.mp hjs
        rw [collect_cons, ← List.append_assoc]
        exact (ih (hnext hkeeps)).mpr hrest js hjs'

theorem inv_reset : Inv .reset [] :=
  ⟨fun h => Bool.noConfusion h, fun _ => rfl, fun h => Bool.noConfusion h⟩

/-- The core delivers the words of the stream if and only if the condition is met in every
cycle. -/
theorem streamLaw_iff (D : ℕ) (hD : 1 ≤ D) (cs : List Cycle) :
    StreamLaw D cs ↔ Along Track.step Keeps .reset cs := by
  have := nontrivial_of_pos hD
  have hwaiting : ∀ (words : ℕ → BitVec D) js,
      (after words js).waiting = (track js).waiting.map words := by
    intro words js
    rw [show after words js = (track js).toLoop words from (tracks_track words js).1,
      waiting_toLoop]
  rw [← inv_reset.lawful_iff cs]
  constructor
  case mp =>
    intro hlaw js hjs
    refine ⟨prefix_of_forall_map (BitVec D) fun words => ?_,
      prefix_of_forall_map (BitVec D) fun words => ?_⟩
    · have hdelivered := hlaw.inOrder words js hjs
      rwa [delivered_eq, taken_eq] at hdelivered
    · have htaken := hlaw.noneLost words js hjs
      rwa [delivered_eq, taken_eq, hwaiting, ← List.map_append] at htaken
  case mpr =>
    intro hlaw
    refine ⟨fun words js hjs => ?_, fun words js hjs => ?_, fun words a ha hnone => ?_⟩
    · rw [delivered_eq, taken_eq]
      exact (hlaw js hjs).1.map words
    · rw [delivered_eq, taken_eq, hwaiting, ← List.map_append]
      exact (hlaw js hjs).2.map words
    · rw [answers_eq] at ha
      obtain ⟨o, -, rfl⟩ := List.mem_map.mp ha
      cases o with
      | none => rfl
      | some k => exact Bool.noConfusion hnone

/-- A read that finds a word and one that finds none. -/
theorem streamLaw_iff_reads :
    StreamLaw 8 [⟨true, false, true⟩, ⟨false, true, false⟩, ⟨true, false, false⟩,
        ⟨false, true, false⟩] ↔
      Along Track.step Keeps .reset [⟨true, false, true⟩, ⟨false, true, false⟩,
        ⟨true, false, false⟩, ⟨false, true, false⟩] :=
  streamLaw_iff 8 (by decide) _

/-- A read that finds no word, and a word that comes before the answer is taken: the answer is
zero and the word is gone. -/
theorem word_lost :
    ¬StreamLaw 8 [⟨true, false, false⟩, ⟨false, true, true⟩, ⟨false, true, false⟩] := by
  intro hlaw
  have hlost := hlaw.noneLost (fun _ => 5) _ List.prefix_rfl
  exact absurd hlost (by decide)

end LagoEcosystem.AxiAxisReader
