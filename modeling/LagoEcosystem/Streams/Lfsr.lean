import LagoEcosystem.Library.Clocked
import LagoEcosystem.Library.Feedback

/-!
# The pseudo-random generator

`axis_lfsr`, a shift register with the inverted exclusive or of two of its bits as the new
lowest bit. The top bit is not part of the feedback: the other bits, `low`, are a feedback
register of their own, and the top bit only remembers which one left it last.
-/

namespace LagoEcosystem.AxisLfsr

open Clocked Feedback

/-- The generics of the core. A narrower register would have no bit `AXIS_TDATA_WIDTH-3`,
which the source reads. -/
structure Generics where
  hasTready : Bool
  axisTdataWidth : ℕ
  three_le : 3 ≤ axisTdataWidth

/-- The default values of the source. -/
def Generics.default : Generics := ⟨false, 64, by decide⟩

/-- The input ports. -/
structure In where
  aresetn : Bool
  mAxisTready : Bool

/-- A word of the stream. -/
abbrev Word (g : Generics) := BitVec g.axisTdataWidth

structure St (g : Generics) where
  intLfsrReg : Word g
  intEnblReg : Bool

/-- The output ports. -/
structure Out (g : Generics) where
  mAxisTvalid : Bool
  mAxisTdata : Word g

variable {g : Generics}

theorem Generics.width_eq (g : Generics) : g.axisTdataWidth - 1 + 1 = g.axisTdataWidth :=
  Nat.sub_add_cancel (Nat.le_of_lt (Nat.lt_of_lt_of_le (by decide) g.three_le))

def tmpSig (x : Word g) : Bool :=
  !(x.getLsbD (g.axisTdataWidth - 2) ^^ x.getLsbD (g.axisTdataWidth - 3))

/-- The slice `AXIS_TDATA_WIDTH-2 downto 0`. -/
def low (x : Word g) : BitVec (g.axisTdataWidth - 1) := x.extractLsb' 0 (g.axisTdataWidth - 1)

/-- The slice with `tmp_sig` behind it. -/
def shifted (x : Word g) : Word g := ((low x).concat (tmpSig x)).cast g.width_eq

def St.intLfsrNext (s : St g) (i : In) : Word g :=
  if g.hasTready then
    if s.intEnblReg && i.mAxisTready then shifted s.intLfsrReg else s.intLfsrReg
  else
    if s.intEnblReg then shifted s.intLfsrReg else s.intLfsrReg

def St.intEnblNext (s : St g) : Bool := if !s.intEnblReg then true else s.intEnblReg

/-- The value of the register after a reset. -/
def seed (g : Generics) : Word g := BitVec.ofNat _ 5

/-- The registers after a clock edge with `aresetn` low. -/
def St.reset : St g := ⟨seed g, false⟩

def step (s : St g) (i : In) : St g :=
  if i.aresetn then ⟨s.intLfsrNext i, s.intEnblNext⟩ else .reset

def St.out (s : St g) : Out g := ⟨s.intEnblReg, s.intLfsrReg⟩

/-- The word handed over in a cycle. Without `HAS_TREADY` the receiver takes all of them. -/
def transferred (s : St g) (i : In) : List (Word g) :=
  if s.out.mAxisTvalid && (i.mAxisTready || !g.hasTready) then [s.out.mAxisTdata] else []

/-- A cycle outside the reset. -/
def In.running (tready : Bool) : In := ⟨true, tready⟩

/-! ## The law -/

section Law

variable (g) (rs : List Bool)

/-- The registers after a run. -/
def after : St g := run step .reset (rs.map In.running)

/-- The words handed over in a run. -/
def given : List (Word g) := collect step transferred .reset (rs.map In.running)

/-- The word number `k`, counted from zero. -/
def word (k : ℕ) : Word g := shifted^[k] (seed g)

/-- The generator never stops: the low bits of a word decide those of the next one and can be
told from them, all ones, which would stay, are not reached, and the words repeat. -/
structure LfsrLaw : Prop where
  stays_iff : ∀ x : Word g, low (shifted x) = low x ↔ low x = BitVec.allOnes _
  /-- In every run, the resets in between included. -/
  never : ∀ is, low (run step (.reset : St g) is).intLfsrReg ≠ BitVec.allOnes _
  moves : ∀ is, shifted (run step (.reset : St g) is).intLfsrReg ≠ (run step .reset is).intLfsrReg
  successor : ∀ x y : Word g, low (shifted x) = low (shifted y) ↔ low x = low y
  /-- An enabled cycle with a ready receiver takes the register to its successor. -/
  update : ∀ (s : St g) (i : In), i.aresetn = true → s.intEnblReg = true →
    (i.mAxisTready || !g.hasTready) = true → (step s i).intLfsrReg = shifted s.intLfsrReg
  enabled : ∀ rs, rs ≠ [] → (after g rs).intEnblReg = true
  /-- A transfer is an update, so that stalls neither skip nor repeat a word. -/
  words : ∀ rs, given g rs = (List.range (given g rs).length).map (word g)
  register : ∀ rs, (after g rs).intLfsrReg = word g (given g rs).length
  periodic : ∃ p, 0 < p ∧ ∀ k, low (word g (k + p)) = low (word g k)

end Law

/-! ## The low bits are a feedback register -/

section Low

variable {x y : Word g} {i : ℕ}

/-- The feedback, on the low bits. -/
def feedback (v : BitVec (g.axisTdataWidth - 1)) : Bool :=
  !(v.getLsbD (g.axisTdataWidth - 2) ^^ v.getLsbD (g.axisTdataWidth - 3))

theorem getLsbD_low (hi : i < g.axisTdataWidth - 1) : (low x).getLsbD i = x.getLsbD i := by
  simp [low, hi]

theorem feedback_low (x : Word g) : feedback (low x) = tmpSig x := by
  have hthree := g.three_le
  rw [feedback, getLsbD_low (by omega), getLsbD_low (by omega), tmpSig]

theorem low_shifted (x : Word g) : low (shifted x) = feed feedback (low x) := by
  apply BitVec.eq_of_getLsbD_eq
  intro i hi
  rw [getLsbD_low hi, shifted, BitVec.getLsbD_cast, BitVec.getLsbD_concat]
  cases i with
  | zero => rw [getLsbD_feed_zero hi, feedback_low, if_pos rfl]
  | succ i => rw [getLsbD_feed_succ hi, if_neg (Nat.succ_ne_zero i), Nat.add_sub_cancel]

/-- The lower bit of the feedback stays in the register, so the upper one is not lost. -/
theorem heedsTop_feedback : HeedsTop (feedback (g := g)) := by
  intro v u hbelow hback
  have hthree := g.three_le
  have hlower := hbelow (g.axisTdataWidth - 3) (by omega)
  have hupper : v.getLsbD (g.axisTdataWidth - 2) = u.getLsbD (g.axisTdataWidth - 2) := by
    rw [feedback, feedback, hlower] at hback
    exact Bool.xor_left_inj.mp (Bool.not_inj hback)
  apply BitVec.eq_of_getLsbD_eq
  intro i hi
  by_cases htop : i = g.axisTdataWidth - 2
  case pos => rw [htop, hupper]
  case neg => exact hbelow i (by omega)

theorem feed_feedback_eq_self_iff (v : BitVec (g.axisTdataWidth - 1)) :
    feed feedback v = v ↔ v = BitVec.allOnes _ := by
  have hthree := g.three_le
  rw [feed_eq_self_iff]
  constructor
  case mp =>
    intro h
    have hone : feedback v = true := by
      rw [feedback, h _ (by omega), h _ (by omega), Bool.xor_self]
      rfl
    apply BitVec.eq_of_getLsbD_eq
    intro i hi
    rw [h i hi, hone, BitVec.getLsbD_allOnes, decide_eq_true hi]
  case mpr =>
    rintro rfl i hi
    have hupper : g.axisTdataWidth - 2 < g.axisTdataWidth - 1 := by omega
    have hlower : g.axisTdataWidth - 3 < g.axisTdataWidth - 1 := by omega
    simp [feedback, hi, hupper, hlower]

theorem low_shifted_inj : low (shifted x) = low (shifted y) ↔ low x = low y := by
  rw [low_shifted, low_shifted]
  exact (feed_injective heedsTop_feedback).eq_iff

theorem low_word (g : Generics) (k : ℕ) : low (word g k) = (feed feedback)^[k] (low (seed g)) :=
  (Function.Semiconj.iterate_right (f := low) low_shifted k) (seed g)

/-- The bit of weight two is clear in the seed. -/
theorem low_seed_ne (g : Generics) : low (seed g) ≠ BitVec.allOnes _ := by
  intro h
  have hthree := g.three_le
  have hbit := congrArg (fun v => v.getLsbD 1) h
  have hin : 1 < g.axisTdataWidth - 1 := by omega
  rw [getLsbD_low hin, seed, BitVec.getLsbD_ofNat, BitVec.getLsbD_allOnes, decide_eq_true hin,
    Bool.and_eq_true] at hbit
  exact absurd hbit.2 (by decide)

end Low

/-! ## Runs -/

/-- The values that the register can move to. -/
theorem intLfsrReg_step (s : St g) (i : In) :
    (step s i).intLfsrReg = seed g ∨ (step s i).intLfsrReg = s.intLfsrReg ∨
      (step s i).intLfsrReg = shifted s.intLfsrReg := by
  unfold step St.intLfsrNext
  split_ifs <;> simp [St.reset]

theorem low_run_ne (g : Generics) (is : List In) :
    low (run step (.reset : St g) is).intLfsrReg ≠ BitVec.allOnes _ := by
  have halong : Along step (fun _ _ => True) (.reset : St g) is :=
    along_of_forall step .reset (K := fun _ => True) fun _ _ => trivial
  refine halong.invariant (P := fun s => low s.intLfsrReg ≠ BitVec.allOnes _) (low_seed_ne g) ?_
  intro s i hs _
  have hfixed := (feed_feedback_eq_self_iff (g := g) _).mpr rfl
  rcases intLfsrReg_step s i with h | h | h <;> rw [h]
  · exact low_seed_ne g
  · exact hs
  · rw [low_shifted]
    exact ne_of_fixed (feed_injective heedsTop_feedback) hfixed hs

/-- A word is handed over when the register is updated. -/
theorem step_running (s : St g) {i : In} (hi : i.aresetn = true) :
    (transferred s i = [] ∧ (step s i).intLfsrReg = s.intLfsrReg) ∨
      transferred s i = [s.intLfsrReg] ∧ (step s i).intLfsrReg = shifted s.intLfsrReg := by
  cases hs : s.intEnblReg <;> cases ht : g.hasTready <;> cases hr : i.mAxisTready <;>
    simp [transferred, step, St.out, St.intLfsrNext, hi, hs, ht, hr]

/-- The first cycle outside the reset enables the generator. -/
theorem intEnblReg_step (s : St g) {i : In} (hi : i.aresetn = true) :
    (step s i).intEnblReg = true := by
  cases hs : s.intEnblReg <;> simp [step, St.intEnblNext, hi, hs]

theorem word_succ (g : Generics) (k : ℕ) : word g (k + 1) = shifted (word g k) :=
  Function.iterate_succ_apply' _ _ _

/-- The words so far are the first ones, and the register shows the next one. -/
structure Shows (g : Generics) (seen : List (Word g)) (s : St g) : Prop where
  words : seen = (List.range seen.length).map (word g)
  register : s.intLfsrReg = word g seen.length

theorem Shows.step {seen : List (Word g)} {s : St g} {i : In} (h : Shows g seen s)
    (hi : i.aresetn = true) : Shows g (seen ++ transferred s i) (step s i) := by
  rcases step_running s hi with ⟨hout, hstep⟩ | ⟨hout, hstep⟩
  · rw [hout, List.append_nil]
    exact ⟨h.words, hstep.trans h.register⟩
  · have hlen : (seen ++ [s.intLfsrReg]).length = seen.length + 1 := List.length_append
    rw [hout]
    constructor
    · rw [hlen, List.range_succ, List.map_append, ← h.words, h.register]
      rfl
    · rw [hlen, word_succ, hstep, h.register]

theorem shows_after (g : Generics) (rs : List Bool) : Shows g (given g rs) (after g rs) := by
  have hrunning : ∀ i ∈ rs.map In.running, i.aresetn = true :=
    List.forall_mem_map.mpr fun _ _ => rfl
  have halong := along_of_forall step (.reset : St g) hrunning
  have hstart : Shows g [] .reset := ⟨rfl, rfl⟩
  exact halong.history transferred hstart fun _ _ _ h hi => h.step hi

/-- The law of the generator. -/
theorem lfsrLaw (g : Generics) : LfsrLaw g where
  stays_iff := by
    intro x
    rw [low_shifted]
    exact feed_feedback_eq_self_iff _
  never := low_run_ne g
  moves := by
    intro is hfix
    refine low_run_ne g is ?_
    rw [← feed_feedback_eq_self_iff, ← low_shifted, hfix]
  successor := fun _ _ => low_shifted_inj
  update := by
    intro s i hi hs hr
    have hout : transferred s i = [s.intLfsrReg] := by simp [transferred, St.out, hs, hr]
    rcases step_running s hi with ⟨hnone, -⟩ | ⟨-, hstep⟩
    · simp [hnone] at hout
    · exact hstep
  enabled := by
    intro rs hrs
    obtain ⟨js, r, rfl⟩ := (List.eq_nil_or_concat' rs).resolve_left hrs
    rw [after, List.map_append, run_append, List.map_singleton, run_cons, run_nil]
    exact intEnblReg_step _ rfl
  words := fun rs => (shows_after g rs).words
  register := fun rs => (shows_after g rs).register
  periodic := by
    obtain ⟨p, hp, hperiod⟩ := exists_period (feed_injective heedsTop_feedback) (low (seed g))
    refine ⟨p, hp, fun k => ?_⟩
    rw [low_word, low_word, hperiod]

/-- Four bits, with a stall. -/
example : given ⟨true, 4, by decide⟩ [true, true, false, true, true] = [5, 10, 4] := by decide

end LagoEcosystem.AxisLfsr
