import LagoEcosystem.Library.SequenceGaps
import LagoEcosystem.Reader.Loop

/-!
# The count of lost pulses

The trigger core numbers its triggers modulo `2 ^ 30` and the reader adds up the gaps in the
numbers that it receives. It adds nothing for the first word, which it recognises by the
number zero before it, and nothing when the difference to the number before is negative. So
the gaps behind a received zero are not counted, nor are those in which the numbers wrap
around.
-/

namespace LagoEcosystem.Reader

open CivilTime Clocked SequenceGaps

/-- The value of `mtd_cdp` after a session. -/
def lostPulses (cal : Calendar) (fToStdout : Bool) (bs : List Batch) : ℤ :=
  (run (readBuffer cal) (Globals.start fToStdout) bs).pulses.mtdCdp.toInt

/-- The numbers in the counter words of a session. -/
def counterWords (bs : List Batch) : List ℕ := (bs.flatMap Batch.words).filterMap counterWord

/-- A run in which the triggers `ns` reach the reader, with less than `2 ^ 30` missing in a
row. -/
structure Received (bs : List Batch) (ns : List ℕ) : Prop where
  words : counterWords bs = ns.map (· % 2 ^ 30)
  gaps : ns.IsChain fun n m => n < m ∧ m - n - 1 < 2 ^ 30

/-- The gap between two triggers is empty, or the first is not numbered zero and the numbers
do not wrap around in it. -/
def Countable (n m : ℕ) : Prop := m = n + 1 ∨ (n % 2 ^ 30 ≠ 0 ∧ n % 2 ^ 30 < m % 2 ^ 30)

instance (n m : ℕ) : Decidable (Countable n m) := by unfold Countable; infer_instance

/-! ## One word -/

/-- What a counter word adds to the count. -/
def counted (before cnt : ℕ) : ℕ :=
  if before ≠ 0 ∧ before + 1 < cnt then cnt - before - 1 else 0

theorem Pulses.next_mtdCdp {p : Pulses} {before cnt : ℕ}
    (hp : p.mtdPulseCnt = BitVec.ofNat 32 before) (hbefore : before < 2 ^ 30)
    (hcnt : cnt < 2 ^ 30) :
    (p.next cnt).mtdCdp = p.mtdCdp + BitVec.ofNat 32 (counted before cnt) := by
  have hdp : (BitVec.ofNat 32 cnt - BitVec.ofNat 32 before - 1).toInt = cnt - before - 1 := by
    rw [BitVec.toInt_eq_toNat_cond, BitVec.toNat_sub, BitVec.toNat_sub, BitVec.toNat_ofNat,
      BitVec.toNat_ofNat, show (1 : BitVec 32).toNat = 1 from rfl]
    split <;> omega
  have hzero : BitVec.ofNat 32 before ≠ 0 ↔ before ≠ 0 := by
    rw [Ne, ← BitVec.toNat_inj, BitVec.toNat_ofNat, show (0 : BitVec 32).toNat = 0 from rfl]
    omega
  have htest : 0 < (cnt : ℤ) - before - 1 ∧ before ≠ 0 ↔ before ≠ 0 ∧ before + 1 < cnt := by omega
  simp only [Pulses.next, hp, hdp, hzero, htest, counted]
  split
  · congr 1
    apply BitVec.eq_of_toNat_eq
    rw [BitVec.toNat_sub, BitVec.toNat_sub, BitVec.toNat_ofNat, BitVec.toNat_ofNat,
      BitVec.toNat_ofNat, show (1 : BitVec 32).toNat = 1 from rfl]
    omega
  · exact (BitVec.add_zero _).symm

/-- A word adds at most what is missing, and all of it if the gap is countable. -/
theorem counted_le_and_eq_iff {n m : ℕ} (h : n < m ∧ m - n - 1 < 2 ^ 30) :
    counted (n % 2 ^ 30) (m % 2 ^ 30) ≤ m - n - 1 ∧
      (counted (n % 2 ^ 30) (m % 2 ^ 30) = m - n - 1 ↔ Countable n m) := by
  obtain ⟨hnm, hgap⟩ := h
  unfold counted Countable
  by_cases hwrap : n % 2 ^ 30 < m % 2 ^ 30
  · have hdiff : m % 2 ^ 30 - n % 2 ^ 30 = m - n := by omega
    split <;> omega
  · rw [if_neg (by omega)]
    omega

/-! ## A run -/

theorem run_mtdCdp {cnts : List ℕ} (hcnts : ∀ cnt ∈ cnts, cnt < 2 ^ 30) {p : Pulses} {before : ℕ}
    (hp : p.mtdPulseCnt = BitVec.ofNat 32 before) (hbefore : before < 2 ^ 30) :
    (run Pulses.next p cnts).mtdCdp =
      p.mtdCdp + BitVec.ofNat 32 (gapSum counted (before :: cnts)) := by
  induction cnts generalizing p before with
  | nil => exact (BitVec.add_zero _).symm
  | cons cnt cnts ih =>
    obtain ⟨hcnt, hrest⟩ := List.forall_mem_cons.mp hcnts
    rw [run_cons, ih hrest rfl hcnt, Pulses.next_mtdCdp hp hbefore hcnt, gapSum_cons_cons,
      BitVec.ofNat_add, BitVec.add_assoc]

theorem lostPulses_eq (cal : Calendar) (fToStdout : Bool) {bs : List Batch} {ns : List ℕ}
    (h : Received bs ns) :
    lostPulses cal fToStdout bs =
      (BitVec.ofNat 32 (gapSum (fun n m => counted (n % 2 ^ 30) (m % 2 ^ 30)) ns)).toInt := by
  have hlt : ∀ cnt ∈ ns.map (· % 2 ^ 30), cnt < 2 ^ 30 := by
    intro cnt hcnt
    obtain ⟨n, -, rfl⟩ := List.mem_map.mp hcnt
    exact Nat.mod_lt _ (by decide)
  have hfirst (cnts : List ℕ) : gapSum counted (0 :: cnts) = gapSum counted cnts := by
    cases cnts with
    | nil => rfl
    | cons cnt cnts => exact Nat.zero_add _
  have hwords := h.words
  unfold counterWords at hwords
  have hrun : (run Pulses.next ⟨0, 0, 0, 0⟩ (ns.map (· % 2 ^ 30))).mtdCdp =
      0 + BitVec.ofNat 32 (gapSum counted (0 :: ns.map (· % 2 ^ 30))) :=
    run_mtdCdp hlt rfl (by decide)
  rw [lostPulses, run_pulses, hwords, hrun, hfirst, gapSum_map]
  exact congrArg BitVec.toInt (BitVec.zero_add _)

/-- A sum of at most what is missing, kept in 32 bits, is what is missing. -/
theorem toInt_ofNat_eq_iff {k total : ℕ} (h : k ≤ total) :
    (BitVec.ofNat 32 k).toInt = total ↔ k = total ∧ total < 2 ^ 31 := by
  have hlt := BitVec.toInt_lt (x := BitVec.ofNat 32 k)
  by_cases hk : k < 2 ^ 31
  · rw [BitVec.toInt_eq_toNat_cond, BitVec.toNat_ofNat]
    split <;> omega
  · omega

/-- The total of `mtd_cdp` is the number of triggers missing between the first and the last one
received exactly if every gap is countable and the total fits into 31 bits. -/
theorem lostPulses_eq_missing_iff (cal : Calendar) (fToStdout : Bool) {bs : List Batch}
    {ns : List ℕ} (h : Received bs ns) :
    lostPulses cal fToStdout bs = missing ns ↔ ns.IsChain Countable ∧ missing ns < 2 ^ 31 := by
  have hmissing := missing_eq_gapSum (h.gaps.imp fun n m hnm => hnm.1)
  obtain ⟨hle, heq⟩ := gapSum_eq_iff (h.gaps.imp fun n m hnm => counted_le_and_eq_iff hnm)
  rw [lostPulses_eq cal fToStdout h, hmissing, toInt_ofNat_eq_iff hle, heq]

/-- The triggers 1 and 3 are received, 2 is counted. -/
theorem lostPulses_eq_missing_one_three :
    Received [⟨true, 0, [0x80000001#32, 0x80000003#32]⟩] [1, 3] ∧
      lostPulses gregorian false [⟨true, 0, [0x80000001#32, 0x80000003#32]⟩] = missing [1, 3] := by
  have h : Received [⟨true, 0, [0x80000001#32, 0x80000003#32]⟩] [1, 3] :=
    ⟨by decide, by decide⟩
  exact ⟨h, (lostPulses_eq_missing_iff gregorian false h).mpr ⟨by decide, by decide⟩⟩

/-- The triggers 0 and 2 are received, 1 is not counted. -/
theorem not_lostPulses_eq_missing_zero_two :
    Received [⟨true, 0, [0x80000000#32, 0x80000002#32]⟩] [0, 2] ∧
      lostPulses gregorian false [⟨true, 0, [0x80000000#32, 0x80000002#32]⟩] = 0 ∧
      missing [0, 2] = 1 := by
  refine ⟨⟨by decide, by decide⟩, ?_, by decide⟩
  have hwords : ([⟨true, 0, [0x80000000#32, 0x80000002#32]⟩] : List Batch).flatMap Batch.words =
      [0x80000000#32, 0x80000002#32] := rfl
  rw [lostPulses, run_pulses, hwords]
  decide

end LagoEcosystem.Reader
