import Mathlib.Algebra.Group.Nat.Defs
import Mathlib.Data.Nat.Find
import Mathlib.Data.Nat.Notation
import Mathlib.Logic.Basic
import Mathlib.Logic.ExistsUnique
import Mathlib.Logic.Function.Iterate
import Mathlib.Order.Monotone.Basic
import Mathlib.Order.PropInstances

/-!
# Gray codes

The reflected Gray code of a binary word, its decoder as a wire that feeds back into
itself, the walk through all codes in which every step changes one bit, and the code inside
a code: the Gray code of the low `n` bits of a word of `n + 1`
bits is found in the code of the whole word by folding its two top bits.
-/

namespace LagoEcosystem.GrayCode

variable {w n : ℕ}

def gray (x : BitVec w) : BitVec w := x ^^^ (x >>> 1)

theorem getLsbD_gray (x : BitVec w) (i : ℕ) :
    (gray x).getLsbD i = (x.getLsbD i ^^ x.getLsbD (i + 1)) := by
  rw [gray, BitVec.getLsbD_xor, BitVec.getLsbD_ushiftRight, Nat.add_comm 1 i]

/-! ## The decoder -/

/-- One round through the gates of `b = p xor (b shifted down by one)`. -/
def ungrayRound (p b : BitVec w) : BitVec w := p ^^^ (b >>> 1)

/-- The value on which the gates settle: after as many rounds as there are bits. -/
def ungray (p : BitVec w) : BitVec w := Nat.repeat (ungrayRound p) w 0

/-- Each round moves the difference of two values down by one bit. -/
theorem repeat_ungrayRound_xor (p a b : BitVec w) (k : ℕ) :
    Nat.repeat (ungrayRound p) k a ^^^ Nat.repeat (ungrayRound p) k b = (a ^^^ b) >>> k := by
  induction k with
  | zero => simp [Nat.repeat]
  | succ k ih =>
    have hround : ∀ c d : BitVec w,
        ungrayRound p c ^^^ ungrayRound p d = (c ^^^ d) >>> 1 := by
      intro c d
      ext i
      simp [ungrayRound, Bool.xor_left_comm]
    rw [Nat.repeat, Nat.repeat, hround, ih, ← BitVec.shiftRight_add]

theorem repeat_ungrayRound_of_fixed {p x : BitVec w} (h : ungrayRound p x = x) (k : ℕ) :
    Nat.repeat (ungrayRound p) k x = x := by
  induction k with
  | zero => rfl
  | succ k ih => rw [Nat.repeat, ih, h]

/-- A value that the gates keep is the one they settle on. -/
theorem ungray_eq_of_fixed {p x : BitVec w} (h : ungrayRound p x = x) : ungray p = x := by
  have hdiff := repeat_ungrayRound_xor p 0 x w
  rw [repeat_ungrayRound_of_fixed h] at hdiff
  have hzero : (0 ^^^ x) >>> w = 0 := by
    ext i
    simp
  exact BitVec.xor_eq_zero_iff.mp (hdiff.trans hzero)

theorem ungray_gray (x : BitVec w) : ungray (gray x) = x := by
  apply ungray_eq_of_fixed
  ext i
  simp [ungrayRound, gray]

/-- What the gates settle on, they keep. -/
theorem ungray_fixed (p : BitVec w) : ungrayRound p (ungray p) = ungray p := by
  have hdiff := repeat_ungrayRound_xor p (ungrayRound p 0) 0 w
  have hzero : (ungrayRound p 0 ^^^ 0) >>> w = 0 := by
    ext i
    simp
  have hcomm : ∀ k, Nat.repeat (ungrayRound p) k (ungrayRound p 0) =
      ungrayRound p (Nat.repeat (ungrayRound p) k 0) := by
    intro k
    induction k with
    | zero => rfl
    | succ k ih => rw [Nat.repeat, Nat.repeat, ih]
  rw [hzero, hcomm] at hdiff
  exact BitVec.xor_eq_zero_iff.mp hdiff

theorem gray_inj {x y : BitVec w} : gray x = gray y ↔ x = y := by
  refine ⟨fun h => ?_, fun h => congrArg gray h⟩
  rw [← ungray_gray x, h, ungray_gray]

/-- The gates reverse the code. -/
theorem gray_ungray (p : BitVec w) : gray (ungray p) = p := by
  have hfixed : p ^^^ (ungray p >>> 1) = ungray p := ungray_fixed p
  calc gray (ungray p) = p ^^^ (ungray p >>> 1) ^^^ (ungray p >>> 1) := by rw [hfixed]; rfl
    _ = p := by rw [BitVec.xor_assoc, BitVec.xor_self, BitVec.xor_zero]

theorem gray_eq_iff {x p : BitVec w} : gray x = p ↔ x = ungray p := by
  rw [← gray_inj (x := x), gray_ungray]

@[simp] theorem gray_zero : gray (0 : BitVec w) = 0 := by
  ext i
  simp [gray]

/-! ## One bit in a step -/

/-- A property that is lost on the way up is lost at one place. -/
theorem existsUnique_edge {P : ℕ → Prop} (hzero : P 0) (hlost : ∃ i, ¬P i)
    (hdown : ∀ i, P (i + 1) → P i) : ∃! i, P i ∧ ¬P (i + 1) := by
  classical
  have hanti : Antitone P := antitone_nat_of_succ_le hdown
  have hpos : Nat.find hlost ≠ 0 := fun h => Nat.find_spec hlost (h ▸ hzero)
  obtain ⟨i, hi⟩ := Nat.exists_eq_succ_of_ne_zero hpos
  have hstop : ¬P (i + 1) := by
    rw [← Nat.succ_eq_add_one, ← hi]
    exact Nat.find_spec hlost
  have hhold : P i := not_not.mp (Nat.find_min hlost (by omega))
  refine ⟨i, ⟨hhold, hstop⟩, fun j ⟨hj, hjstop⟩ => ?_⟩
  rcases Nat.lt_trichotomy j i with hlt | heq | hgt
  · exact absurd (hanti hlt hhold) hjstop
  · exact heq
  · exact absurd (hanti hgt hj) hstop

/-- An increment reaches the bits below which all are set. -/
def Reaches (x : BitVec w) (i : ℕ) : Prop := i < w ∧ ∀ j < i, x.getLsbD j = true

theorem Reaches.of_succ {x : BitVec w} {i : ℕ} (h : Reaches x (i + 1)) : Reaches x i :=
  ⟨Nat.lt_of_succ_lt h.1, fun j hj => h.2 j (Nat.lt_succ_of_lt hj)⟩

theorem getLsbD_add_one_ne_iff (x : BitVec w) (i : ℕ) :
    x.getLsbD i ≠ (x + 1).getLsbD i ↔ Reaches x i := by
  by_cases hi : i < w
  case pos =>
    have hone : (1 : BitVec w) = 1#w := rfl
    rw [BitVec.getLsbD_add hi, hone, Reaches, and_iff_right hi]
    cases i with
    | zero => simp [hi]
    | succ i =>
      rw [BitVec.carry_succ_one i x (by omega), BitVec.getLsbD_one]
      simp only [Nat.lt_succ_iff]
      cases x.getLsbD (i + 1) <;> simp
  case neg =>
    have hge := Nat.le_of_not_lt hi
    simp [Reaches, hi, BitVec.getLsbD_of_ge _ _ hge]

/-- The codes of neighbours differ where the increment ends. -/
theorem getLsbD_gray_add_one_ne_iff (x : BitVec w) (i : ℕ) :
    (gray x).getLsbD i ≠ (gray (x + 1)).getLsbD i ↔ Reaches x i ∧ ¬Reaches x (i + 1) := by
  have hhere := getLsbD_add_one_ne_iff x i
  have habove := getLsbD_add_one_ne_iff x (i + 1)
  have hdown : Reaches x (i + 1) → Reaches x i := Reaches.of_succ
  rw [getLsbD_gray, getLsbD_gray, ← hhere, ← habove]
  rw [← hhere, ← habove] at hdown
  revert hdown
  cases x.getLsbD i <;> cases (x + 1).getLsbD i <;> cases x.getLsbD (i + 1) <;>
    cases (x + 1).getLsbD (i + 1) <;> decide

theorem existsUnique_gray_ne (hw : 0 < w) (x : BitVec w) :
    ∃! i, (gray x).getLsbD i ≠ (gray (x + 1)).getLsbD i := by
  simp only [getLsbD_gray_add_one_ne_iff]
  refine existsUnique_edge ⟨hw, ?_⟩ ⟨w, fun h => Nat.lt_irrefl w h.1⟩ fun i => Reaches.of_succ
  exact fun j hj => absurd hj (Nat.not_lt_zero j)

theorem allOnes_add_one : BitVec.allOnes w + 1 = 0 := by
  rw [← BitVec.neg_one_eq_allOnes]
  exact BitVec.add_left_neg 1

/-- From the last code to the first one the top bit changes. -/
theorem getLsbD_gray_allOnes_ne_iff (i : ℕ) :
    (gray (BitVec.allOnes w)).getLsbD i ≠ (0 : BitVec w).getLsbD i ↔ i + 1 = w := by
  have hreach : ∀ j, Reaches (BitVec.allOnes w) j ↔ j < w := by
    intro j
    refine ⟨fun h => h.1, fun hj => ⟨hj, fun k hk => ?_⟩⟩
    simp [Nat.lt_trans hk hj]
  have hne := getLsbD_gray_add_one_ne_iff (BitVec.allOnes w) i
  rw [allOnes_add_one, gray_zero, hreach, hreach] at hne
  rw [hne]
  omega

/-- A word each of whose bits is one of `p` or one of `q` is `p` or `q` if these differ in one
bit. -/
theorem eq_or_eq_of_mixed {p q s : BitVec w} (h : ∃! i, p.getLsbD i ≠ q.getLsbD i)
    (hs : ∀ i, s.getLsbD i = p.getLsbD i ∨ s.getLsbD i = q.getLsbD i) : s = p ∨ s = q := by
  obtain ⟨i, -, hother⟩ := h
  have hsame : ∀ j, j ≠ i → p.getLsbD j = q.getLsbD j := fun j hj => not_not.mp (mt (hother j) hj)
  have hrest : ∀ j, j ≠ i → s.getLsbD j = p.getLsbD j := fun j hj =>
    (hs j).elim id fun h => h.trans (hsame j hj).symm
  refine (hs i).imp (fun hp => ?_) fun hq => ?_
  · apply BitVec.eq_of_getLsbD_eq
    intro j _
    by_cases hj : j = i
    case pos => rw [hj, hp]
    case neg => exact hrest j hj
  · apply BitVec.eq_of_getLsbD_eq
    intro j _
    by_cases hj : j = i
    case pos => rw [hj, hq]
    case neg => exact (hrest j hj).trans (hsame j hj)

/-! ## The walk -/

/-- The code that follows, after the last one the first. -/
def grayNext (p : BitVec w) : BitVec w := gray (ungray p + 1)

theorem grayNext_gray (x : BitVec w) : grayNext (gray x) = gray (x + 1) := by
  rw [grayNext, ungray_gray]

theorem existsUnique_grayNext_ne (hw : 0 < w) (p : BitVec w) :
    ∃! i, p.getLsbD i ≠ (grayNext p).getLsbD i := by
  have h := existsUnique_gray_ne hw (ungray p)
  rwa [gray_ungray] at h

theorem iterate_grayNext (k : ℕ) (p : BitVec w) :
    grayNext^[k] p = gray (ungray p + BitVec.ofNat w k) := by
  induction k with
  | zero => simp [gray_ungray]
  | succ k ih =>
    rw [Function.iterate_succ_apply', ih, grayNext_gray, BitVec.add_assoc, BitVec.ofNat_add]
    rfl

/-- The walk comes back after all codes. -/
theorem iterate_grayNext_two_pow (p : BitVec w) : grayNext^[2 ^ w] p = p := by
  have hzero : BitVec.ofNat w (2 ^ w) = 0#w := by
    rw [← BitVec.toNat_inj, BitVec.toNat_ofNat, Nat.mod_self, BitVec.toNat_zero]
  rw [iterate_grayNext, hzero, BitVec.add_zero, gray_ungray]

/-- On the way it comes to every code once. -/
theorem existsUnique_iterate (p q : BitVec w) : ∃! k, k < 2 ^ w ∧ grayNext^[k] p = q := by
  have hat : ∀ k, grayNext^[k] p = q ↔ BitVec.ofNat w k = ungray q - ungray p := by
    intro k
    rw [iterate_grayNext, gray_eq_iff, BitVec.eq_sub_iff_add_eq, BitVec.add_comm]
  refine ⟨(ungray q - ungray p).toNat, ⟨BitVec.isLt _, ?_⟩, fun k ⟨hk, hq⟩ => ?_⟩
  · rw [hat, BitVec.ofNat_toNat, BitVec.setWidth_eq]
  · rw [← (hat k).mp hq, BitVec.toNat_ofNat, Nat.mod_eq_of_lt hk]

/-! ## The code inside a code -/

/-- The exclusive or of the two top bits of `n + 1`. -/
def topXor (p : BitVec (n + 1)) : Bool := p.getLsbD n ^^ p.getLsbD (n - 1)

/-- The bits below the two top bits. -/
def lowBits (p : BitVec (n + 1)) : BitVec (n - 1) := p.extractLsb' 0 (n - 1)

/-- The two top bits folded into one. -/
def foldTop (p : BitVec (n + 1)) : BitVec n :=
  (BitVec.ofBool (topXor p) ++ lowBits p).setWidth n

theorem getLsbD_foldTop (p : BitVec (n + 1)) {i : ℕ} (hi : i < n) :
    (foldTop p).getLsbD i = if i = n - 1 then topXor p else p.getLsbD i := by
  rw [foldTop, BitVec.getLsbD_setWidth, BitVec.getLsbD_append]
  by_cases hlast : i = n - 1
  · subst hlast
    simp [hi]
  · have hlt : i < n - 1 := by omega
    simp [lowBits, hi, hlt, hlast]

theorem foldTop_gray (x : BitVec (n + 1)) : foldTop (gray x) = gray (x.setWidth n) := by
  apply BitVec.eq_of_getLsbD_eq
  intro i hi
  rw [getLsbD_foldTop _ hi, topXor]
  simp only [getLsbD_gray, BitVec.getLsbD_setWidth]
  have hout : x.getLsbD (n + 1) = false := BitVec.getLsbD_of_ge _ _ (by omega)
  by_cases hlast : i = n - 1
  · subst hlast
    have hn : n - 1 + 1 = n := by omega
    rw [hn, hout]
    cases x.getLsbD n <;> cases x.getLsbD (n - 1) <;> simp [hi]
  · have hi' : i + 1 < n := by omega
    simp [hlast, hi, hi']

/-- Two codes agree if they agree in the top bit and below the fold. -/
theorem eq_iff_foldTop {p q : BitVec (n + 1)} (hn : 0 < n) :
    p = q ↔ p.getLsbD n = q.getLsbD n ∧ lowBits p = lowBits q ∧ topXor p = topXor q := by
  refine ⟨fun h => by rw [h]; exact ⟨rfl, rfl, rfl⟩, fun ⟨htop, hlow, hfold⟩ => ?_⟩
  apply BitVec.eq_of_getLsbD_eq
  intro i hi
  have hbit := congrArg (fun b => b.getLsbD i) hlow
  simp only [lowBits, BitVec.getLsbD_extractLsb'] at hbit
  have hbelow : p.getLsbD (n - 1) = q.getLsbD (n - 1) := by
    rw [topXor, topXor, htop] at hfold
    exact Bool.xor_right_inj.mp hfold
  by_cases hitop : i = n
  · rw [hitop, htop]
  by_cases hibelow : i = n - 1
  · rw [hibelow, hbelow]
  · have hlt : i < n - 1 := by omega
    simpa [hlt] using hbit

/-- Agreement below the top bit is agreement of the folded codes. -/
theorem foldTop_eq_iff {p q : BitVec (n + 1)} (hn : 0 < n) :
    foldTop p = foldTop q ↔ lowBits p = lowBits q ∧ topXor p = topXor q := by
  refine ⟨fun h => ?_, fun ⟨hlow, hfold⟩ => by rw [foldTop, foldTop, hlow, hfold]⟩
  constructor
  · apply BitVec.eq_of_getLsbD_eq
    intro i hi
    have hbit := congrArg (fun b => b.getLsbD i) h
    have hin : i < n := by omega
    have hne : i ≠ n - 1 := by omega
    simp only [getLsbD_foldTop _ hin, if_neg hne] at hbit
    simp [lowBits, BitVec.getLsbD_extractLsb', hbit]
  · have hbit := congrArg (fun b => b.getLsbD (n - 1)) h
    have hin : n - 1 < n := by omega
    simpa [getLsbD_foldTop _ hin] using hbit

end LagoEcosystem.GrayCode
