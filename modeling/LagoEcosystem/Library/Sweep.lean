import LagoEcosystem.Library.BitFields
import LagoEcosystem.Library.Pulses
import Mathlib.Data.BitVec

/-!
# Sweeps

A source of words that counts an address up to `last` and then begins again. The flag that
says there is a word to take and the mark of the last word are registers, and each compares the
address of the cycle before, whether or not it has moved since. So the words come in order
and the mark is on the last one while the receiver takes every word at once. Two conditions
tell which other receivers see a regular stream: one that never waits on the last two words
of a pass sees passes of `last + 1` words, and one that always waits on both of them sees
passes of `last` words.
-/

namespace LagoEcosystem.Sweep

open Clocked

variable {W : ℕ} {β γ : Type*}

/-! ## Streams -/

/-- The words of `l` are those of the stream `f` from number `k` on. -/
def Follows (f : ℕ → β) (k : ℕ) (l : List β) : Prop := ∀ j, ∀ x ∈ l[j]?, x = f (k + j)

@[simp] theorem follows_nil (f : ℕ → β) (k : ℕ) : Follows f k [] := by
  intro j x hx
  simp at hx

@[simp] theorem follows_cons {f : ℕ → β} {k : ℕ} {x : β} {l : List β} :
    Follows f k (x :: l) ↔ x = f k ∧ Follows f (k + 1) l := by
  constructor
  case mp =>
    intro h
    refine ⟨h 0 x rfl, fun j y hy => ?_⟩
    rw [Nat.add_right_comm]
    exact h (j + 1) y hy
  case mpr =>
    rintro ⟨hx, hl⟩ j y hy
    cases j with
    | zero => rw [← Option.some.inj hy, hx, Nat.add_zero]
    | succ j =>
      rw [hl j y hy, Nat.add_right_comm]
      rfl

theorem Follows.map {f : ℕ → β} {k : ℕ} {l : List β} (h : Follows f k l) (g : β → γ) :
    Follows (g ∘ f) k (l.map g) := by
  intro j x hx
  rw [List.getElem?_map] at hx
  obtain ⟨y, hy, rfl⟩ := Option.map_eq_some_iff.mp hx
  rw [h j y hy, Function.comp]

/-! ## The source -/

structure St (W : ℕ) where
  addr : BitVec W
  comp : Bool
  tlast : Bool

def St.reset : St W := ⟨0, false, false⟩

/-- The clock edge. The receiver is `ready` in the cycle that it ends. -/
def next (last : BitVec W) (s : St W) (ready : Bool) : St W where
  addr := if ready && s.comp then s.addr + 1 else if !s.comp then 0 else s.addr
  comp := decide (s.addr ≠ last)
  tlast := decide (s.addr = last - 1)

/-- The word of address `a` is `f a`. -/
def shown (f : BitVec W → β) (s : St W) (ready : Bool) : List (β × Bool) :=
  if s.comp && ready then [(f s.addr, s.tlast)] else []

/-- The words of a run. -/
def words (last : BitVec W) (f : BitVec W → β) (s : St W) (rs : List Bool) : List (β × Bool) :=
  collect (next last) (shown f) s rs

/-- The stream of passes of `N` words, with a mark on the last one of each. -/
def passes (f : BitVec W → β) (N k : ℕ) : β × Bool :=
  (f (BitVec.ofNat W (k % N)), decide (k % N + 1 = N))

/-- A cycle without a transfer in which the address is one of the last two. -/
def Spoils (last : BitVec W) (s : St W) (ready : Bool) : Prop :=
  (s.comp && ready) = false ∧ (s.addr = last - 1 ∨ s.addr = last)

/-- After a cycle that spoils the pass nothing is taken any more. -/
def Unspoiled (last : BitVec W) : St W → List Bool → Prop
  | _, [] => True
  | s, r :: rs =>
    (Spoils last s r → words last id (next last s r) rs = []) ∧ Unspoiled last (next last s r) rs

/-- The last word is not taken, and the one before it not before it has the mark. -/
def Shortened (last : BitVec W) (s : St W) (ready : Bool) : Prop :=
  s.comp = true → ready = true → s.addr ≠ last ∧ (s.addr = last - 1 → s.tlast = true)

section Equations

variable {last : BitVec W} {f : BitVec W → β} {s : St W} {r : Bool} {rs : List Bool}

@[simp] theorem words_nil : words last f s [] = [] := rfl
theorem words_cons : words last f s (r :: rs) = shown f s r ++ words last f (next last s r) rs := rfl

theorem shown_of_take (hs : s.comp = true) : shown f s true = [(f s.addr, s.tlast)] := by
  simp [shown, hs]

theorem shown_of_wait (h : (s.comp && r) = false) : shown f s r = [] := by simp [shown, h]

theorem next_of_take (hs : s.comp = true) :
    next last s true = ⟨s.addr + 1, decide (s.addr ≠ last), decide (s.addr = last - 1)⟩ := by
  simp [next, hs]

theorem next_of_wait (h : (s.comp && r) = false) :
    next last s r =
      ⟨if s.comp then s.addr else 0, decide (s.addr ≠ last), decide (s.addr = last - 1)⟩ := by
  cases hs : s.comp <;> simp_all [next]

theorem words_eq_map (s : St W) (rs : List Bool) :
    words last f s rs = (words last id s rs).map (Prod.map f id) := by
  induction rs generalizing s with
  | nil => rfl
  | cons r rs ih =>
    rw [words_cons, words_cons, List.map_append, ih]
    cases h : s.comp && r <;> simp [shown, h]

theorem unspoiled_of_words_eq_nil (h : words last id s rs = []) : Unspoiled last s rs := by
  induction rs generalizing s with
  | nil => trivial
  | cons r rs ih =>
    rw [words_cons] at h
    have hrest := (List.append_eq_nil_iff.mp h).2
    exact ⟨fun _ => hrest, ih hrest⟩

end Equations

/-- A stream that is right for all words at the addresses has the right addresses. -/
theorem follows_forall_iff (β : Type*) [Nontrivial β] {last : BitVec W} {s : St W} {N k : ℕ}
    {rs : List Bool} : (∀ f : BitVec W → β, Follows (passes f N) k (words last f s rs)) ↔
      Follows (passes id N) k (words last id s rs) := by
  constructor
  case mp =>
    intro h j x hx
    have hall : ∀ f : BitVec W → β, (f x.1, x.2) = passes f N (k + j) := by
      intro f
      refine h f j _ ?_
      rw [words_eq_map, List.getElem?_map, hx]
      rfl
    obtain ⟨y, -⟩ := exists_pair_ne β
    refine Prod.ext ?_ (Prod.mk.inj (hall fun _ => y)).2
    exact BitFields.eq_of_forall_mem_eq β fun f => (Prod.mk.inj (hall f)).1
  case mpr =>
    intro h f
    rw [words_eq_map]
    exact h.map (Prod.map f id)

/-! ## Passes of all words -/

section Regular

variable {last : BitVec W} {s : St W} {k : ℕ} {r : Bool}

/-- The source after `k` words, when no cycle has spoilt a pass. -/
inductive Clean (last : BitVec W) (k : ℕ) (s : St W) : Prop
  | pause (comp : s.comp = false) (start : k % (last.toNat + 1) = 0)
      (away : s.addr ≠ last - 1 ∧ s.addr ≠ last)
  | offer (comp : s.comp = true) (addr : s.addr.toNat = k % (last.toNat + 1))
      (tlast : s.tlast = decide (s.addr = last))

/-- The source after `k` words and a cycle that has spoilt the pass: the next word has the
mark too early, or the last one was withdrawn. -/
inductive Spoilt (last : BitVec W) (k : ℕ) (s : St W) : Prop
  | early (comp : s.comp = true) (addr : s.addr = last - 1) (tlast : s.tlast = true)
      (number : k % (last.toNat + 1) + 1 = last.toNat)
  | late (two : 2 ≤ last.toNat) (away : s.addr ≠ last - 1)
      (tlast : s.comp = true → s.tlast = false) (number : k % (last.toNat + 1) = last.toNat)

theorem sub_one_ne (h : 1 ≤ last.toNat) : last - 1 ≠ last := by
  intro heq
  have hval := congrArg BitVec.toNat heq
  rw [BitFields.toNat_sub_one h] at hval
  omega

theorem zero_ne_sub_one (h : 2 ≤ last.toNat) : (0 : BitVec W) ≠ last - 1 := by
  intro heq
  have hval := congrArg BitVec.toNat heq
  have hzero : (0 : BitVec W).toNat = 0 := BitVec.toNat_zero
  rw [BitFields.toNat_sub_one (by omega)] at hval
  omega

theorem zero_ne (h : 1 ≤ last.toNat) : (0 : BitVec W) ≠ last := by
  rintro rfl
  exact absurd h (by simp)

/-- The address after the last one is none of the last two. -/
theorem add_one_away (h : 2 ≤ last.toNat) : last + 1 ≠ last - 1 ∧ last + 1 ≠ last := by
  have hlt := last.isLt
  have hone : (1 : BitVec W).toNat = 1 := BitFields.toNat_one (by omega)
  have hval : (last + 1).toNat = (last.toNat + 1) % 2 ^ W := by rw [BitVec.toNat_add, hone]
  have hwrap : (last.toNat + 1) % 2 ^ W = last.toNat + 1 ∨ (last.toNat + 1) % 2 ^ W = 0 := by
    rcases Nat.lt_or_ge (last.toNat + 1) (2 ^ W) with hfit | hfull
    · exact .inl (Nat.mod_eq_of_lt hfit)
    · have heq : last.toNat + 1 = 2 ^ W := by omega
      exact .inr (by rw [heq, Nat.mod_self])
  constructor <;> intro heq <;> have hnum := congrArg BitVec.toNat heq
  · rw [BitFields.toNat_sub_one (by omega)] at hnum
    omega
  · omega

/-- A word that is taken at its place. -/
theorem Clean.take (h : Clean last k s) (two : 2 ≤ last.toNat) (hs : s.comp = true) :
    s.addr = BitVec.ofNat W (k % (last.toNat + 1)) ∧
      s.tlast = decide (k % (last.toNat + 1) + 1 = last.toNat + 1) ∧
      Clean last (k + 1) (next last s true) := by
  cases h with
  | pause comp => exact absurd (hs.symm.trans comp) Bool.noConfusion
  | offer _ addr tlast =>
    have hend : s.addr = last ↔ k % (last.toNat + 1) = last.toNat := by
      rw [← BitVec.toNat_inj, addr]
    have hsucc := Pulses.succ_mod_eq (F := last.toNat + 1) (Nat.succ_pos _) k
    refine ⟨by rw [← addr, BitVec.ofNat_toNat, BitVec.setWidth_eq], ?_, ?_⟩
    · rw [tlast, decide_eq_decide, hend, Nat.add_right_cancel_iff]
    rw [next_of_take hs]
    by_cases hlast : s.addr = last
    case pos =>
      rw [if_pos (by rw [hend.mp hlast]; rfl)] at hsucc
      refine .pause (decide_eq_false (not_not.mpr hlast)) hsucc ?_
      rw [hlast]
      exact add_one_away two
    case neg =>
      have hlt : s.addr.toNat < last.toNat := by
        have hmod : k % (last.toNat + 1) < last.toNat + 1 := Nat.mod_lt k (Nat.succ_pos _)
        have := mt hend.mpr hlast
        omega
      have hone : (s.addr + 1).toNat = s.addr.toNat + 1 :=
        BitFields.toNat_add_one (by have := last.isLt; omega)
      rw [if_neg (by have := mt hend.mpr hlast; omega), ← addr] at hsucc
      refine .offer (decide_eq_true hlast) (hone.trans hsucc.symm) ?_
      show decide (s.addr = last - 1) = decide (s.addr + 1 = last)
      rw [decide_eq_decide, BitFields.eq_sub_one_iff (by omega), ← BitVec.toNat_inj, hone]

/-- A cycle without a transfer, away from the end of the pass. -/
theorem Clean.wait (h : Clean last k s) (two : 2 ≤ last.toNat) (hr : (s.comp && r) = false)
    (haway : s.addr ≠ last - 1 ∧ s.addr ≠ last) : Clean last k (next last s r) := by
  rw [next_of_wait hr]
  cases h with
  | pause comp start =>
    have hne : (0 : BitVec W) ≠ last := zero_ne (by omega)
    rw [comp, if_neg Bool.false_ne_true]
    exact .offer (decide_eq_true haway.2) (by simp [start])
      ((decide_eq_false haway.1).trans (decide_eq_false hne).symm)
  | offer comp addr tlast =>
    rw [comp, if_pos rfl]
    exact .offer (decide_eq_true haway.2) addr
      ((decide_eq_false haway.1).trans (decide_eq_false haway.2).symm)

theorem Clean.spoil (h : Clean last k s) (two : 2 ≤ last.toNat) (hr : Spoils last s r) :
    Spoilt last k (next last s r) := by
  obtain ⟨hr, haddr⟩ := hr
  have hne : last - 1 ≠ last := sub_one_ne (by omega)
  rw [next_of_wait hr]
  cases h with
  | pause _ _ away => exact absurd haddr (not_or.mpr away)
  | offer comp addr tlast =>
    rw [comp, if_pos rfl]
    rcases haddr with haddr | haddr
    · refine .early (decide_eq_true (haddr ▸ hne)) haddr (decide_eq_true haddr) ?_
      rw [← addr, haddr, BitFields.toNat_sub_one (by omega)]
      omega
    · have hmove : s.addr ≠ last - 1 := haddr ▸ hne.symm
      exact .late two hmove (fun _ => decide_eq_false hmove) (by rw [← addr, haddr])

theorem Spoilt.wait (h : Spoilt last k s) (hr : (s.comp && r) = false) :
    Spoilt last k (next last s r) := by
  rw [next_of_wait hr]
  cases h with
  | early comp addr tlast number =>
    have hne : last - 1 ≠ last := sub_one_ne (by omega)
    rw [comp, if_pos rfl]
    exact .early (decide_eq_true (addr ▸ hne)) addr (decide_eq_true addr) number
  | late two away tlast number =>
    refine .late two ?_ (fun _ => decide_eq_false away) number
    cases s.comp with
    | false => exact zero_ne_sub_one two
    | true => exact away

/-- The next word that is taken has the wrong mark. -/
theorem Spoilt.tlast_ne (h : Spoilt last k s) (hs : s.comp = true) :
    s.tlast ≠ decide (k % (last.toNat + 1) + 1 = last.toNat + 1) := by
  cases h with
  | early _ _ tlast number =>
    have hne : k % (last.toNat + 1) ≠ last.toNat := by omega
    simp [tlast, hne]
  | late _ _ tlast number => simp [tlast hs, number]

variable (f : BitVec W → β)

theorem Spoilt.follows_iff (h : Spoilt last k s) (rs : List Bool) :
    Follows (passes f (last.toNat + 1)) k (words last f s rs) ↔ words last id s rs = [] := by
  induction rs generalizing s with
  | nil => simp
  | cons r rs ih =>
    rw [words_cons, words_cons]
    cases hr : s.comp && r with
    | false =>
      rw [shown_of_wait hr, shown_of_wait hr, List.nil_append, List.nil_append]
      exact ih (h.wait hr)
    | true =>
      obtain ⟨hs, rfl⟩ := Bool.and_eq_true_iff.mp hr
      rw [shown_of_take hs, shown_of_take hs, List.singleton_append, follows_cons]
      exact iff_of_false (fun hf => h.tlast_ne hs (congrArg Prod.snd hf.1)) (by simp)

theorem Clean.follows_iff (h : Clean last k s) (two : 2 ≤ last.toNat) (rs : List Bool) :
    Follows (passes f (last.toNat + 1)) k (words last f s rs) ↔ Unspoiled last s rs := by
  induction rs generalizing k s with
  | nil => simp [Unspoiled]
  | cons r rs ih =>
    rw [words_cons, Unspoiled]
    cases hr : s.comp && r with
    | false =>
      rw [shown_of_wait hr, List.nil_append]
      by_cases haddr : s.addr = last - 1 ∨ s.addr = last
      case pos =>
        rw [(h.spoil two ⟨hr, haddr⟩).follows_iff f]
        exact ⟨fun hnil => ⟨fun _ => hnil, unspoiled_of_words_eq_nil hnil⟩,
          fun hall => hall.1 ⟨hr, haddr⟩⟩
      case neg =>
        rw [ih (h.wait two hr (not_or.mp haddr))]
        exact ⟨fun hrest => ⟨fun hsp => absurd hsp.2 haddr, hrest⟩, And.right⟩
    | true =>
      obtain ⟨hs, rfl⟩ := Bool.and_eq_true_iff.mp hr
      obtain ⟨haddr, htlast, hnext⟩ := h.take two hs
      have hnot : ¬Spoils last s true := fun hsp => absurd (hr.symm.trans hsp.1) Bool.noConfusion
      rw [shown_of_take hs, List.singleton_append, follows_cons, ih hnext, passes, ← htlast,
        ← haddr]
      exact ⟨fun hall => ⟨fun hsp => absurd hsp hnot, hall.2⟩, fun hall => ⟨rfl, hall.2⟩⟩

/-- A run shows passes of `last + 1` words if and only if nothing is taken after a cycle that
spoils a pass. -/
theorem follows_iff_unspoiled (one : 1 ≤ last.toNat) (rs : List Bool) :
    Follows (passes f (last.toNat + 1)) 0 (words last f .reset rs) ↔ Unspoiled last .reset rs := by
  by_cases two : 2 ≤ last.toNat
  case pos =>
    have hne : (0 : BitVec W) ≠ last := zero_ne one
    have hclean : Clean last 0 (.reset : St W) :=
      .pause rfl (Nat.zero_mod _) ⟨zero_ne_sub_one two, hne⟩
    exact hclean.follows_iff f two rs
  case neg =>
    -- With two words in a pass the first edge marks the first one.
    have hval : (0 : BitVec W).toNat = 0 := BitVec.toNat_zero
    have hzero : (0 : BitVec W) = last - 1 := (BitFields.eq_sub_one_iff one).mpr (by omega)
    cases rs with
    | nil => simp [Unspoiled]
    | cons r rs =>
      have hspoils : Spoils last .reset r := ⟨rfl, .inl hzero⟩
      have hspoilt : Spoilt last 0 (next last .reset r) := by
        rw [next_of_wait hspoils.1]
        exact .early (decide_eq_true (zero_ne one)) hzero (decide_eq_true hzero)
          (by rw [Nat.zero_mod]; omega)
      rw [words_cons, shown_of_wait hspoils.1, List.nil_append, hspoilt.follows_iff f, Unspoiled]
      exact ⟨fun hnil => ⟨fun _ => hnil, unspoiled_of_words_eq_nil hnil⟩, fun h => h.1 hspoils⟩

end Regular

/-! ## Passes that end one word early -/

section Short

variable {last : BitVec W} {s : St W} {k : ℕ} {r : Bool}

/-- The source after `k` words when every pass ends before its last word. -/
inductive Short (last : BitVec W) (k : ℕ) (s : St W) : Prop
  | pause (comp : s.comp = false) (start : k % last.toNat = 0) (addr : s.addr = 0 ∨ s.addr = last)
  | offer (comp : s.comp = true) (addr : s.addr.toNat = k % last.toNat)
      (tlast : s.tlast = true → s.addr = last - 1)
  | withdraw (comp : s.comp = true) (start : k % last.toNat = 0) (addr : s.addr = last)

theorem Short.take (h : Short last k s) (one : 1 ≤ last.toNat) (hs : s.comp = true)
    (hc : Shortened last s true) :
    s.addr = BitVec.ofNat W (k % last.toNat) ∧
      s.tlast = decide (k % last.toNat + 1 = last.toNat) ∧
      Short last (k + 1) (next last s true) := by
  obtain ⟨hlast, hmark⟩ := hc hs rfl
  cases h with
  | pause comp => exact absurd (hs.symm.trans comp) Bool.noConfusion
  | withdraw _ _ addr => exact absurd addr hlast
  | offer _ addr tlast =>
    have hend : s.addr = last - 1 ↔ k % last.toNat + 1 = last.toNat := by
      rw [BitFields.eq_sub_one_iff one, addr]
    have hlt : k % last.toNat < last.toNat := Nat.mod_lt k one
    have hone : (s.addr + 1).toNat = s.addr.toNat + 1 :=
      BitFields.toNat_add_one (by have := last.isLt; omega)
    refine ⟨by rw [← addr, BitVec.ofNat_toNat, BitVec.setWidth_eq], ?_, ?_⟩
    · rw [Bool.eq_iff_iff, decide_eq_true_iff, ← hend]
      exact ⟨tlast, hmark⟩
    rw [next_of_take hs]
    by_cases haddr : s.addr = last - 1
    case pos =>
      have hsucc := Pulses.succ_mod_eq one k
      rw [if_pos (by have := hend.mp haddr; omega)] at hsucc
      exact .withdraw (decide_eq_true hlast) hsucc (by rw [haddr]; exact BitVec.sub_add_cancel _ _)
    case neg =>
      have hsucc := Pulses.succ_mod_eq one k
      rw [if_neg (by have := mt hend.mpr haddr; omega), ← addr] at hsucc
      refine .offer (decide_eq_true hlast) (hone.trans hsucc.symm) fun hmark' => ?_
      exact absurd (of_decide_eq_true hmark') haddr

theorem Short.wait (h : Short last k s) (one : 1 ≤ last.toNat) (hr : (s.comp && r) = false) :
    Short last k (next last s r) := by
  rw [next_of_wait hr]
  cases h with
  | pause comp start addr =>
    rw [comp, if_neg Bool.false_ne_true]
    rcases addr with addr | addr
    · exact .offer (decide_eq_true (addr ▸ zero_ne one)) (by simp [start])
        fun hmark => addr.symm.trans (of_decide_eq_true hmark)
    · exact .pause (decide_eq_false (not_not.mpr addr)) start (.inl rfl)
  | offer comp addr tlast =>
    have hlt : k % last.toNat < last.toNat := Nat.mod_lt k one
    have hlast : s.addr ≠ last := by
      rintro rfl
      omega
    rw [comp, if_pos rfl]
    exact .offer (decide_eq_true hlast) addr of_decide_eq_true
  | withdraw comp start addr =>
    rw [comp, if_pos rfl]
    exact .pause (decide_eq_false (not_not.mpr addr)) start (.inr addr)

theorem Short.follows (h : Short last k s) (one : 1 ≤ last.toNat) {rs : List Bool}
    (hrs : Along (next last) (Shortened last) s rs) (f : BitVec W → β) :
    Follows (passes f last.toNat) k (words last f s rs) := by
  induction rs generalizing k s with
  | nil => exact follows_nil _ _
  | cons r rs ih =>
    obtain ⟨hr, hrs⟩ := hrs
    rw [words_cons]
    cases hgo : s.comp && r with
    | false =>
      rw [shown_of_wait hgo, List.nil_append]
      exact ih (h.wait one hgo) hrs
    | true =>
      obtain ⟨hs, rfl⟩ := Bool.and_eq_true_iff.mp hgo
      obtain ⟨haddr, htlast, hnext⟩ := h.take one hs hr
      rw [shown_of_take hs, List.singleton_append, follows_cons, passes, ← htlast, ← haddr]
      exact ⟨rfl, ih hnext hrs⟩

/-- A run shows passes of `last` words if and only if it is shortened throughout. -/
theorem follows_iff_shortened (one : 1 ≤ last.toNat) (rs : List Bool) :
    Follows (passes id last.toNat) 0 (words last id .reset rs) ↔
      Along (next last) (Shortened last) .reset rs := by
  constructor
  case mp =>
    intro hf
    have hwords : ∀ x ∈ words last id .reset rs,
        x.1 ≠ last ∧ (x.1 = last - 1 → x.2 = true) := by
      intro x hx
      obtain ⟨j, hj⟩ := List.mem_iff_getElem?.mp hx
      have hlt : (0 + j) % last.toNat < last.toNat := Nat.mod_lt _ one
      have hnum : (BitVec.ofNat W ((0 + j) % last.toNat)).toNat = (0 + j) % last.toNat := by
        rw [BitVec.toNat_ofNat, Nat.mod_eq_of_lt (hlt.trans last.isLt)]
      rw [hf j x hj]
      constructor
      · intro heq
        have hval := congrArg BitVec.toNat heq
        rw [passes, id_eq, hnum] at hval
        omega
      · intro heq
        rw [passes, id_eq, BitFields.eq_sub_one_iff one, hnum] at heq
        exact decide_eq_true heq
    refine (forall_collect_iff.mp hwords).mono fun s r hr hs hgo => ?_
    obtain rfl := hgo
    exact hr _ (by rw [shown_of_take hs]; exact List.mem_singleton.mpr rfl)
  case mpr =>
    intro hrs
    exact Short.follows (.pause rfl (Nat.zero_mod _) (.inl rfl)) one hrs id

end Short

/-! ## Passes of any length -/

section Lengths

variable {last : BitVec W}

/-- The last word has the mark, and no word before the last two has it. -/
structure Marked (last : BitVec W) (s : St W) : Prop where
  end_marked : s.comp = true → s.addr = last → s.tlast = true
  mark_late : s.comp = true → s.tlast = true → s.addr = last ∨ s.addr = last - 1
  pause : s.comp = false → s.addr = last - 1 → last - 1 = 0

theorem Marked.next (one : 1 ≤ last.toNat) {s : St W} (h : Marked last s) (r : Bool) :
    Marked last (next last s r) := by
  have hne : last - 1 ≠ last := sub_one_ne one
  cases hr : s.comp && r with
  | true =>
    obtain ⟨hs, rfl⟩ := Bool.and_eq_true_iff.mp hr
    rw [next_of_take hs]
    refine ⟨fun _ haddr => ?_, fun _ hmark => .inl ?_, fun hcomp haddr => ?_⟩
    · exact decide_eq_true (BitVec.eq_sub_iff_add_eq.mpr haddr)
    · exact BitVec.eq_sub_iff_add_eq.mp (of_decide_eq_true hmark)
    · obtain rfl := not_not.mp (of_decide_eq_false hcomp)
      by_contra hzero
      have htwo : 2 ≤ s.addr.toNat := by
        by_contra hlt
        have hval : (0 : BitVec W).toNat = 0 := BitVec.toNat_zero
        exact hzero ((BitFields.eq_sub_one_iff one).mpr (by omega)).symm
      exact (add_one_away htwo).1 haddr
  | false =>
    rw [next_of_wait hr]
    cases hs : s.comp with
    | true =>
      rw [if_pos rfl]
      refine ⟨fun hcomp haddr => ?_, fun _ hmark => .inr (of_decide_eq_true hmark),
        fun hcomp haddr => ?_⟩
      · exact absurd haddr (of_decide_eq_true hcomp)
      · exact absurd (haddr.symm.trans (not_not.mp (of_decide_eq_false hcomp))) hne
    | false =>
      rw [if_neg Bool.false_ne_true]
      refine ⟨fun _ haddr => absurd haddr (zero_ne one), fun _ hmark => .inr ?_,
        fun _ haddr => haddr.symm⟩
      exact (h.pause hs (of_decide_eq_true hmark)).symm

theorem marked_words (one : 1 ≤ last.toNat) {rs : List Bool} {a : BitVec W} {t : Bool}
    (h : (a, t) ∈ words last id .reset rs) :
    (a = last → t = true) ∧ (t = true → a = last ∨ a = last - 1) := by
  have hmarked : Along (next last) (fun s _ => Marked last s ∧ True) (.reset : St W) rs :=
    Along.strengthen (along_of_forall (next last) .reset fun _ _ => trivial)
      ⟨fun h => Bool.noConfusion h, fun h => Bool.noConfusion h, fun _ h => h.symm⟩
      fun s r h _ => h.next one r
  refine hmarked.forall_collect (Q := fun x : BitVec W × Bool => (x.1 = last → x.2 = true) ∧
    (x.2 = true → x.1 = last ∨ x.1 = last - 1)) (fun s r h x hx => ?_) _ h
  cases hr : s.comp && r with
  | false =>
    rw [shown_of_wait hr] at hx
    simp at hx
  | true =>
    obtain ⟨hs, rfl⟩ := Bool.and_eq_true_iff.mp hr
    rw [shown_of_take hs] at hx
    obtain rfl := List.mem_singleton.mp hx
    exact ⟨h.1.end_marked hs, h.1.mark_late hs⟩

theorem passes_of_lt (f : BitVec W → β) {N j : ℕ} (h : j + 1 < N) :
    passes f N j = (f (BitVec.ofNat W j), false) := by
  rw [passes, Nat.mod_eq_of_lt (by omega), decide_eq_false (by omega)]

/-- A run that shows passes of some other length ends before the last word of the first pass,
and then any greater length will do. -/
theorem length_cases (one : 1 ≤ last.toNat) {N : ℕ} (hN : 1 ≤ N) (rs : List Bool)
    (h : Follows (passes id N) 0 (words last id .reset rs)) :
    N = last.toNat ∨ Follows (passes id (last.toNat + 1)) 0 (words last id .reset rs) := by
  have hword : ∀ j < (words last id .reset rs).length,
      passes id N j ∈ words last id .reset rs := by
    intro j hj
    have hmem := List.getElem_mem hj
    rwa [h j _ (List.getElem?_eq_getElem hj), Nat.zero_add] at hmem
  have hshort : (words last id .reset rs).length < N →
      (words last id .reset rs).length ≤ last.toNat →
      Follows (passes id (last.toNat + 1)) 0 (words last id .reset rs) := by
    intro hlt hle j x hx
    have hj := (List.getElem?_eq_some_iff.mp hx).1
    rw [h j x hx, Nat.zero_add, passes_of_lt id (by omega), passes_of_lt id (by omega)]
  rcases Nat.lt_trichotomy N last.toNat with hlt | heq | hgt
  · have hfew : (words last id .reset rs).length < N := by
      by_contra hmany
      have hval : (BitVec.ofNat W (N - 1)).toNat = N - 1 := by
        rw [BitVec.toNat_ofNat, Nat.mod_eq_of_lt (by have := last.isLt; omega)]
      have hmem := hword (N - 1) (by omega)
      rw [passes, Nat.mod_eq_of_lt (by omega), id_eq] at hmem
      rcases (marked_words one hmem).2 (decide_eq_true (by omega)) with hend | hend
      · have := congrArg BitVec.toNat hend
        omega
      · have := (BitFields.eq_sub_one_iff one).mp hend
        omega
    exact .inr (hshort hfew (by omega))
  · exact .inl heq
  · rcases Nat.eq_or_lt_of_le (Nat.succ_le_of_lt hgt) with rfl | hgt
    · exact .inr h
    · refine .inr (hshort ?_ ?_) <;> by_contra hmany
      all_goals
        have hmem := hword last.toNat (by omega)
        rw [passes_of_lt id hgt, BitVec.ofNat_toNat, BitVec.setWidth_eq] at hmem
        exact Bool.noConfusion ((marked_words one hmem).1 rfl)

/-- Some length makes passes of what a run shows if and only if nothing is taken after a cycle
that spoils a pass, or the run is shortened throughout. -/
theorem exists_length_iff (one : 1 ≤ last.toNat) (rs : List Bool) :
    (∃ N ≥ 1, Follows (passes id N) 0 (words last id .reset rs)) ↔
      Unspoiled last .reset rs ∨ Along (next last) (Shortened last) .reset rs := by
  rw [← follows_iff_unspoiled id one, ← follows_iff_shortened one]
  constructor
  case mp =>
    rintro ⟨N, hN, h⟩
    rcases length_cases one hN rs h with rfl | h
    · exact .inr h
    · exact .inl h
  case mpr =>
    rintro (h | h)
    · exact ⟨_, Nat.le_add_left 1 _, h⟩
    · exact ⟨_, one, h⟩

end Lengths

end LagoEcosystem.Sweep
