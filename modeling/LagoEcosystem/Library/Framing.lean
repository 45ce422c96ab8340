import Mathlib.Data.List.Forall2
import Mathlib.Data.Set.Insert

/-!
# Streams of blocks

A *layout* lists, place by place, the words that may stand there; a block conforms to a
layout when it has one word for each place. A stream over a set of layouts is cut
anywhere in a sequence of blocks. `Closed` and `Inside` say where a sender stands, between
two blocks or a number of words into one, and the rules follow it word by word.
-/

namespace LagoEcosystem.Framing

variable {α : Type*} {S : Set (List (Set α))} {L : List (Set α)} {s : Set α} {w : α}
  {ws vs : List α} {k : ℕ}

/-- The block `b` has one word for each place of the layout `L`. -/
def Conforms (b : List α) (L : List (Set α)) : Prop := List.Forall₂ (fun w s => w ∈ s) b L

/-- The words `ws` are a prefix of a concatenation of blocks, each of which conforms to a
layout of `S`. -/
def Stream (S : Set (List (Set α))) (ws : List α) : Prop :=
  ∃ bs : List (List α), (∀ b ∈ bs, ∃ L ∈ S, Conforms b L) ∧ ws <+: bs.flatten

/-- The words `ws` are a sequence of whole blocks. -/
def Closed (S : Set (List (Set α))) (ws : List α) : Prop :=
  ∃ bs : List (List α), (∀ b ∈ bs, ∃ L ∈ S, Conforms b L) ∧ ws = bs.flatten

/-- The words `ws` are a sequence of whole blocks and the first `k` words of one with
layout `L`. -/
def Inside (S : Set (List (Set α))) (L : List (Set α)) (k : ℕ) (ws : List α) : Prop :=
  k ≤ L.length ∧ ∃ vs p, Closed S vs ∧ Conforms p (L.take k) ∧ ws = vs ++ p

theorem Stream.of_isPrefix (h : Stream S vs) (hp : ws <+: vs) : Stream S ws := by
  obtain ⟨bs, hbs, hvs⟩ := h
  exact ⟨bs, hbs, hp.trans hvs⟩

theorem closed_nil : Closed S ([] : List α) := ⟨[], by simp, rfl⟩

theorem Closed.append_block (h : Closed S ws) (hL : L ∈ S) (hb : Conforms vs L) :
    Closed S (ws ++ vs) := by
  obtain ⟨bs, hbs, rfl⟩ := h
  refine ⟨bs ++ [vs], ?_, by simp⟩
  intro b hb'
  rcases List.mem_append.mp hb' with hb' | hb'
  · exact hbs b hb'
  · exact ⟨L, hL, (List.mem_singleton.mp hb') ▸ hb⟩

/-- A sender between two blocks may start any of them. -/
theorem Closed.start (h : Closed S ws) (L : List (Set α)) : Inside S L 0 ws :=
  ⟨by simp, ws, [], h, by simp [Conforms], by simp⟩

theorem Inside.push (h : Inside S L k ws) (hs : L[k]? = some s) (hw : w ∈ s) :
    Inside S L (k + 1) (ws ++ [w]) := by
  obtain ⟨-, vs, p, hvs, hp, rfl⟩ := h
  obtain ⟨hk, rfl⟩ := List.getElem?_eq_some_iff.mp hs
  refine ⟨hk, vs, p ++ [w], hvs, ?_, by simp⟩
  rw [Conforms, List.take_succ_eq_append_getElem hk]
  exact List.rel_append hp (.cons hw .nil)

/-- The last word of a block closes it. -/
theorem Inside.close (h : Inside S L k ws) (hL : L ∈ S) (hk : k = L.length) : Closed S ws := by
  obtain ⟨-, vs, p, hvs, hp, rfl⟩ := h
  subst hk
  rw [List.take_length] at hp
  exact hvs.append_block hL hp

theorem Closed.stream (h : Closed S ws) : Stream S ws := by
  obtain ⟨bs, hbs, rfl⟩ := h
  exact ⟨bs, hbs, List.prefix_refl _⟩

/-- A layout without an empty place has a block. -/
theorem exists_conforms (hne : ∀ s ∈ L, s.Nonempty) : ∃ b, Conforms b L := by
  induction L with
  | nil => exact ⟨[], .nil⟩
  | cons s L ih =>
    obtain ⟨w, hw⟩ := hne s (by simp)
    obtain ⟨b, hb⟩ := ih fun t ht => hne t (by simp [ht])
    exact ⟨w :: b, .cons hw hb⟩

/-- A block that was begun can be completed, so the words sent so far are a stream. -/
theorem Inside.stream (h : Inside S L k ws) (hL : L ∈ S) (hne : ∀ s ∈ L, s.Nonempty) :
    Stream S ws := by
  obtain ⟨-, vs, p, hvs, hp, rfl⟩ := h
  obtain ⟨q, hq⟩ := exists_conforms (L := L.drop k) fun s hs => hne s (List.mem_of_mem_drop hs)
  have hb : Conforms (p ++ q) L := by
    rw [Conforms, ← List.take_append_drop k L]
    exact List.rel_append hp hq
  refine (hvs.append_block hL hb).stream.of_isPrefix ?_
  simp

/-- A stream of items, each of which is sent as a word. -/
theorem Stream.map {β : Type*} {T : Set (List (Set β))} {its : List β} (h : Stream T its) (f : β → α)
    (hT : ∀ M ∈ T, ∃ L ∈ S, List.Forall₂ (Set.MapsTo f) M L) : Stream S (its.map f) := by
  obtain ⟨bs, hbs, hp⟩ := h
  refine ⟨bs.map (List.map f), ?_, by rw [← List.map_flatten]; exact hp.map f⟩
  intro b hb
  obtain ⟨c, hc, rfl⟩ := List.mem_map.mp hb
  obtain ⟨M, hM, hconf⟩ := hbs c hc
  obtain ⟨L, hL, hmaps⟩ := hT M hM
  refine ⟨L, hL, ?_⟩
  clear hM hL hb hc
  induction hconf generalizing L with
  | nil =>
    cases hmaps
    exact .nil
  | cons hw _ ih =>
    cases hmaps with
    | cons hfw hrest => exact .cons (hfw hw) (ih _ hrest)

/-- The first two words of a stream are the first two of one block, where no layout is
shorter than that. -/
theorem Stream.first_two {u v : α} (h : Stream S (u :: v :: ws)) (hS : ∀ L ∈ S, 2 ≤ L.length) :
    ∃ s t L, s :: t :: L ∈ S ∧ u ∈ s ∧ v ∈ t := by
  obtain ⟨bs, hbs, hp⟩ := h
  cases bs with
  | nil => simp at hp
  | cons b bs =>
    obtain ⟨L, hL, hb⟩ := hbs b (by simp)
    have hlen := hS L hL
    cases hb with
    | nil => simp at hlen
    | @cons x s b L hx hb =>
      cases hb with
      | nil => simp at hlen
      | @cons y t b L hy hb =>
        simp only [List.flatten_cons, List.cons_append, List.cons_prefix_cons] at hp
        obtain ⟨rfl, rfl, -⟩ := hp
        exact ⟨s, t, L, hL, hx, hy⟩

end LagoEcosystem.Framing
