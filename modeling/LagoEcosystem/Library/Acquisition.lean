import LagoEcosystem.Library.Clocked
import Mathlib.Data.Option.Basic

/-!
# Acquisitions

A machine that works through acquisitions: one begins when the machine leaves its idle state
and ends when it is idle again, and in between its settings must not change. `Tracked` runs
the machine beside the settings of the acquisition and a record of what it has taken in. The
rule at the end turns an invariant for fixed settings into a fact about every run in which
the settings stay.
-/

namespace LagoEcosystem.Acquisition

open Clocked

variable {σ ι κ ρ : Type*}

structure Machine (σ ι κ ρ : Type*) where
  step : σ → ι → σ
  idle : σ → Bool
  settings : ι → κ
  record : σ → ι → ρ → ρ

/-- The settings are there once one cycle of the acquisition has passed. -/
structure Tracked (σ κ ρ : Type*) where
  st : σ
  settings : Option κ
  record : ρ

def Machine.track (m : Machine σ ι κ ρ) (t : Tracked σ κ ρ) (i : ι) : Tracked σ κ ρ where
  st := m.step t.st i
  settings := if m.idle t.st then none else some (m.settings i)
  record := m.record t.st i t.record

/-- During an acquisition the settings are valid and stay. -/
def Machine.Steady (m : Machine σ ι κ ρ) (Valid : κ → Prop) (t : Tracked σ κ ρ) (i : ι) : Prop :=
  m.idle t.st = false → Valid (m.settings i) ∧ ∀ c ∈ t.settings, c = m.settings i

instance (m : Machine σ ι κ ρ) (Valid : κ → Prop) [DecidablePred Valid] [DecidableEq κ]
    (t : Tracked σ κ ρ) (i : ι) : Decidable (m.Steady Valid t i) :=
  inferInstanceAs (Decidable (_ → _ ∧ _))

/-- An invariant that the steps of a machine carry through its acquisitions: `Rest` holds of the
machine at rest and `Body` in an acquisition with given settings. `C` is what every input
meets. -/
structure Machine.Carries (m : Machine σ ι κ ρ) (Valid : κ → Prop) (C : ι → Prop)
    (Rest : σ → Prop) (Body : κ → σ → ρ → Prop) : Prop where
  stay : ∀ s i, C i → m.idle s = true → Rest s → m.idle (m.step s i) = true → Rest (m.step s i)
  enter : ∀ c s i r, Valid c → C i → m.idle s = true → Rest s →
    Body c (m.step s i) (m.record s i r)
  next : ∀ s i r, Valid (m.settings i) → C i → m.idle s = false → Body (m.settings i) s r →
    Body (m.settings i) (m.step s i) (m.record s i r)
  leave : ∀ c s r, m.idle s = true → Body c s r → Rest s

/-- The invariant of a run: in an acquisition the settings seen are valid, and the acquisition
meets its invariant for whatever settings agree with them. -/
structure Machine.Inv (m : Machine σ ι κ ρ) (Valid : κ → Prop) (Rest : σ → Prop)
    (Body : κ → σ → ρ → Prop) (t : Tracked σ κ ρ) : Prop where
  rest : m.idle t.st = true → Rest t.st
  valid : m.idle t.st = false → ∀ c ∈ t.settings, Valid c
  body : m.idle t.st = false → ∀ c, Valid c → (∀ d ∈ t.settings, d = c) → Body c t.st t.record

variable {m : Machine σ ι κ ρ} {Valid : κ → Prop} {C : ι → Prop} {Rest : σ → Prop}
  {Body : κ → σ → ρ → Prop}

theorem Machine.inv_start {s₀ : σ} (h₀ : m.idle s₀ = true) (hrest : Rest s₀) (r₀ : ρ) :
    m.Inv Valid Rest Body ⟨s₀, none, r₀⟩ :=
  ⟨fun _ => hrest, by simp, by simp [h₀]⟩

theorem Machine.Carries.inv_track (hm : m.Carries Valid C Rest Body) {t : Tracked σ κ ρ} {i : ι}
    (h : m.Inv Valid Rest Body t) (hC : C i) (hi : m.Steady Valid t i) :
    m.Inv Valid Rest Body (m.track t i) := by
  cases hst : m.idle t.st with
  | true =>
    have hset : (m.track t i).settings = none := by simp [track, hst]
    refine ⟨hm.stay t.st i hC hst (h.rest hst), fun _ => by simp [hset], fun _ c hc _ => ?_⟩
    exact hm.enter c t.st i t.record hc hC hst (h.rest hst)
  | false =>
    obtain ⟨hvalid, hsame⟩ := hi hst
    have hset : (m.track t i).settings = some (m.settings i) := by simp [track, hst]
    have hbody : Body (m.settings i) (m.track t i).st (m.track t i).record :=
      hm.next t.st i t.record hvalid hC hst (h.body hst _ hvalid hsame)
    refine ⟨fun hend => hm.leave _ _ _ hend hbody, fun _ => ?_, fun _ c _ hd => ?_⟩
    · rw [hset]
      rintro c ⟨⟩
      exact hvalid
    · rw [hset] at hd
      obtain rfl := hd _ rfl
      exact hbody

theorem Machine.Carries.inv_run (hm : m.Carries Valid C Rest Body) {s₀ : σ}
    (h₀ : m.idle s₀ = true) (hrest : Rest s₀) (r₀ : ρ) {is : List ι}
    (his : Along m.track (fun t i => C i ∧ m.Steady Valid t i) ⟨s₀, none, r₀⟩ is) :
    m.Inv Valid Rest Body (run m.track ⟨s₀, none, r₀⟩ is) :=
  his.invariant (Machine.inv_start h₀ hrest r₀) fun _ _ h hi => hm.inv_track h hi.1 hi.2

/-- A state that is never entered from the idle one has settings. -/
theorem Machine.settings_of_done (Done : σ → Prop) (hdone : ∀ s, Done s → m.idle s = false)
    (henter : ∀ s i, C i → m.idle s = true → ¬Done (m.step s i))
    {s₀ : σ} (h₀ : m.idle s₀ = true) (r₀ : ρ) {is : List ι}
    (his : Along m.track (fun t i => C i ∧ m.Steady Valid t i) ⟨s₀, none, r₀⟩ is)
    (hend : Done (run m.track ⟨s₀, none, r₀⟩ is).st) :
    ∃ c, c ∈ (run m.track ⟨s₀, none, r₀⟩ is).settings := by
  refine Option.isSome_iff_exists.mp (his.invariant
    (P := fun t => Done t.st → t.settings.isSome) (fun hd => ?_) (fun t i _ hi hd => ?_) hend)
  · exact absurd h₀ (by simp [hdone s₀ hd])
  · cases hst : m.idle t.st with
    | true => exact absurd hd (henter t.st i hi.1 hst)
    | false => simp [track, hst]

/-- The rule for acquisitions: in a state that is never entered from the idle one the invariant
holds for the settings seen. -/
theorem Machine.Carries.body_of_done (hm : m.Carries Valid C Rest Body) (Done : σ → Prop)
    (hdone : ∀ s, Done s → m.idle s = false)
    (henter : ∀ s i, C i → m.idle s = true → ¬Done (m.step s i))
    {s₀ : σ} (h₀ : m.idle s₀ = true) (hrest : Rest s₀) (r₀ : ρ) {is : List ι}
    (his : Along m.track (fun t i => C i ∧ m.Steady Valid t i) ⟨s₀, none, r₀⟩ is)
    (hend : Done (run m.track ⟨s₀, none, r₀⟩ is).st) :
    ∃ c ∈ (run m.track ⟨s₀, none, r₀⟩ is).settings, Valid c ∧
      Body c (run m.track ⟨s₀, none, r₀⟩ is).st (run m.track ⟨s₀, none, r₀⟩ is).record := by
  have hinv := hm.inv_run h₀ hrest r₀ his
  obtain ⟨c, hc⟩ := Machine.settings_of_done Done hdone henter h₀ r₀ his hend
  have hbusy := hdone _ hend
  have hvalid := hinv.valid hbusy c hc
  exact ⟨c, hc, hvalid, hinv.body hbusy c hvalid fun _ hd => Option.mem_unique hd hc⟩

end LagoEcosystem.Acquisition
