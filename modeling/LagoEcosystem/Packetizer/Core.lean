import LagoEcosystem.Library.Pulses
import LagoEcosystem.Library.BitFields

/-!
# The packetizer

`axis_packetizer`, which passes a stream on and marks the last word of every packet. Only a
full handshake moves the counter and the enable flag; the handshake itself and the mark are
combinational. `cfg_data` holds the number of words of a packet less one.
-/

namespace LagoEcosystem.Packetizer

/-- The input ports; `D` is `AXIS_TDATA_WIDTH` and `W` is `CNTR_WIDTH`. -/
structure In (D W : ℕ) where
  aresetn : Bool
  cfgData : BitVec W
  sAxisTdata : BitVec D
  sAxisTvalid : Bool
  mAxisTready : Bool

structure St (W : ℕ) where
  intCntr : BitVec W
  intEnbl : Bool
  deriving DecidableEq

/-- The output ports. -/
structure Out (D : ℕ) where
  sAxisTready : Bool
  mAxisTdata : BitVec D
  mAxisTvalid : Bool
  mAxisTlast : Bool

variable {D W : ℕ}

def St.intCompWire (s : St W) (i : In D W) : Bool := decide (s.intCntr.toNat < i.cfgData.toNat)

def St.intTvalidWire (s : St W) (i : In D W) : Bool := s.intEnbl && i.sAxisTvalid

def St.intTlastWire (s : St W) (i : In D W) : Bool := !s.intCompWire i

/-- `CONTINUOUS_G` and `STOP_G`. -/
def St.intCntrNext (continuous : Bool) (s : St W) (i : In D W) : BitVec W :=
  match continuous with
  | true =>
    if i.mAxisTready && s.intTvalidWire i && s.intCompWire i then s.intCntr + 1
    else if i.mAxisTready && s.intTvalidWire i && s.intTlastWire i then 0
    else s.intCntr
  | false =>
    if i.mAxisTready && s.intTvalidWire i && s.intCompWire i then s.intCntr + 1
    else s.intCntr

def St.intEnblNext (continuous : Bool) (s : St W) (i : In D W) : Bool :=
  match continuous with
  | true => if !s.intEnbl && s.intCompWire i then true else s.intEnbl
  | false =>
    if !s.intEnbl && s.intCompWire i then true
    else if i.mAxisTready && s.intTvalidWire i && s.intTlastWire i then false
    else s.intEnbl

/-- The registers after a clock edge with `aresetn` low. -/
def St.reset : St W := ⟨0, false⟩

def step (continuous : Bool) (s : St W) (i : In D W) : St W :=
  if i.aresetn then ⟨s.intCntrNext continuous i, s.intEnblNext continuous i⟩ else .reset

def St.out (s : St W) (i : In D W) : Out D where
  sAxisTready := s.intEnbl && i.mAxisTready
  mAxisTdata := i.sAxisTdata
  mAxisTvalid := s.intTvalidWire i
  mAxisTlast := s.intEnbl && s.intTlastWire i

/-! ## The two sides -/

/-- The word that the slave side accepts in a cycle. -/
def accepted (s : St W) (i : In D W) : List (BitVec D) :=
  if i.sAxisTvalid && (s.out i).sAxisTready then [i.sAxisTdata] else []

/-- The word that the master side hands over in a cycle, with its `tlast`. -/
def transferred (s : St W) (i : In D W) : List (BitVec D × Bool) :=
  if (s.out i).mAxisTvalid && i.mAxisTready then [((s.out i).mAxisTdata, (s.out i).mAxisTlast)]
  else []

/-- What the neighbours of the packetizer do in a cycle. -/
structure Beat (D : ℕ) where
  tdata : BitVec D
  tvalid : Bool
  tready : Bool

/-- A cycle outside the reset. -/
def Beat.toIn (cfgData : BitVec W) (b : Beat D) : In D W :=
  ⟨true, cfgData, b.tdata, b.tvalid, b.tready⟩

/-- Both neighbours are ready for a transfer. -/
def Beat.offer (b : Beat D) : Option (BitVec D) :=
  if b.tvalid && b.tready then some b.tdata else none

/-- The words that could be transferred. The first cycle after the reset is used up by the
enable flag. -/
def offered (bs : List (Beat D)) : List (BitVec D) := bs.tail.filterMap Beat.offer

theorem step_reset (continuous : Bool) (s : St W) {i : In D W} (h : i.aresetn = false) :
    step continuous s i = .reset := by
  simp [step, h]

/-- One handshake serves both sides. -/
theorem accepted_eq_map (s : St W) (i : In D W) :
    accepted s i = (transferred s i).map Prod.fst := by
  cases hv : i.sAxisTvalid <;> cases hr : i.mAxisTready <;> cases he : s.intEnbl <;>
    simp [accepted, transferred, St.out, St.intTvalidWire, hv, hr, he]

section Run

variable {continuous : Bool} {cfg : BitVec W} {s : St W} {b : Beat D}

/-- The first cycle after the reset enables the core. -/
theorem step_first (continuous : Bool) (b : Beat D) (hcfg : 1 ≤ cfg.toNat) :
    step continuous .reset (b.toIn cfg) = ⟨0, true⟩ ∧ transferred .reset (b.toIn cfg) = [] := by
  have hpos : 0 < cfg.toNat := hcfg
  cases continuous <;>
    simp [step, transferred, St.out, St.reset, St.intCntrNext, St.intEnblNext, St.intCompWire,
      St.intTvalidWire, Beat.toIn, hpos]

theorem Beat.offer_eq_some {d : BitVec D} : b.offer = some d ↔ b = ⟨d, true, true⟩ := by
  obtain ⟨x, v, r⟩ := b
  cases v <;> cases r <;> simp [offer]

theorem Beat.offer_eq_none : b.offer = none ↔ b.tvalid = false ∨ b.tready = false := by
  obtain ⟨x, v, r⟩ := b
  cases v <;> cases r <;> simp [offer]

/-- Without an offer nothing moves. -/
theorem step_idle (hs : s.intEnbl = true) (hb : b.offer = none) :
    step continuous s (b.toIn cfg) = s ∧ transferred s (b.toIn cfg) = [] := by
  obtain ⟨cnt, enbl⟩ := s
  subst hs
  rcases Beat.offer_eq_none.mp hb with h | h <;> cases continuous <;>
    simp [step, transferred, St.out, St.intCntrNext, St.intEnblNext, St.intTvalidWire,
      Beat.toIn, h]

/-- An offer is taken while the core is enabled, and `tlast` compares the counter. -/
theorem transferred_offer {d : BitVec D} (hs : s.intEnbl = true) (hb : b.offer = some d) :
    transferred s (b.toIn cfg) = [(d, decide (cfg.toNat ≤ s.intCntr.toNat))] := by
  obtain rfl := Beat.offer_eq_some.mp hb
  have hout : transferred s (Beat.toIn cfg ⟨d, true, true⟩) =
      [(d, !decide (s.intCntr.toNat < cfg.toNat))] := by
    simp only [transferred, St.out, St.intTvalidWire, hs, Bool.true_and, Beat.toIn, if_true]
    rfl
  simp only [hout, ← decide_not, Nat.not_lt]

/-- Inside a packet an offer moves the counter. -/
theorem step_inside {d : BitVec D} (hs : s.intEnbl = true) (hb : b.offer = some d)
    (hlt : s.intCntr.toNat < cfg.toNat) :
    step continuous s (b.toIn cfg) = ⟨s.intCntr + 1, true⟩ := by
  obtain rfl := Beat.offer_eq_some.mp hb
  cases continuous <;>
    simp [step, St.intCntrNext, St.intEnblNext, St.intTvalidWire, St.intTlastWire,
      St.intCompWire, Beat.toIn, hs, hlt]

/-- On the last word of a packet the counter starts again, or the core stops. -/
theorem step_last {d : BitVec D} (hs : s.intEnbl = true) (hb : b.offer = some d)
    (hge : cfg.toNat ≤ s.intCntr.toNat) :
    step continuous s (b.toIn cfg) = if continuous then ⟨0, true⟩ else ⟨s.intCntr, false⟩ := by
  obtain rfl := Beat.offer_eq_some.mp hb
  have hnot : ¬s.intCntr.toNat < cfg.toNat := Nat.not_lt.mpr hge
  cases continuous <;>
    simp [step, St.intCntrNext, St.intEnblNext, St.intTvalidWire, St.intTlastWire,
      St.intCompWire, Beat.toIn, hs, hnot]

/-- A core that has stopped stays so and hands nothing over. -/
theorem step_stopped (hs : s.intEnbl = false) (hge : cfg.toNat ≤ s.intCntr.toNat) :
    step false s (b.toIn cfg) = s ∧ transferred s (b.toIn cfg) = [] := by
  obtain ⟨cnt, enbl⟩ := s
  subst hs
  have hnot : ¬cnt.toNat < cfg.toNat := Nat.not_lt.mpr hge
  simp [step, transferred, St.out, St.intCntrNext, St.intEnblNext, St.intTvalidWire,
    St.intCompWire, Beat.toIn, hnot]

end Run

/-! ## The packets -/

open Clocked

/-- Everything accepted is handed over in the same cycle. -/
theorem collect_accepted (continuous : Bool) (s : St W) (is : List (In D W)) :
    collect (step continuous) accepted s is =
      (collect (step continuous) transferred s is).map Prod.fst :=
  (along_of_forall (step continuous) s (K := fun _ => True) fun _ _ => trivial).collect_eq_map
    accepted fun s i _ => accepted_eq_map s i

/-- An offer in the continuous mode. -/
theorem step_continuous {cfg : BitVec W} {s : St W} {b : Beat D} {d : BitVec D} {n : ℕ}
    (hs : s.intEnbl = true) (hb : b.offer = some d) (hn : s.intCntr.toNat = n % (cfg.toNat + 1)) :
    (step true s (b.toIn cfg)).intEnbl = true ∧
      (step true s (b.toIn cfg)).intCntr.toNat = (n + 1) % (cfg.toNat + 1) ∧
      transferred s (b.toIn cfg) = [(d, decide ((cfg.toNat + 1) ∣ n + 1))] := by
  have hpos : 0 < cfg.toNat + 1 := by omega
  have hlt : n % (cfg.toNat + 1) < cfg.toNat + 1 := Nat.mod_lt n hpos
  have hsucc := Pulses.succ_mod_eq hpos n
  have hmark : cfg.toNat ≤ n % (cfg.toNat + 1) ↔ (cfg.toNat + 1) ∣ n + 1 := by
    rw [Pulses.dvd_succ_iff hpos]
    omega
  refine and_assoc.mp ⟨?_, by simp only [transferred_offer hs hb, hn, hmark]⟩
  by_cases hin : n % (cfg.toNat + 1) < cfg.toNat
  case pos =>
    have hfit : s.intCntr.toNat + 1 < 2 ^ W := by have := cfg.isLt; omega
    rw [step_inside hs hb (by omega), hsucc, if_neg (by omega)]
    exact ⟨rfl, by rw [BitFields.toNat_add_one hfit, hn]⟩
  case neg =>
    rw [step_last hs hb (by omega), if_pos rfl, hsucc, if_pos (by omega)]
    exact ⟨rfl, rfl⟩

/-- In the continuous mode the counter holds the number of words since the last mark. -/
theorem collect_continuous (cfg : BitVec W) (bs : List (Beat D)) (n : ℕ) {s : St W}
    (hs : s.intEnbl = true) (hn : s.intCntr.toNat = n % (cfg.toNat + 1)) :
    collect (step true) transferred s (bs.map (Beat.toIn cfg)) =
      (bs.filterMap Beat.offer).mapIdx
        fun k d => (d, decide ((cfg.toNat + 1) ∣ n + k + 1)) := by
  refine collect_numbered (P := fun n s => s.intEnbl = true ∧ s.intCntr.toNat = n % (cfg.toNat + 1))
    (Beat.toIn cfg) (fun n d => (d, decide ((cfg.toNat + 1) ∣ n + 1))) ?_ ?_ ⟨hs, hn⟩ bs
  · rintro n s b ⟨hs, hn⟩ hb
    obtain ⟨hstep, hout⟩ := step_idle hs hb
    rw [hstep]
    exact ⟨⟨hs, hn⟩, hout⟩
  · rintro n s b d ⟨hs, hn⟩ hb
    obtain ⟨henbl, hcntr, hout⟩ := step_continuous hs hb hn
    exact ⟨⟨henbl, hcntr⟩, hout⟩

/-- A core that has stopped hands nothing over. -/
theorem collect_stopped {cfg : BitVec W} (bs : List (Beat D)) {s : St W}
    (hs : s.intEnbl = false) (hge : cfg.toNat ≤ s.intCntr.toNat) :
    collect (step false) transferred s (bs.map (Beat.toIn cfg)) = [] := by
  induction bs with
  | nil => rfl
  | cons b bs ih =>
    obtain ⟨hstep, hout⟩ := step_stopped (b := b) hs hge
    rw [List.map_cons, collect_cons, hstep, hout, ih]
    rfl

/-- In the stop mode the counter holds the number of words transferred. -/
theorem collect_stop (cfg : BitVec W) (bs : List (Beat D)) (n : ℕ) {s : St W}
    (hs : s.intEnbl = true) (hn : s.intCntr.toNat = n) (hle : n ≤ cfg.toNat) :
    collect (step false) transferred s (bs.map (Beat.toIn cfg)) =
      ((bs.filterMap Beat.offer).take (cfg.toNat + 1 - n)).mapIdx
        fun k d => (d, decide (n + k = cfg.toNat)) := by
  induction bs generalizing n s with
  | nil => simp
  | cons b bs ih =>
    rw [List.map_cons, collect_cons]
    cases hb : b.offer with
    | none =>
      obtain ⟨hstep, hout⟩ := step_idle hs hb
      rw [hstep, hout, List.filterMap_cons_none hb, List.nil_append]
      exact ih n hs hn hle
    | some d =>
      rw [transferred_offer hs hb, List.filterMap_cons_some hb, hn,
        show cfg.toNat + 1 - n = cfg.toNat - n + 1 by omega, List.take_succ_cons,
        List.mapIdx_cons, List.singleton_append, List.cons.injEq]
      have hmark : cfg.toNat ≤ n ↔ n + 0 = cfg.toNat := by omega
      refine ⟨by simp only [hmark], ?_⟩
      by_cases hlt : n < cfg.toNat
      case pos =>
        have hfit : s.intCntr.toNat + 1 < 2 ^ W := by have := cfg.isLt; omega
        rw [step_inside hs hb (by omega)]
        rw [ih (n + 1) rfl (by rw [BitFields.toNat_add_one hfit, hn]) hlt,
          show cfg.toNat + 1 - (n + 1) = cfg.toNat - n by omega]
        congr 1
        funext k d
        rw [show n + 1 + k = n + (k + 1) by omega]
      case neg =>
        have hend : cfg.toNat - n = 0 := by omega
        rw [step_last hs hb (by omega), if_neg Bool.false_ne_true,
          collect_stopped bs rfl (by simp only [hn]; omega), hend]
        rfl

/-- The law of the packetizer: what comes in goes out, and the marks stand at the ends of
the packets. In the stop mode there is one packet. -/
theorem packetizer_law (cfg : BitVec W) (hcfg : 1 ≤ cfg.toNat) (bs : List (Beat D)) :
    (∀ continuous, collect (step continuous) accepted .reset (bs.map (Beat.toIn cfg)) =
      (collect (step continuous) transferred .reset (bs.map (Beat.toIn cfg))).map Prod.fst) ∧
    collect (step true) transferred .reset (bs.map (Beat.toIn cfg)) =
      (offered bs).mapIdx (fun k d => (d, decide ((cfg.toNat + 1) ∣ k + 1))) ∧
    collect (step false) transferred .reset (bs.map (Beat.toIn cfg)) =
      ((offered bs).take (cfg.toNat + 1)).mapIdx (fun k d => (d, decide (k = cfg.toNat))) := by
  refine ⟨fun continuous => collect_accepted _ _ _, ?_⟩
  cases bs with
  | nil => exact ⟨rfl, rfl⟩
  | cons b bs =>
    have hcont := collect_continuous cfg bs 0 (s := ⟨0, true⟩) rfl (Nat.zero_mod _).symm
    have hstop := collect_stop cfg bs 0 (s := ⟨0, true⟩) rfl rfl (Nat.zero_le _)
    have htrue := step_first true b hcfg
    have hfalse := step_first false b hcfg
    constructor
    · rw [List.map_cons, collect_cons, htrue.1, htrue.2, List.nil_append, hcont]
      simp only [offered, List.tail_cons, Nat.zero_add]
    · rw [List.map_cons, collect_cons, hfalse.1, hfalse.2, List.nil_append, hstop]
      simp only [offered, List.tail_cons, Nat.zero_add, Nat.sub_zero]

/-- Two stalls, one on each side, in packets of two words. -/
theorem packetizer_law_two :
    1 ≤ (1 : BitVec 4).toNat ∧
      collect (step true) transferred .reset
          ([⟨7, true, true⟩, ⟨7, true, true⟩, ⟨8, true, false⟩, ⟨8, true, true⟩, ⟨0, false, true⟩,
            ⟨9, true, true⟩].map (Beat.toIn (1 : BitVec 4))) =
        [((7 : BitVec 8), false), (8, true), (9, false)] :=
  ⟨by decide, (packetizer_law (1 : BitVec 4) (by decide) _).2.1⟩

end LagoEcosystem.Packetizer
