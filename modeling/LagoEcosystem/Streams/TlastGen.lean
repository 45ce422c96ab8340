import LagoEcosystem.Packetizer.Core

/-!
# The generator of packet ends

`axis_tlast_gen` lets a stream through and marks the last word of every packet of
`pkt_length` words. It has a counter and no other register: `tlast` is the comparison of the
counter, and a marked word that is transferred clears it.
-/

namespace LagoEcosystem.TlastGen

open Clocked
open Packetizer (Beat Beat.offer_eq_some Beat.offer_eq_none)

/-- The input ports. -/
structure In (D P : ℕ) where
  aresetn : Bool
  pktLength : BitVec P
  mAxisTready : Bool
  sAxisTvalid : Bool
  sAxisTdata : BitVec D

structure St (P : ℕ) where
  cnt : BitVec P

/-- The output ports. -/
structure Out (D : ℕ) where
  mAxisTvalid : Bool
  mAxisTlast : Bool
  mAxisTdata : BitVec D
  sAxisTready : Bool

variable {D P : ℕ}

def In.newSample (i : In D P) : Bool := i.sAxisTvalid && i.mAxisTready

def St.axisTlast (s : St P) (i : In D P) : Bool := s.cnt == i.pktLength - 1

def St.out (s : St P) (i : In D P) : Out D where
  mAxisTvalid := i.sAxisTvalid
  mAxisTlast := s.axisTlast i
  mAxisTdata := i.sAxisTdata
  sAxisTready := i.mAxisTready

/-- The registers after a clock edge with `aresetn` low, and after power-up. -/
def St.reset : St P := ⟨0⟩

def step (s : St P) (i : In D P) : St P :=
  if !i.aresetn || s.axisTlast i && i.newSample then .reset
  else if i.newSample then ⟨s.cnt + 1⟩
  else s

/-! ## The two sides -/

/-- The word that the slave side accepts in a cycle. -/
def accepted (s : St P) (i : In D P) : List (BitVec D) :=
  if i.sAxisTvalid && (s.out i).sAxisTready then [i.sAxisTdata] else []

/-- The word that the master side hands over in a cycle, with its `tlast`. -/
def transferred (s : St P) (i : In D P) : List (BitVec D × Bool) :=
  if (s.out i).mAxisTvalid && i.mAxisTready then [((s.out i).mAxisTdata, (s.out i).mAxisTlast)]
  else []

/-- A cycle outside the reset. -/
def In.running (pktLength : BitVec P) (b : Beat D) : In D P :=
  ⟨true, pktLength, b.tready, b.tvalid, b.tdata⟩

theorem step_reset (s : St P) {i : In D P} (h : i.aresetn = false) : step s i = .reset := by
  simp [step, h]

/-- One handshake serves both sides. -/
theorem accepted_eq_map (s : St P) (i : In D P) :
    accepted s i = (transferred s i).map Prod.fst := by
  unfold accepted transferred St.out
  cases i.sAxisTvalid && i.mAxisTready <;> rfl

section Edge

variable {len : BitVec P} {s : St P} {b : Beat D} {d : BitVec D} {n : ℕ}

variable (len s) in
/-- Without a transfer nothing moves. -/
theorem step_idle (hb : b.offer = none) :
    step s (.running len b) = s ∧ transferred s (.running len b) = [] := by
  rcases Beat.offer_eq_none.mp hb with h | h <;>
    simp [step, transferred, St.out, In.newSample, In.running, h]

theorem axisTlast_eq (hlen : 1 ≤ len.toNat) :
    s.axisTlast (.running len b) = decide (s.cnt.toNat + 1 = len.toNat) := by
  rw [Bool.eq_iff_iff, decide_eq_true_iff]
  exact beq_iff_eq.trans (BitFields.eq_sub_one_iff hlen)

/-- An offer is taken, and `tlast` compares the counter. -/
theorem transferred_offer (hlen : 1 ≤ len.toNat) (hb : b.offer = some d) :
    transferred s (.running len b) = [(d, decide (s.cnt.toNat + 1 = len.toNat))] := by
  rw [← axisTlast_eq hlen (b := b)]
  obtain rfl := Beat.offer_eq_some.mp hb
  rfl

theorem step_inside (hlen : 1 ≤ len.toNat) (hb : b.offer = some d)
    (hn : s.cnt.toNat + 1 < len.toNat) : step s (.running len b) = ⟨s.cnt + 1⟩ := by
  rw [step, axisTlast_eq hlen]
  obtain rfl := Beat.offer_eq_some.mp hb
  simp [In.newSample, In.running, hn.ne]

theorem step_last (hlen : 1 ≤ len.toNat) (hb : b.offer = some d)
    (hn : s.cnt.toNat + 1 = len.toNat) : step s (.running len b) = .reset := by
  rw [step, axisTlast_eq hlen]
  obtain rfl := Beat.offer_eq_some.mp hb
  simp [In.newSample, In.running, hn]

/-- The counter holds the number of words since the last mark. -/
theorem step_offer (hlen : 1 ≤ len.toNat) (hb : b.offer = some d)
    (hn : s.cnt.toNat = n % len.toNat) :
    (step s (.running len b)).cnt.toNat = (n + 1) % len.toNat ∧
      transferred s (.running len b) = [(d, decide (len.toNat ∣ n + 1))] := by
  have hlt : n % len.toNat < len.toNat := Nat.mod_lt n hlen
  have hmark : s.cnt.toNat + 1 = len.toNat ↔ len.toNat ∣ n + 1 := by
    rw [Pulses.dvd_succ_iff hlen, hn]
    omega
  refine ⟨?_, by simp only [transferred_offer hlen hb, hmark]⟩
  rw [Pulses.succ_mod_eq hlen]
  by_cases hend : n % len.toNat = len.toNat - 1
  case pos =>
    rw [step_last hlen hb (by omega), if_pos hend]
    rfl
  case neg =>
    have hfit : s.cnt.toNat + 1 < 2 ^ P := by have := len.isLt; omega
    rw [step_inside hlen hb (by omega), if_neg hend, ← hn]
    exact BitFields.toNat_add_one hfit

end Edge

/-- With the counter at any place of a packet. -/
theorem collect_transferred {len : BitVec P} (hlen : 1 ≤ len.toNat) (bs : List (Beat D)) (n : ℕ)
    {s : St P} (hn : s.cnt.toNat = n % len.toNat) :
    collect step transferred s (bs.map (.running len)) =
      (bs.filterMap Beat.offer).mapIdx fun k d => (d, decide (len.toNat ∣ n + k + 1)) := by
  refine collect_numbered (P := fun n s => s.cnt.toNat = n % len.toNat) (In.running len)
    (fun n d => (d, decide (len.toNat ∣ n + 1))) ?_ (fun n s b d hn hb => step_offer hlen hb hn) hn bs
  intro n s b hn hb
  obtain ⟨hstep, hout⟩ := step_idle len s hb
  rw [hstep]
  exact ⟨hn, hout⟩

/-- The law of the generator: the stream passes unchanged, and the marks are on the words
number `L`, `2 * L` and so on. -/
theorem tlastGen_law (len : BitVec P) (hlen : 1 ≤ len.toNat) (bs : List (Beat D)) :
    collect step accepted .reset (bs.map (In.running len)) = bs.filterMap Beat.offer ∧
      collect step transferred .reset (bs.map (In.running len)) =
        (bs.filterMap Beat.offer).mapIdx fun k d => (d, decide (len.toNat ∣ k + 1)) := by
  have hall := collect_transferred hlen bs 0 (s := .reset) (Nat.zero_mod _).symm
  simp only [Nat.zero_add] at hall
  refine ⟨?_, hall⟩
  rw [(along_of_forall step .reset (K := fun _ => True) fun _ _ => trivial).collect_eq_map
    accepted fun s i _ => accepted_eq_map s i, hall]
  exact List.ext_getElem (by simp) (by simp)

/-- Packets of two words, with a stall on the second one. -/
theorem tlastGen_law_two :
    1 ≤ (2 : BitVec 4).toNat ∧
      collect step transferred .reset
          ([⟨7, true, true⟩, ⟨8, true, false⟩, ⟨8, true, true⟩, ⟨9, true, true⟩].map
            (In.running (2 : BitVec 4))) =
        [((7 : BitVec 8), false), (8, true), (9, false)] :=
  ⟨by decide, (tlastGen_law (2 : BitVec 4) (by decide) _).2⟩

end LagoEcosystem.TlastGen
