import LagoEcosystem.Gps.LineSafety
import LagoEcosystem.Gps.Location
import LagoEcosystem.Library.Consume

/-!
# Waiting for a fix

`gps_location` reads lines until its status mask shows a GGA and an RMC line. Each kind
overwrites its own members of the location, so what it returns is the last line of either
kind, and the lines between them leave no trace.
-/

namespace LagoEcosystem.Gps

open CLib Consume

/-- The `NMEA_GPRMC` case of `gps_location`. -/
def Loc.rmc (coord : Loc) (gprmc : Gprmc) : Loc :=
  { coord with speed := gprmc.speed, course := gprmc.course, date := gprmc.date }

/-- What lives as long as the loop. -/
structure Fix where
  status : BitVec 8
  coord : Loc

/-- One round: the line in the buffer, and what the uninitialized structures hold. -/
structure Round where
  line : Line
  gpgga : Gpgga
  gprmc : Gprmc

section Loop

variable (conv : Conversions)

/-- The body of the loop. -/
def Fix.receive (fix : Fix) (r : Round) : Option Fix := do
  let type ← rpNmeaGetMessageType r.line.text
  if type = nmeaGpgga then
    let gpgga ← conv.rpNmeaParseGpgga r.line.text r.gpgga
    return ⟨fix.status ||| nmeaGpgga, fix.coord.gga gpgga⟩
  else if type = nmeaGprmc then
    let gprmc ← conv.rpNmeaParseGprmc r.line.text r.gprmc
    return ⟨fix.status ||| nmeaGprmc, fix.coord.rmc gprmc⟩
  else return fix

/-- `gps_location`. -/
def gpsLocation (coord : Loc) (rounds : List Round) : Outcome Fix Round :=
  consume (fun fix => fix.status == completed) (Fix.receive conv) ⟨empty, coord⟩ rounds

end Loop

/-! ## Lines -/

/-- A hemisphere field that the parsers know. -/
def Known (pos neg : Char) (field : CString) : Prop :=
  field = [] ∨ ∃ l ∈ [pos, neg], field.head? = some (byte l)

def Line.HasType (line : Line) (type : BitVec 8) : Prop :=
  rpNmeaGetMessageType line.text = some type

instance (line : Line) (type : BitVec 8) : Decidable (line.HasType type) :=
  inferInstanceAs (Decidable (_ = _))

/-- A line with a checksum, and well formed if it is a GGA or RMC line with the right one. -/
structure Line.WellFormed (line : Line) : Prop where
  star : byte '*' ∈ line.text.tail
  gga : line.HasType nmeaGpgga →
    ∃ s : Sentence, s.line = line.text ∧ Known 'N' 'S' (s.field 3) ∧ Known 'W' 'E' (s.field 5)
  rmc : line.HasType nmeaGprmc → ∃ s : Sentence, s.line = line.text

section Contents

variable (conv : Conversions)

/-- The contents of a valid GGA line. -/
def Line.gga? (line : Line) : Option Gpgga :=
  if line.HasType nmeaGpgga then conv.rpNmeaParseGpgga line.text default else none

/-- The contents of a valid RMC line. -/
def Line.rmc? (line : Line) : Option Gprmc :=
  if line.HasType nmeaGprmc then conv.rpNmeaParseGprmc line.text default else none

def lastGga (rounds : List Round) : Option Gpgga :=
  (rounds.filterMap fun r => r.line.gga? conv).getLast?

def lastRmc (rounds : List Round) : Option Gprmc :=
  (rounds.filterMap fun r => r.line.rmc? conv).getLast?

end Contents

/-- The location of a GGA and an RMC line. -/
def Loc.of (g : Gpgga) (m : Gprmc) : Loc where
  times := g.times
  date := m.date
  latitude := gpsConvertDegToDec g.latitude g.lat 'N'
  longitude := gpsConvertDegToDec g.longitude g.lon 'E'
  speed := m.speed
  altitude := g.altitude
  course := m.course
  satellites := g.satellites.toNat

/-- Both kinds of lines are among the rounds. -/
def BothSeen (rounds : List Round) : Prop :=
  (∃ r ∈ rounds, r.line.HasType nmeaGpgga) ∧ ∃ r ∈ rounds, r.line.HasType nmeaGprmc

/-! ## One round -/

/-- A known hemisphere field decides alone. -/
theorem hemisphere_ptr {pos neg : Char} {s : Sentence} {k : ℕ} (hk : k < s.fields.length)
    (h : Known pos neg (s.field k)) (old old' : Byte) :
    hemisphere pos neg old (s.ptr k) = hemisphere pos neg old' (s.ptr k) := by
  rw [Sentence.ptr, s.drop_eq_cons hk]
  cases hf : s.field k with
  | nil => simp [commaEach, hemisphere]
  | cons c field =>
    rcases h with hnil | ⟨l, hl, hhead⟩
    · simp [hf] at hnil
    · simp only [hf, List.head?_cons, Option.some.injEq] at hhead
      simp only [List.mem_cons, List.not_mem_nil, or_false] at hl
      rcases hl with rfl | rfl <;> simp [hemisphere, hhead]

section Step

variable {conv : Conversions} {line : Line}

variable (conv) in
theorem Line.WellFormed.gga?_eq (h : line.WellFormed) (htype : line.HasType nmeaGpgga)
    (loc : Gpgga) : ∃ g, line.gga? conv = some g ∧ conv.rpNmeaParseGpgga line.text loc = some g := by
  obtain ⟨s, hs, hlat, hlon⟩ := h.gga htype
  have henough := s.enough
  have hparse := parseGpgga_line conv s loc
  have hdefault := parseGpgga_line conv s default
  rw [hs, hemisphere_ptr (by omega) hlat _ 0, hemisphere_ptr (by omega) hlon _ 0] at hparse
  rw [hs, hemisphere_ptr (by omega) hlat _ 0, hemisphere_ptr (by omega) hlon _ 0] at hdefault
  exact ⟨_, (if_pos htype).trans hdefault, hparse⟩

variable (conv) in
theorem Line.WellFormed.rmc?_eq (h : line.WellFormed) (htype : line.HasType nmeaGprmc)
    (loc : Gprmc) : ∃ m m', line.rmc? conv = some m ∧
      conv.rpNmeaParseGprmc line.text loc = some m' ∧ ∀ coord : Loc, coord.rmc m' = coord.rmc m := by
  obtain ⟨s, hs⟩ := h.rmc htype
  have hparse := parseGprmc_line conv s loc
  have hdefault := parseGprmc_line conv s default
  rw [hs] at hparse hdefault
  exact ⟨_, _, (if_pos htype).trans hdefault, hparse, fun _ => rfl⟩

variable (conv) in
/-- What a round does with a well-formed line. -/
def Fix.apply (fix : Fix) (r : Round) : Fix :=
  match r.line.gga? conv, r.line.rmc? conv with
  | some g, _ => ⟨fix.status ||| nmeaGpgga, fix.coord.gga g⟩
  | none, some m => ⟨fix.status ||| nmeaGprmc, fix.coord.rmc m⟩
  | none, none => fix

theorem receive_eq_apply {r : Round} (h : r.line.WellFormed) (fix : Fix) :
    fix.receive conv r = some (fix.apply conv r) := by
  have hne : nmeaGprmc ≠ nmeaGpgga := by decide
  cases htype : rpNmeaGetMessageType r.line.text with
  | none => exact absurd h.star ((rpNmeaGetMessageType_eq_none_iff _).mp htype)
  | some type =>
    by_cases hgga : type = nmeaGpgga
    · obtain ⟨g, hg, hparse⟩ := h.gga?_eq conv (htype.trans (congrArg some hgga)) r.gpgga
      simp [Fix.receive, Fix.apply, htype, hgga, hg, hparse]
    · have hgga? : r.line.gga? conv = none :=
        if_neg fun heq => hgga (Option.some.inj (htype.symm.trans heq))
      by_cases hrmc : type = nmeaGprmc
      · obtain ⟨m, m', hm, hparse, hcoord⟩ :=
          h.rmc?_eq conv (htype.trans (congrArg some hrmc)) r.gprmc
        simp [Fix.receive, Fix.apply, htype, hrmc, hne, hgga?, hm, hparse, hcoord]
      · have hrmc? : r.line.rmc? conv = none :=
          if_neg fun heq => hrmc (Option.some.inj (htype.symm.trans heq))
        simp [Fix.receive, Fix.apply, htype, hgga, hrmc, hgga?, hrmc?]

/-- No line is of both kinds. -/
theorem rmc?_eq_none {g : Gpgga} (h : line.gga? conv = some g) : line.rmc? conv = none := by
  refine if_neg fun hrmc => ?_
  by_cases hgga : line.HasType nmeaGpgga
  · have heq : nmeaGpgga = nmeaGprmc := Option.some.inj (hgga.symm.trans hrmc)
    exact absurd heq (by decide)
  · rw [Line.gga?, if_neg hgga] at h
    cases h

end Step

/-! ## The status mask -/

/-- The mask of the kinds of lines that were seen. -/
def mask (gga rmc : Bool) : BitVec 8 :=
  (if gga then nmeaGpgga else 0) ||| if rmc then nmeaGprmc else 0

theorem mask_or_mask : ∀ a b a' b', mask a b ||| mask a' b' = mask (a || a') (b || b') := by decide

theorem mask_eq_completed_iff : ∀ a b, mask a b = completed ↔ a = true ∧ b = true := by decide

section Run

variable (conv : Conversions)

theorem status_apply {r : Round} (h : r.line.WellFormed) (fix : Fix) :
    (fix.apply conv r).status =
      fix.status ||| mask (r.line.HasType nmeaGpgga) (r.line.HasType nmeaGprmc) := by
  have hone : mask true false = nmeaGpgga ∧ mask false true = nmeaGprmc ∧ mask false false = 0 := by
    decide
  obtain ⟨hmaskGga, hmaskRmc, hmaskNone⟩ := hone
  by_cases hgga : r.line.HasType nmeaGpgga
  · obtain ⟨g, hg, -⟩ := h.gga?_eq conv hgga r.gpgga
    have hrmc : ¬ r.line.HasType nmeaGprmc := by
      intro hrmc
      have heq : nmeaGpgga = nmeaGprmc := Option.some.inj (hgga.symm.trans hrmc)
      exact absurd heq (by decide)
    simp [Fix.apply, hg, hgga, hrmc, hmaskGga]
  · have hgga? : r.line.gga? conv = none := if_neg hgga
    by_cases hrmc : r.line.HasType nmeaGprmc
    · obtain ⟨m, -, hm, -⟩ := h.rmc?_eq conv hrmc r.gprmc
      simp [Fix.apply, hgga?, hm, hgga, hrmc, hmaskRmc]
    · have hrmc? : r.line.rmc? conv = none := if_neg hrmc
      simp [Fix.apply, hgga?, hrmc?, hgga, hrmc, hmaskNone]

theorem status_foldl {used : List Round} (h : ∀ r ∈ used, r.line.WellFormed) (a b : Bool)
    (coord : Loc) : (used.foldl (Fix.apply conv) ⟨mask a b, coord⟩).status =
      mask (a || used.any fun r => r.line.HasType nmeaGpgga)
        (b || used.any fun r => r.line.HasType nmeaGprmc) := by
  induction used generalizing a b coord with
  | nil => simp
  | cons r used ih =>
    have hr := status_apply conv (h r (by simp)) ⟨mask a b, coord⟩
    rw [mask_or_mask] at hr
    have hrest := ih (fun r hr => h r (by simp [hr])) (a || r.line.HasType nmeaGpgga)
      (b || r.line.HasType nmeaGprmc) (Fix.apply conv ⟨mask a b, coord⟩ r).coord
    rw [← hr] at hrest
    rw [List.foldl_cons, hrest, List.any_cons, List.any_cons, Bool.or_assoc, Bool.or_assoc]

/-- The mask is complete exactly when both kinds of lines were seen. -/
theorem completed_iff {used : List Round} (h : ∀ r ∈ used, r.line.WellFormed) (coord : Loc) :
    ((used.foldl (Fix.apply conv) ⟨empty, coord⟩).status == completed) = true ↔ BothSeen used := by
  have hstatus := status_foldl conv h false false coord
  rw [show mask false false = empty from by decide] at hstatus
  rw [hstatus, beq_iff_eq, mask_eq_completed_iff]
  simp [BothSeen]

/-! ## The members of the location -/

/-- What a GGA line overwrites, and what an RMC line overwrites. -/
def Loc.ggaMembers (coord : Loc) : ℚ × ℚ × ℚ × ℚ × ℚ :=
  (coord.times, coord.latitude, coord.longitude, coord.altitude, coord.satellites)

def Loc.rmcMembers (coord : Loc) : ℚ × ℚ × ℚ := (coord.speed, coord.course, coord.date)

theorem Loc.eq_of_members {a b : Loc} (hgga : a.ggaMembers = b.ggaMembers)
    (hrmc : a.rmcMembers = b.rmcMembers) : a = b := by
  cases a
  cases b
  simp_all [Loc.ggaMembers, Loc.rmcMembers]

theorem ggaMembers_foldl (used : List Round) (fix : Fix) :
    (used.foldl (Fix.apply conv) fix).coord.ggaMembers =
      ((lastGga conv used).map fun g => (fix.coord.gga g).ggaMembers).getD
        fix.coord.ggaMembers := by
  have hlast := foldl_last (fun fix : Fix => fix.coord.ggaMembers)
    (fun r : Round => (r.line.gga? conv).map fun g => (fix.coord.gga g).ggaMembers)
    (f := Fix.apply conv) ?_ fix used
  · rw [hlast, lastGga, ← List.getLast?_map, List.map_filterMap]
  · intro fix' r
    cases hg : r.line.gga? conv with
    | some g => simp only [Fix.apply, hg]; rfl
    | none => cases hm : r.line.rmc? conv <;> simp only [Fix.apply, hg, hm] <;> rfl

theorem rmcMembers_foldl (used : List Round) (fix : Fix) :
    (used.foldl (Fix.apply conv) fix).coord.rmcMembers =
      ((lastRmc conv used).map fun m => (fix.coord.rmc m).rmcMembers).getD
        fix.coord.rmcMembers := by
  have hlast := foldl_last (fun fix : Fix => fix.coord.rmcMembers)
    (fun r : Round => (r.line.rmc? conv).map fun m => (fix.coord.rmc m).rmcMembers)
    (f := Fix.apply conv) ?_ fix used
  · rw [hlast, lastRmc, ← List.getLast?_map, List.map_filterMap]
  · intro fix' r
    cases hg : r.line.gga? conv with
    | some g => simp only [Fix.apply, hg, rmc?_eq_none hg]; rfl
    | none => cases hm : r.line.rmc? conv <;> simp only [Fix.apply, hg, hm] <;> rfl

/-- When both kinds were seen, the location is that of the last line of either kind. -/
theorem coord_foldl {used : List Round} (h : ∀ r ∈ used, r.line.WellFormed)
    (hboth : BothSeen used) (fix : Fix) : ∃ g m, lastGga conv used = some g ∧
      lastRmc conv used = some m ∧ (used.foldl (Fix.apply conv) fix).coord = Loc.of g m := by
  obtain ⟨⟨r, hr, hgga⟩, r', hr', hrmc⟩ := hboth
  obtain ⟨g, hg⟩ : ∃ g, lastGga conv used = some g := by
    obtain ⟨g, hg, -⟩ := (h r hr).gga?_eq conv hgga r.gpgga
    exact exists_last hr hg
  obtain ⟨m, hm⟩ : ∃ m, lastRmc conv used = some m := by
    obtain ⟨m, -, hm, -⟩ := (h r' hr').rmc?_eq conv hrmc r'.gprmc
    exact exists_last hr' hm
  refine ⟨g, m, hg, hm, Loc.eq_of_members ?_ ?_⟩
  · rw [ggaMembers_foldl, hg]
    rfl
  · rw [rmcMembers_foldl, hm]
    rfl

/-- Both kinds were seen in these rounds and not before the last of them. -/
structure JustSeen (used : List Round) : Prop where
  seen : BothSeen used
  earlier : ∀ p, p <+: used → p ≠ used → ¬ BothSeen p

/-- The loop is complete behind a prefix of the rounds if and only if both kinds are in it. -/
theorem completed_prefix_iff {rounds : List Round} (h : ∀ r ∈ rounds, r.line.WellFormed)
    (coord : Loc) {p : List Round} (hp : p <+: rounds) :
    ((p.foldl (Fix.apply conv) ⟨empty, coord⟩).status == completed) = true ↔ BothSeen p :=
  completed_iff conv (fun r hr => h r (hp.subset hr)) coord

theorem incomplete_prefix_iff {rounds : List Round} (h : ∀ r ∈ rounds, r.line.WellFormed)
    (coord : Loc) {p : List Round} (hp : p <+: rounds) :
    ((p.foldl (Fix.apply conv) ⟨empty, coord⟩).status == completed) = false ↔ ¬ BothSeen p := by
  rw [← completed_prefix_iff conv h coord hp, Bool.not_eq_true]

theorem completes_iff {used : List Round} (h : ∀ r ∈ used, r.line.WellFormed) (coord : Loc) :
    Completes (fun fix => fix.status == completed) (Fix.apply conv) ⟨empty, coord⟩ used ↔
      JustSeen used := by
  constructor
  · intro hc
    refine ⟨(completed_prefix_iff conv h coord List.prefix_rfl).mp hc.ends, fun p hp hne => ?_⟩
    exact (incomplete_prefix_iff conv h coord hp).mp (hc.earlier p hp hne)
  · intro hs
    refine ⟨(completed_prefix_iff conv h coord List.prefix_rfl).mpr hs.seen, fun p hp hne => ?_⟩
    exact (incomplete_prefix_iff conv h coord hp).mpr (hs.earlier p hp hne)

theorem BothSeen.of_isPrefix {p rounds : List Round} (h : BothSeen p) (hp : p <+: rounds) :
    BothSeen rounds := by
  obtain ⟨⟨r, hr, hgga⟩, r', hr', hrmc⟩ := h
  exact ⟨⟨r, hp.subset hr, hgga⟩, r', hp.subset hr', hrmc⟩

theorem gpsLocation_waiting_iff (coord : Loc) {rounds : List Round}
    (h : ∀ r ∈ rounds, r.line.WellFormed) :
    (∃ fix, gpsLocation conv coord rounds = .waiting fix) ↔ ¬ BothSeen rounds := by
  rw [gpsLocation, consume_eq_waiting_iff fun fix r hr => receive_eq_apply (h r hr) fix]
  constructor
  · intro hwait
    exact (incomplete_prefix_iff conv h coord List.prefix_rfl).mp (hwait rounds List.prefix_rfl)
  · intro hunseen p hp
    exact (incomplete_prefix_iff conv h coord hp).mpr fun hseen => hunseen (hseen.of_isPrefix hp)

theorem gpsLocation_final_iff (coord : Loc) {rounds : List Round}
    (h : ∀ r ∈ rounds, r.line.WellFormed) (coord' : Loc) (rest : List Round) :
    (∃ status, gpsLocation conv coord rounds = .final ⟨status, coord'⟩ rest) ↔
      ∃ used g m, rounds = used ++ rest ∧ JustSeen used ∧ lastGga conv used = some g ∧
        lastRmc conv used = some m ∧ coord' = Loc.of g m := by
  simp only [gpsLocation,
    consume_eq_final_iff fun fix r hr => receive_eq_apply (h r hr) fix]
  constructor
  · rintro ⟨status, used, rfl, hused, hfix⟩
    have hwf : ∀ r ∈ used, r.line.WellFormed := fun r hr => h r (by simp [hr])
    have hjust := (completes_iff conv hwf coord).mp hused
    obtain ⟨g, m, hg, hm, hcoord⟩ := coord_foldl conv hwf hjust.seen ⟨empty, coord⟩
    exact ⟨used, g, m, rfl, hjust, hg, hm, (congrArg Fix.coord hfix).trans hcoord⟩
  · rintro ⟨used, g, m, rfl, hjust, hg, hm, rfl⟩
    have hwf : ∀ r ∈ used, r.line.WellFormed := fun r hr => h r (by simp [hr])
    obtain ⟨g', m', hg', hm', hcoord⟩ := coord_foldl conv hwf hjust.seen ⟨empty, coord⟩
    obtain rfl : g = g' := Option.some.inj (hg.symm.trans hg')
    obtain rfl : m = m' := Option.some.inj (hm.symm.trans hm')
    refine ⟨(used.foldl (Fix.apply conv) ⟨empty, coord⟩).status, used, rfl,
      (completes_iff conv hwf coord).mpr hjust, ?_⟩
    rw [← hcoord]

/-- `gps_location` never fails on such lines, waits exactly while not both kinds were read,
and returns as soon as they were, with the contents of the last line of either kind. -/
theorem gpsLocation_law (coord : Loc) (rounds : List Round)
    (h : ∀ r ∈ rounds, r.line.WellFormed) :
    gpsLocation conv coord rounds ≠ .failed ∧
      ((∃ fix, gpsLocation conv coord rounds = .waiting fix) ↔ ¬ BothSeen rounds) ∧
      ∀ coord' rest,
        (∃ status, gpsLocation conv coord rounds = .final ⟨status, coord'⟩ rest) ↔
          ∃ used g m, rounds = used ++ rest ∧ JustSeen used ∧ lastGga conv used = some g ∧
            lastRmc conv used = some m ∧ coord' = Loc.of g m := by
  refine ⟨?_, gpsLocation_waiting_iff conv coord h, gpsLocation_final_iff conv coord h⟩
  exact consume_ne_failed (fun fix r hr => receive_eq_apply (h r hr) fix) _

end Run

/-- `$GPGGA,123519,4807.038,N,01131.000,E,1,08,0.9,545.4,M*1F` -/
def ggaSentence : Sentence where
  identifier := text "$GPGGA"
  fields := ["123519", "4807.038", "N", "01131.000", "E", "1", "08", "0.9", "545.4", "M*1F"].map text
  identifier_comma := by decide
  fields_comma := by decide
  identifier_nul := by decide
  fields_nul := by decide
  enough := by decide

/-- `$GPRMC,123519,A,4807.038,N,01131.000,E,022.4,084.4,230394*11` -/
def rmcSentence : Sentence where
  identifier := text "$GPRMC"
  fields :=
    ["123519", "A", "4807.038", "N", "01131.000", "E", "022.4", "084.4", "230394*11"].map text
  identifier_comma := by decide
  fields_comma := by decide
  identifier_nul := by decide
  fields_nul := by decide
  enough := by decide

def ggaRound : Round := ⟨⟨ggaSentence.line, by decide, by decide⟩, default, default⟩
def rmcRound : Round := ⟨⟨rmcSentence.line, by decide, by decide⟩, default, default⟩

theorem ggaRound_wellFormed : ggaRound.line.WellFormed where
  star := by decide
  gga _ := ⟨ggaSentence, rfl, .inr ⟨'N', by decide, by decide⟩, .inr ⟨'E', by decide, by decide⟩⟩
  rmc h := absurd h (by decide +kernel)

theorem rmcRound_wellFormed : rmcRound.line.WellFormed where
  star := by decide
  gga h := absurd h (by decide +kernel)
  rmc _ := ⟨rmcSentence, rfl⟩

/-- One line of either kind is enough. -/
theorem gpsLocation_ends :
    gpsLocation .clib ⟨0, 0, 0, 0, 0, 0, 0, 0⟩ [rmcRound, ggaRound] ≠ .failed ∧
      ¬ ∃ fix, gpsLocation .clib ⟨0, 0, 0, 0, 0, 0, 0, 0⟩ [rmcRound, ggaRound] = .waiting fix := by
  have hboth : BothSeen [rmcRound, ggaRound] :=
    ⟨⟨ggaRound, by simp, by decide +kernel⟩, rmcRound, by simp, by decide +kernel⟩
  have hlaw := gpsLocation_law .clib ⟨0, 0, 0, 0, 0, 0, 0, 0⟩ [rmcRound, ggaRound]
    (by simp [rmcRound_wellFormed, ggaRound_wellFormed])
  exact ⟨hlaw.1, fun hwait => hlaw.2.1.mp hwait hboth⟩

end LagoEcosystem.Gps
