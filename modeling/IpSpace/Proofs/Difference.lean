import IpSpace.Proofs.Values
import IpSpace.Section.Difference
import Mathlib.Data.Set.Lattice
import Mathlib.Order.BourbakiWitt
import Mathlib.Order.CompletePartialOrder

/-!
# Intersection and difference of sections

Two sections of one version share an address exactly when the bounds of every segment overlap, and
then the intersections segment by segment are the bounds of the common addresses. The difference
takes the first section apart: `differencePieces` recurses on the segments, and an address of the
first section leaves the second one at some first segment, where it falls into a piece of its own.

Nothing here depends on the width of a segment. All statements about bounds are about the digits
picked from them (`Picks`); only the last section speaks of addresses.
-/

namespace IpSpace

/-! ## One segment -/

namespace Bounds

variable {width d : Nat} {a b : Bounds}

theorem overlaps_iff : a.overlaps b = true ↔ b.lower ≤ a.upper ∧ a.lower ≤ b.upper := by
  simp [overlaps]

theorem overlaps_of_mem (ha : d ∈ a) (hb : d ∈ b) : a.overlaps b = true :=
  overlaps_iff.2 ⟨Nat.le_trans hb.1 ha.2, Nat.le_trans ha.1 hb.2⟩

theorem mem_inter : d ∈ a.inter b ↔ d ∈ a ∧ d ∈ b := by
  simp only [mem_iff, inter]
  omega

theorem inter_within (ha : a.Within width) (hb : b.Within width) (h : a.overlaps b = true) :
    (a.inter b).Within width where
  lower_le_upper := by
    rw [overlaps_iff] at h
    have := ha.lower_le_upper
    have := hb.lower_le_upper
    simp only [inter]
    omega
  upper_lt := Nat.lt_of_le_of_lt (Nat.min_le_left _ _) ha.upper_lt

/-- What is outside lies below or above. -/
theorem mem_outside_iff {part : Bounds} : part ∈ a.outside b ↔
    (a.lower < b.lower ∧ part = ⟨a.lower, b.lower - 1⟩) ∨
      (b.upper < a.upper ∧ part = ⟨b.upper + 1, a.upper⟩) := by
  simp only [outside, List.mem_append, List.mem_ite_nil_right, List.mem_singleton]

theorem outside_within (ha : a.Within width) (h : a.overlaps b = true) :
    ∀ part ∈ a.outside b, part.Within width := by
  intro part hpart
  rw [overlaps_iff] at h
  have := ha.upper_lt
  rcases mem_outside_iff.1 hpart with ⟨hlt, rfl⟩ | ⟨hlt, rfl⟩
  · exact ⟨by simp only; omega, by simp only; omega⟩
  · exact ⟨by simp only; omega, ha.upper_lt⟩

/-- The parts outside hold what the first bounds have and the second do not. -/
theorem exists_mem_outside (h : a.overlaps b = true) :
    (∃ part ∈ a.outside b, d ∈ part) ↔ d ∈ a ∧ d ∉ b := by
  rw [overlaps_iff] at h
  constructor
  · rintro ⟨part, hpart, hd⟩
    rcases mem_outside_iff.1 hpart with ⟨hlt, rfl⟩ | ⟨hlt, rfl⟩
    · simp only [mem_iff] at hd ⊢
      omega
    · simp only [mem_iff] at hd ⊢
      omega
  · rintro ⟨ha, hnot⟩
    simp only [mem_iff] at ha hnot
    rcases Nat.lt_or_ge d b.lower with hd | hd
    · exact ⟨_, mem_outside_iff.2 (Or.inl ⟨by omega, rfl⟩), ha.1, by simp only; omega⟩
    · exact ⟨_, mem_outside_iff.2 (Or.inr ⟨by omega, rfl⟩), by simp only; omega, ha.2⟩

/-- The part below and the part above do not meet. -/
theorem pairwise_outside (hb : b.lower ≤ b.upper) :
    (a.outside b).Pairwise fun p q => ∀ d ∈ p, d ∉ q := by
  rw [outside]
  split
  · split
    · simp only [List.singleton_append, List.pairwise_pair, mem_iff]
      omega
    · exact List.pairwise_singleton _ _
  · split
    · exact List.pairwise_singleton _ _
    · exact List.Pairwise.nil

end Bounds

/-! ## Bounds of several segments -/

variable {as bs : List Bounds} {ds : List Nat}

/-- Bounds overlap segment by segment. -/
abbrev Meet (as bs : List Bounds) : Prop :=
  List.Forall₂ (fun a b => a.overlaps b = true) as bs

/-- Bounds that allow the same pick overlap in every segment. -/
theorem meet_of_picks (ha : Picks as ds) (hb : Picks bs ds) : Meet as bs := by
  induction ha generalizing bs with
  | nil =>
      cases hb
      exact List.Forall₂.nil
  | cons had _ ih =>
      cases hb with
      | cons hbd hrest => exact List.Forall₂.cons (Bounds.overlaps_of_mem had hbd) (ih hrest)

/-- The intersections segment by segment allow the picks that both allow. -/
theorem picks_inter (hlen : as.length = bs.length) :
    Picks (as.zipWith Bounds.inter bs) ds ↔ Picks as ds ∧ Picks bs ds := by
  induction as generalizing bs ds with
  | nil =>
      rw [List.eq_nil_of_length_eq_zero hlen.symm]
      simp
  | cons a as ih =>
      cases bs with
      | nil => cases hlen
      | cons b bs =>
          cases ds with
          | nil => simp
          | cons d ds =>
              rw [List.zipWith_cons_cons, picks_cons, picks_cons, picks_cons, Bounds.mem_inter,
                ih (Nat.succ.inj hlen)]
              exact and_and_and_comm

theorem within_inter {width : Nat} (h : Meet as bs) (ha : ∀ a ∈ as, a.Within width)
    (hb : ∀ b ∈ bs, b.Within width) : ∀ c ∈ as.zipWith Bounds.inter bs, c.Within width := by
  induction h with
  | nil => simp
  | cons hab _ ih =>
      rw [List.forall_mem_cons] at ha hb
      rw [List.zipWith_cons_cons, List.forall_mem_cons]
      exact ⟨Bounds.inter_within ha.1 hb.1 hab, ih ha.2 hb.2⟩

namespace Section

/-- A piece leaves the second bounds in the first segment or later. -/
theorem mem_differencePieces_cons {a b : Bounds} {piece : List Bounds} :
    piece ∈ differencePieces (a :: as) (b :: bs) ↔
      (∃ part ∈ a.outside b, part :: as = piece) ∨
        ∃ rest ∈ differencePieces as bs, a.inter b :: rest = piece := by
  simp only [differencePieces, List.mem_append, List.mem_map]

/-- A piece has the segments of the first section, each within its width. -/
theorem within_of_mem_differencePieces {width : Nat} (h : Meet as bs)
    (ha : ∀ a ∈ as, a.Within width) (hb : ∀ b ∈ bs, b.Within width) {piece : List Bounds}
    (hpiece : piece ∈ differencePieces as bs) :
    piece.length = as.length ∧ ∀ c ∈ piece, c.Within width := by
  induction h generalizing piece with
  | nil => simp [differencePieces] at hpiece
  | cons hab _ ih =>
      rw [List.forall_mem_cons] at ha hb
      rcases mem_differencePieces_cons.1 hpiece with ⟨part, hpart, rfl⟩ | ⟨rest, hrest, rfl⟩
      · exact ⟨rfl, List.forall_mem_cons.2 ⟨Bounds.outside_within ha.1 hab part hpart, ha.2⟩⟩
      · obtain ⟨hlen, hwithin⟩ := ih ha.2 hb.2 hrest
        exact ⟨congrArg (· + 1) hlen,
          List.forall_mem_cons.2 ⟨Bounds.inter_within ha.1 hb.1 hab, hwithin⟩⟩

/-- The pieces allow the picks that the first bounds allow and the second do not. -/
theorem exists_picks_differencePieces (h : Meet as bs) :
    (∃ piece ∈ differencePieces as bs, Picks piece ds) ↔ Picks as ds ∧ ¬ Picks bs ds := by
  induction h generalizing ds with
  | nil => simp [differencePieces]
  | @cons a b as bs hab _ ih =>
      cases ds with
      | nil => simp [mem_differencePieces_cons]
      | cons d ds =>
          have hfirst := Bounds.exists_mem_outside (d := d) hab
          have hrest : (∃ rest ∈ differencePieces as bs, Picks rest ds) ↔
              Picks as ds ∧ ¬ Picks bs ds := ih
          rw [picks_cons, picks_cons]
          constructor
          · rintro ⟨piece, hpiece, hpicks⟩
            rcases mem_differencePieces_cons.1 hpiece with ⟨part, hpart, rfl⟩ | ⟨rest, hmem, rfl⟩
            · rw [picks_cons] at hpicks
              obtain ⟨hda, hdb⟩ := hfirst.1 ⟨part, hpart, hpicks.1⟩
              exact ⟨⟨hda, hpicks.2⟩, fun hnot => hdb hnot.1⟩
            · rw [picks_cons, Bounds.mem_inter] at hpicks
              obtain ⟨has, hbs⟩ := hrest.1 ⟨rest, hmem, hpicks.2⟩
              exact ⟨⟨hpicks.1.1, has⟩, fun hnot => hbs hnot.2⟩
          · rintro ⟨⟨hda, has⟩, hnot⟩
            -- A pick that stays within the second bounds here leaves them at a later segment.
            by_cases hdb : d ∈ b
            · obtain ⟨rest, hmem, hpicks⟩ := hrest.2 ⟨has, fun hbs => hnot ⟨hdb, hbs⟩⟩
              exact ⟨_, mem_differencePieces_cons.2 (Or.inr ⟨rest, hmem, rfl⟩),
                picks_cons.2 ⟨Bounds.mem_inter.2 ⟨hda, hdb⟩, hpicks⟩⟩
            · obtain ⟨part, hpart, hd⟩ := hfirst.2 ⟨hda, hdb⟩
              exact ⟨_, mem_differencePieces_cons.2 (Or.inl ⟨part, hpart, rfl⟩),
                picks_cons.2 ⟨hd, has⟩⟩

/-- No pick is allowed by two pieces: pieces that part at one segment lie on different sides of the
second bounds, and the pieces that part later agree with these bounds there. -/
theorem pairwise_differencePieces (h : Meet as bs) (hb : ∀ b ∈ bs, b.lower ≤ b.upper) :
    (differencePieces as bs).Pairwise fun p q => ∀ ds, Picks p ds → ¬ Picks q ds := by
  induction h with
  | nil => exact List.Pairwise.nil
  | @cons a b as bs hab _ ih =>
      rw [List.forall_mem_cons] at hb
      rw [differencePieces, List.pairwise_append, List.pairwise_map, List.pairwise_map]
      refine ⟨?_, ?_, ?_⟩
      · refine (Bounds.pairwise_outside hb.1).imp fun {p q} hpq ds hp hq => ?_
        cases hp with
        | cons hd _ => exact hpq _ hd (picks_cons.1 hq).1
      · refine (ih hb.2).imp fun {p q} hpq ds hp hq => ?_
        cases hp with
        | cons _ hrest => exact hpq _ hrest (picks_cons.1 hq).2
      · -- One piece parts here and lies outside `b`, the other one parts later and lies inside.
        intro p hp q hq ds hpicks hqicks
        obtain ⟨part, hpart, rfl⟩ := List.mem_map.1 hp
        obtain ⟨rest, -, rfl⟩ := List.mem_map.1 hq
        cases hpicks with
        | cons hd _ =>
            have hout := (Bounds.exists_mem_outside hab).1 ⟨part, hpart, hd⟩
            exact hout.2 (Bounds.mem_inter.1 (picks_cons.1 hqicks).1).2

/-! ## Sections -/

variable {s other : Section}

/-- A piece of a section, with the prefix length that the section gives it. -/
def piece (s : Section) (bounds : List Bounds) : Section :=
  ⟨s.version, bounds, s.prefixLen.bind fun own => piecePrefixLen own ⟨s.version, bounds, none⟩⟩

/-- The common part of two sections that overlap. -/
def common (s other : Section) : Section :=
  ⟨s.version, s.bounds.zipWith Bounds.inter other.bounds,
    s.prefixLen.bind fun p => other.prefixLen.map (max p)⟩

theorem difference_eq (h : s.version = other.version) :
    s.difference other = .ok
      (if s.overlaps other then (differencePieces s.bounds other.bounds).map s.piece else [s]) := by
  rw [difference, checkSameVersion, if_pos h]
  cases hover : s.overlaps other with
  | false => rfl
  | true =>
      cases hp : s.prefixLen with
      | none => simp [piece, hp]
      | some own => simp [piece, hp, withPrefixLen]

theorem inter?_eq (h : s.version = other.version) :
    s.inter? other = .ok (if s.overlaps other then some (s.common other) else none) := by
  rw [inter?, checkSameVersion, if_pos h]
  cases hover : s.overlaps other with
  | false => rfl
  | true =>
      rw [common]
      cases s.prefixLen with
      | none => rfl
      | some p => cases other.prefixLen <;> rfl

/-- Sections of different versions have neither a difference nor an intersection. -/
theorem difference_inter_error (h : s.version ≠ other.version) :
    s.difference other
        = .error (.sizeMismatch s.version.segmentCount other.version.segmentCount) ∧
      s.inter? other
        = .error (.sizeMismatch s.version.segmentCount other.version.segmentCount) := by
  rw [difference, inter?, checkSameVersion, if_neg h]
  exact ⟨rfl, rfl⟩

/-- Membership in a section, with the segments that another section of its version has. -/
theorem mem_values_of_version (h : s.version = other.version) {x : Nat} :
    x ∈ other.values ↔ x ≤ s.version.maxValue ∧ Picks other.bounds (s.version.split x) := by
  rw [h]
  exact Iff.rfl

theorem overlaps_iff_meet (hs : s.WellFormed) (ho : other.WellFormed) :
    s.overlaps other = true ↔ s.version = other.version ∧ Meet s.bounds other.bounds := by
  rw [overlaps, Bool.and_eq_true, beq_iff_eq, List.all_eq_true, Meet, List.forall₂_iff_zip]
  refine and_congr_right fun hversion => ?_
  rw [hs.length_bounds, ho.length_bounds, hversion]
  simp only [true_and, Prod.forall]

/-- The common part of two sections holds the addresses that both have. -/
theorem values_common (hs : s.WellFormed) (ho : other.WellFormed)
    (hversion : s.version = other.version) :
    (s.common other).values = s.values ∩ other.values := by
  ext x
  have hlen : s.bounds.length = other.bounds.length := by
    rw [hs.length_bounds, ho.length_bounds, hversion]
  rw [Set.mem_inter_iff, mem_values_of_version hversion]
  refine (and_congr_right fun _ => picks_inter hlen).trans ?_
  exact ⟨fun ⟨hx, hp, hq⟩ => ⟨⟨hx, hp⟩, hx, hq⟩, fun ⟨⟨hx, hp⟩, _, hq⟩ => ⟨hx, hp, hq⟩⟩

/-- The prefix length of the common part is the longer one, if both sections have one. -/
theorem prefixLen_common {p : Nat} : (s.common other).prefixLen = some p ↔
    ∃ q r, s.prefixLen = some q ∧ other.prefixLen = some r ∧ p = max q r := by
  simp only [common, Option.bind_eq_some_iff, Option.map_eq_some_iff, eq_comm (b := p)]
  simp only [exists_and_left]

/-- The common part of two sections that overlap is a section. -/
theorem wellFormed_common (hs : s.WellFormed) (ho : other.WellFormed)
    (h : s.overlaps other = true) : (s.common other).WellFormed := by
  obtain ⟨hversion, hmeet⟩ := (overlaps_iff_meet hs ho).1 h
  refine wellFormed_of_within ?_ ?_ fun p hp => ?_
  · refine Eq.trans ?_ hs.length_bounds
    simp only [common, List.length_zipWith, ← hmeet.length_eq, Nat.min_self]
  · exact within_inter hmeet hs.within (hversion ▸ ho.within)
  · obtain ⟨q, r, hq, hr, rfl⟩ := prefixLen_common.1 hp
    exact Nat.max_le.2 ⟨hs.prefixLen_le q hq, hversion ▸ ho.prefixLen_le r hr⟩

/-- The test for an overlap finds out whether there is a common address. -/
theorem overlaps_iff_not_disjoint (hs : s.WellFormed) (ho : other.WellFormed)
    (hversion : s.version = other.version) :
    s.overlaps other = true ↔ ¬ Disjoint s.values other.values := by
  rw [Set.not_disjoint_iff_nonempty_inter]
  constructor
  · intro h
    rw [← values_common hs ho hversion]
    exact values_nonempty (wellFormed_common hs ho h)
  · rintro ⟨x, hx, hy⟩
    rw [mem_values_of_version hversion] at hy
    exact (overlaps_iff_meet hs ho).2 ⟨hversion, meet_of_picks hx.2 hy.2⟩

theorem mem_values_piece {bounds : List Bounds} {x : Nat} :
    x ∈ (s.piece bounds).values ↔ x ≤ s.version.maxValue ∧ Picks bounds (s.version.split x) :=
  Iff.rfl

/-- The pieces of a difference are sections. -/
theorem wellFormed_piece (hs : s.WellFormed) (ho : other.WellFormed) (h : s.overlaps other = true)
    {bounds : List Bounds} (hb : bounds ∈ differencePieces s.bounds other.bounds) :
    (s.piece bounds).WellFormed := by
  obtain ⟨hversion, hmeet⟩ := (overlaps_iff_meet hs ho).1 h
  obtain ⟨hlen, hwithin⟩ :=
    within_of_mem_differencePieces hmeet hs.within (hversion ▸ ho.within) hb
  refine wellFormed_of_within (hlen.trans hs.length_bounds) hwithin fun p hp => ?_
  obtain ⟨own, hown, hp⟩ := Option.bind_eq_some_iff.1 hp
  rw [piecePrefixLen] at hp
  split at hp
  · cases hp
  · cases hp
    exact Nat.max_le.2 ⟨Nat.sub_le _ _, hs.prefixLen_le own hown⟩

/-- The pieces of a difference hold the addresses of the first section that the second lacks. -/
theorem mem_union_pieces (hs : s.WellFormed) (ho : other.WellFormed)
    (h : s.overlaps other = true) {x : Nat} :
    x ∈ union ((differencePieces s.bounds other.bounds).map s.piece) ↔
      x ∈ s.values ∧ x ∉ other.values := by
  obtain ⟨hversion, hmeet⟩ := (overlaps_iff_meet hs ho).1 h
  have hpieces : (∃ bounds ∈ differencePieces s.bounds other.bounds,
      Picks bounds (s.version.split x)) ↔
        Picks s.bounds (s.version.split x) ∧ ¬ Picks other.bounds (s.version.split x) :=
    exists_picks_differencePieces hmeet
  rw [mem_values_of_version hversion, mem_union]
  simp only [List.mem_map, exists_exists_and_eq_and, mem_values_piece]
  constructor
  · rintro ⟨bounds, hb, hx, hpicks⟩
    obtain ⟨hin, hout⟩ := hpieces.1 ⟨bounds, hb, hpicks⟩
    exact ⟨⟨hx, hin⟩, fun hnot => hout hnot.2⟩
  · rintro ⟨⟨hx, hin⟩, hout⟩
    obtain ⟨bounds, hb, hpicks⟩ := hpieces.2 ⟨hin, fun hnot => hout ⟨hx, hnot⟩⟩
    exact ⟨bounds, hb, hx, hpicks⟩

/-- The pieces of a difference are pairwise disjoint. -/
theorem pairwise_disjoint_pieces (hs : s.WellFormed) (ho : other.WellFormed)
    (h : s.overlaps other = true) :
    ((differencePieces s.bounds other.bounds).map s.piece).Pairwise fun p q =>
      Disjoint p.values q.values := by
  obtain ⟨hversion, hmeet⟩ := (overlaps_iff_meet hs ho).1 h
  refine List.pairwise_map.2 ?_
  refine (pairwise_differencePieces hmeet ho.lower_le_upper).imp fun {p q} hpq => ?_
  exact Set.disjoint_left.2 fun x hx hy => hpq _ hx.2 hy.2

/-! ## The two operations together -/

/-- What the difference `pieces` and the intersection `common?` of two sections of one version have
to be. -/
structure IsPartition (s other : Section) (pieces : List Section) (common? : Option Section) :
    Prop where
  wellFormed : ∀ p ∈ pieces, p.WellFormed ∧ p.version = s.version
  disjoint_other : ∀ p ∈ pieces, Disjoint p.values other.values
  pairwise_disjoint : pieces.Pairwise fun p q => Disjoint p.values q.values
  eq_none_iff : common? = none ↔ Disjoint s.values other.values
  common_wellFormed : ∀ c ∈ common?, c.WellFormed ∧ c.version = s.version
  common_values : ∀ c ∈ common?, c.values = s.values ∩ other.values
  common_prefixLen : ∀ c ∈ common?, ∀ p, c.prefixLen = some p ↔
    ∃ q r, s.prefixLen = some q ∧ other.prefixLen = some r ∧ p = max q r
  union_eq : union pieces ∪ union common?.toList = s.values

/-- Sections that overlap are taken apart piece by piece. -/
theorem isPartition_of_overlaps (hs : s.WellFormed) (ho : other.WellFormed)
    (h : s.overlaps other = true) :
    IsPartition s other ((differencePieces s.bounds other.bounds).map s.piece)
      (some (s.common other)) := by
  obtain ⟨hversion, -⟩ := (overlaps_iff_meet hs ho).1 h
  have hvalues := values_common hs ho hversion
  have hsome : ∀ c ∈ some (s.common other), c = s.common other := by
    intro c hc
    exact (Option.some.inj hc).symm
  constructor
  case wellFormed =>
    intro p hp
    obtain ⟨bounds, hb, rfl⟩ := List.mem_map.1 hp
    exact ⟨wellFormed_piece hs ho h hb, rfl⟩
  case disjoint_other =>
    intro p hp
    exact Set.disjoint_left.2 fun x hx => ((mem_union_pieces hs ho h).1 ⟨p, hp, hx⟩).2
  case pairwise_disjoint => exact pairwise_disjoint_pieces hs ho h
  case eq_none_iff =>
    have hmeet := (overlaps_iff_not_disjoint hs ho hversion).1 h
    exact iff_of_false nofun hmeet
  case common_wellFormed =>
    intro c hc
    rw [hsome c hc]
    exact ⟨wellFormed_common hs ho h, rfl⟩
  case common_values =>
    intro c hc
    rw [hsome c hc, hvalues]
  case common_prefixLen =>
    intro c hc p
    rw [hsome c hc, prefixLen_common]
  case union_eq =>
    ext x
    have hcommon : x ∈ union (some (s.common other)).toList ↔ x ∈ s.values ∩ other.values := by
      simp [mem_union, hvalues]
    rw [Set.mem_union, mem_union_pieces hs ho h, hcommon, Set.mem_inter_iff, ← and_or_left]
    -- An address of the section is in the other one or it is not.
    exact and_iff_left (Classical.em _).symm

/-- Sections that do not overlap leave the first one whole. -/
theorem isPartition_of_not_overlaps (hs : s.WellFormed) (ho : other.WellFormed)
    (hversion : s.version = other.version) (h : ¬ s.overlaps other = true) :
    IsPartition s other [s] none := by
  have hdisjoint : Disjoint s.values other.values := by
    by_contra hnot
    exact h ((overlaps_iff_not_disjoint hs ho hversion).2 hnot)
  constructor
  case wellFormed => exact List.forall_mem_singleton.2 ⟨hs, rfl⟩
  case disjoint_other => exact List.forall_mem_singleton.2 hdisjoint
  case pairwise_disjoint => exact List.pairwise_singleton _ _
  case eq_none_iff => exact iff_of_true rfl hdisjoint
  case common_wellFormed => exact nofun
  case common_values => exact nofun
  case common_prefixLen => exact nofun
  case union_eq =>
    ext x
    simp [mem_union]

/-- **Difference and intersection take a section apart.** For sections of one version both exist.
The pieces of the difference are disjoint from each other and from the second section; the
intersection is absent exactly when no address is common, and otherwise holds the common addresses
and carries the longer of two prefix lengths; and together they make up the first section. For
sections of different versions both are the same error. -/
theorem difference_inter_partition (s other : Section) (hs : s.WellFormed)
    (ho : other.WellFormed) :
    (s.version = other.version → ∃ pieces common?,
      s.difference other = .ok pieces ∧ s.inter? other = .ok common? ∧
      IsPartition s other pieces common?) ∧
    (s.version ≠ other.version →
      s.difference other
        = .error (.sizeMismatch s.version.segmentCount other.version.segmentCount) ∧
      s.inter? other
        = .error (.sizeMismatch s.version.segmentCount other.version.segmentCount)) := by
  refine ⟨fun hversion => ⟨_, _, difference_eq hversion, inter?_eq hversion, ?_⟩,
    difference_inter_error⟩
  by_cases h : s.overlaps other = true
  · rw [if_pos h, if_pos h]
    exact isPartition_of_overlaps hs ho h
  · rw [if_neg h, if_neg h]
    exact isPartition_of_not_overlaps hs ho hversion h

/-- A box of sixteen addresses of which an inner one is taken away. -/
theorem difference_inter_partition_inner :
    let s : Section := ⟨.v4, [.single 10, .single 0, ⟨0, 3⟩, ⟨0, 3⟩], some 16⟩
    let other : Section := ⟨.v4, [.single 10, .single 0, .single 1, .single 1], some 32⟩
    s.WellFormed ∧ other.WellFormed ∧ ∃ pieces common?,
      s.difference other = .ok pieces ∧ s.inter? other = .ok common? ∧ pieces.length = 4 ∧
        IsPartition s other pieces common? := by
  intro s other
  have hs : s.WellFormed := ⟨rfl, by decide, by decide, by decide⟩
  have ho : other.WellFormed := ⟨rfl, by decide, by decide, by decide⟩
  obtain ⟨pieces, common?, hpieces, hcommon, hpartition⟩ :=
    (difference_inter_partition s other hs ho).1 rfl
  have hlen : (s.difference other).toOption.map List.length = some 4 := by decide
  rw [hpieces] at hlen
  exact ⟨hs, ho, pieces, common?, hpieces, hcommon, Option.some.inj hlen, hpartition⟩

end Section

end IpSpace
