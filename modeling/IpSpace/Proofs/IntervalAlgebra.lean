import IpSpace.Proofs.Building
import IpSpace.Proofs.Coalesce
import IpSpace.Proofs.RangeAlgebra

/-!
# Ranges as sets of addresses

An address is a version and a value, so a range is a set of such pairs (`AddressRange.points`), and
the operations on ranges are those on sets wherever the result is a range. The intersection of two
ranges is a range unless it is empty, and the union is a range if nothing lies between the two. What
is left of a range without another one takes at most two ranges. Ranges of different versions share
nothing, and no range holds both.

The operations compare ends, and the number next to an end decides whether two ranges are next to
each other: if they are not, it belongs to neither, and their union is no interval
(`AddressRange.touches_iff_exists_Icc`). The space does not wrap around. The greatest address has no
successor, zero has no predecessor, and a part of a difference is made only where the range reaches
past the other one, so that the end next to the other one is an address.
-/

namespace IpSpace.AddressRange

variable {r s t : AddressRange}

/-- The addresses of a range, each as a version and a value. -/
def points (r : AddressRange) : Set (Version × Nat) :=
  {r.version} ×ˢ r.values

/-! ## Inclusion -/

/-- A range lies in another one of its version if its ends do. -/
theorem points_subset_iff (hr : r.WellFormed) :
    r.points ⊆ s.points ↔ r.version = s.version ∧ s.lower ≤ r.lower ∧ r.upper ≤ s.upper := by
  have hnonempty : (({r.version} : Set Version) ×ˢ r.values).Nonempty :=
    (Set.singleton_nonempty _).prod (Set.nonempty_Icc.2 hr.lower_le_upper)
  rw [points, points, Set.prod_subset_prod_iff' hnonempty, Set.singleton_subset_singleton,
    values, values, Set.Icc_subset_Icc_iff hr.lower_le_upper]

/-- A range contains another one exactly if it has all of its addresses. -/
theorem contains_iff_subset (hs : s.WellFormed) : r.contains s = true ↔ s.points ⊆ r.points := by
  rw [points_subset_iff hs, contains_iff_ends]

/-- A section lies in a range if its lowest and its highest address do. -/
theorem contains_ofSection_iff {s : Section} (hs : s.WellFormed) :
    r.contains (ofSection s) = true ↔ ∀ x ∈ s.values, (s.version, x) ∈ r.points := by
  have hrange := Section.wellFormed_ofSection hs
  rw [contains_iff_subset hrange, points_subset_iff hrange]
  constructor
  · rintro ⟨hversion, hlower, hupper⟩ x hx
    have hends := Section.values_subset_Icc hs hx
    exact ⟨hversion, Nat.le_trans hlower hends.1, Nat.le_trans hends.2 hupper⟩
  · intro hall
    have hlower := hall _ (Section.lowerValue_mem hs)
    have hupper := hall _ (Section.upperValue_mem hs)
    exact ⟨hlower.1, hlower.2.1, hupper.2.2⟩

/-! ## Intersection -/

/-- Two ranges have no address in common exactly if they do not meet. -/
theorem disjoint_points_iff : Disjoint r.points s.points ↔ ¬ r.Meets s := by
  rw [Set.disjoint_left]
  constructor
  · rintro hdisjoint ⟨hversion, x, hxr, hxs⟩
    exact @hdisjoint (r.version, x) ⟨rfl, hxr⟩ ⟨hversion.symm, hxs⟩
  · rintro hmeets x ⟨hr, hxr⟩ ⟨hs, hxs⟩
    exact hmeets ⟨hs.symm.trans hr, x.2, hxr, hxs⟩

/-- Cutting a range to another one leaves the common addresses. -/
theorem points_clip (hversion : s.version = r.version) :
    (r.clip s).points = r.points ∩ s.points := by
  rw [points, points, points, values_clip, hversion, Set.prod_inter]
  rfl

/-- There is no intersection exactly if there is no common address. -/
theorem inter?_eq_none_iff (hr : r.WellFormed) (hs : s.WellFormed) :
    r.inter? s = none ↔ Disjoint r.points s.points := by
  rw [disjoint_points_iff, ← overlaps_iff hr hs, inter?_eq, ite_eq_right_iff]
  exact imp_congr_right fun _ => by simp

/-- **An intersection has exactly the common addresses.** -/
theorem points_of_inter? (hr : r.WellFormed) (hs : s.WellFormed) (h : r.inter? s = some t) :
    t.points = r.points ∩ s.points := by
  obtain ⟨hmeets, rfl⟩ := (inter?_eq_some_iff hr hs).1 h
  exact points_clip hmeets.version_eq

/-! ## Hull -/

/-- The range `t` is the smallest one that holds two ranges. -/
structure IsHull (r s t : AddressRange) : Prop where
  wellFormed : t.WellFormed
  left_subset : r.points ⊆ t.points
  right_subset : s.points ⊆ t.points
  least : ∀ u : AddressRange, u.WellFormed → r.points ⊆ u.points → s.points ⊆ u.points →
    t.points ⊆ u.points

/-- There is no hull exactly if the versions differ. -/
theorem hull?_eq_none_iff : r.hull? s = none ↔ r.version ≠ s.version := by
  rw [hull?_eq]
  split_ifs with hversion
  · simp [hversion]
  · simp [Ne.symm hversion]

/-- **A hull is the smallest range that holds both.** -/
theorem isHull_of_hull? (hr : r.WellFormed) (hs : s.WellFormed) (h : r.hull? s = some t) :
    IsHull r s t := by
  have ht := wellFormed_of_hull? hr hs h
  rw [hull?_eq, Option.ite_none_right_eq_some] at h
  obtain ⟨hversion, h⟩ := h
  obtain rfl := Option.some.inj h
  refine ⟨ht, ?_, ?_, fun u _ hru hsu => ?_⟩
  · rw [points_subset_iff hr]
    exact ⟨rfl, Nat.min_le_left _ _, Nat.le_max_left _ _⟩
  · rw [points_subset_iff hs]
    exact ⟨hversion, Nat.min_le_right _ _, Nat.le_max_right _ _⟩
  · rw [points_subset_iff hr] at hru
    rw [points_subset_iff hs] at hsu
    rw [points_subset_iff ht]
    exact ⟨hru.1, Nat.le_min.2 ⟨hru.2.1, hsu.2.1⟩, Nat.max_le.2 ⟨hru.2.2, hsu.2.2⟩⟩

/-! ## Union -/

/-- Ranges with a number between them do not make up an interval. -/
theorem union_ne_Icc_of_gap (hr : r.WellFormed) (hs : s.WellFormed) (hgap : r.upper + 1 < s.lower)
    (lower upper : Nat) : r.values ∪ s.values ≠ Set.Icc lower upper := by
  intro hunion
  have hbelow : r.upper ∈ Set.Icc lower upper := hunion ▸ Or.inl ⟨hr.lower_le_upper, Nat.le_refl _⟩
  have habove : s.lower ∈ Set.Icc lower upper := hunion ▸ Or.inr ⟨Nat.le_refl _, hs.lower_le_upper⟩
  have hbetween : r.upper + 1 ∈ r.values ∪ s.values :=
    hunion ▸ ⟨Nat.le_succ_of_le hbelow.1, Nat.le_trans (Nat.le_of_lt hgap) habove.2⟩
  rcases hbetween with hin | hin
  · exact Nat.not_succ_le_self _ hin.2
  · exact Nat.not_lt.2 hin.1 hgap

/-- Ranges without a gap between them make up what lies between the ends of both. -/
theorem values_union_of_touches (hr : r.WellFormed) (hs : s.WellFormed)
    (hrs : r.lower ≤ s.upper + 1) (hsr : s.lower ≤ r.upper + 1) :
    r.values ∪ s.values = Set.Icc (min r.lower s.lower) (max r.upper s.upper) := by
  have hrle := hr.lower_le_upper
  have hsle := hs.lower_le_upper
  ext x
  simp only [Set.mem_union, mem_values, Set.mem_Icc]
  omega

/-- Ranges of one version touch exactly if together they are an interval. -/
theorem touches_iff_exists_Icc (hr : r.WellFormed) (hs : s.WellFormed) :
    r.touches s = true ↔
      r.version = s.version ∧ ∃ lower upper, r.values ∪ s.values = Set.Icc lower upper := by
  rw [touches_iff hr.lower_le_upper hs.lower_le_upper]
  constructor
  · rintro ⟨hversion, hrs, hsr⟩
    exact ⟨hversion.symm, _, _, values_union_of_touches hr hs hrs hsr⟩
  · rintro ⟨hversion, lower, upper, hunion⟩
    refine ⟨hversion.symm, ?_, ?_⟩
    · by_contra hgap
      rw [Set.union_comm] at hunion
      exact union_ne_Icc_of_gap hs hr (by omega) lower upper hunion
    · by_contra hgap
      exact union_ne_Icc_of_gap hr hs (by omega) lower upper hunion

/-- **There is a union exactly if the addresses of both have no gap.** -/
theorem exists_union?_iff (hr : r.WellFormed) (hs : s.WellFormed) :
    (∃ t, r.union? s = some t) ↔
      r.version = s.version ∧ ∃ lower upper, r.values ∪ s.values = Set.Icc lower upper := by
  rw [← touches_iff_exists_Icc hr hs]
  unfold union?
  constructor
  · rintro ⟨t, h⟩
    exact (Option.ite_none_right_eq_some.1 h).1
  · intro htouch
    have hversion := ((touches_iff hr.lower_le_upper hs.lower_le_upper).1 htouch).1
    rw [if_pos htouch, hull?_eq, if_pos hversion]
    exact ⟨_, rfl⟩

/-- Where the union is a range, it is the hull, since there is no gap to be filled. -/
theorem points_of_union? (hr : r.WellFormed) (hs : s.WellFormed) (h : r.union? s = some t) :
    t.points = r.points ∪ s.points := by
  obtain ⟨htouch, h⟩ := Option.ite_none_right_eq_some.1 h
  obtain ⟨hversion, hrs, hsr⟩ := (touches_iff hr.lower_le_upper hs.lower_le_upper).1 htouch
  rw [hull?_eq, if_pos hversion, Option.some.injEq] at h
  have hvalues : t.values = r.values ∪ s.values := by
    rw [values_union_of_touches hr hs hrs hsr, ← h]
    rfl
  rw [points, points, points, hvalues, hversion, Set.prod_union, ← h]

/-! ## Difference -/

/-- The ranges of a list, at most two and in ascending order, make up what is in `r` and not in
`s`. -/
structure IsDifference (r s : AddressRange) (pieces : List AddressRange) : Prop where
  length_le : pieces.length ≤ 2
  wellFormed : ∀ t ∈ pieces, t.WellFormed
  version_eq : ∀ t ∈ pieces, t.version = r.version
  ascending : pieces.Pairwise fun t u => t.upper < u.lower
  disjoint : pieces.Pairwise fun t u => Disjoint t.points u.points
  mem_iff : ∀ x, (∃ t ∈ pieces, x ∈ t.points) ↔ x ∈ r.points \ s.points

theorem disjoint_of_upper_lt (h : s.upper < t.lower) : Disjoint s.points t.points := by
  rw [disjoint_points_iff]
  rintro ⟨-, x, hxs, hxt⟩
  exact Nat.not_lt.2 (Nat.le_trans hxt.1 hxs.2) h

/-- A range that shares nothing with the other one is left as it is. -/
theorem isDifference_of_disjoint (hr : r.WellFormed) (h : Disjoint r.points s.points) :
    IsDifference r s [r] where
  length_le := by simp
  wellFormed := List.forall_mem_singleton.2 hr
  version_eq := List.forall_mem_singleton.2 rfl
  ascending := List.pairwise_singleton _ _
  disjoint := List.pairwise_singleton _ _
  mem_iff x := by
    rw [h.sdiff_eq_left]
    simp only [List.mem_singleton, exists_eq_left]

/-- The parts of a range in front of and behind another one that it meets hold what is not in the
other one: an address of the range that is not in it lies on one side of it. -/
theorem exists_mem_difference_iff (hover : r.overlaps s = true) {x : Version × Nat} :
    (∃ t ∈ r.difference s, x ∈ t.points) ↔ x ∈ r.points \ s.points := by
  obtain ⟨hversion, hlower, hupper⟩ := overlaps_iff_ends.1 hover
  constructor
  · rintro ⟨t, ht, hversion, hx⟩
    rcases (mem_difference_iff hover).1 ht with ⟨hfront, rfl⟩ | ⟨hbehind, rfl⟩
    · obtain ⟨hxlower, hxupper⟩ : r.lower ≤ x.2 ∧ x.2 ≤ s.lower - 1 := hx
      refine ⟨⟨hversion, hxlower, by omega⟩, fun hxs => ?_⟩
      have := hxs.2.1
      omega
    · obtain ⟨hxlower, hxupper⟩ : s.upper + 1 ≤ x.2 ∧ x.2 ≤ r.upper := hx
      refine ⟨⟨hversion, by omega, hxupper⟩, fun hxs => ?_⟩
      exact Nat.not_lt.2 hxs.2.2 hxlower
  · rintro ⟨⟨hxversion, hxr⟩, hxs⟩
    -- An address that is left lies on one side of the other range, where a piece is.
    have hside : x.2 < s.lower ∨ s.upper < x.2 := by
      by_contra hin
      rw [not_or, Nat.not_lt, Nat.not_lt] at hin
      exact hxs ⟨hxversion.trans hversion.symm, hin⟩
    rcases hside with hfront | hbehind
    · refine ⟨_, (mem_difference_iff hover).2 (Or.inl ⟨?_, rfl⟩), hxversion, hxr.1, ?_⟩
      · exact Nat.lt_of_le_of_lt hxr.1 hfront
      · exact Nat.le_sub_one_of_lt hfront
    · refine ⟨_, (mem_difference_iff hover).2 (Or.inr ⟨?_, rfl⟩), hxversion, hbehind, hxr.2⟩
      exact Nat.lt_of_lt_of_le hbehind hxr.2

/-- The pieces of a difference come in ascending order. -/
theorem ascending_difference (hs : s.WellFormed) :
    (r.difference s).Pairwise fun t u => t.upper < u.lower := by
  have := hs.lower_le_upper
  unfold difference
  split_ifs
  · simp
    omega
  all_goals simp

/-- **The pieces of a difference are exactly what the other range does not have.** -/
theorem isDifference_difference (hr : r.WellFormed) (hs : s.WellFormed) :
    IsDifference r s (r.difference s) := by
  by_cases hover : r.overlaps s = true
  case neg =>
    have hdisjoint : Disjoint r.points s.points := by
      rwa [disjoint_points_iff, ← overlaps_iff hr hs]
    rw [difference, if_neg hover]
    exact isDifference_of_disjoint hr hdisjoint
  refine ⟨?_, fun t ht => wellFormed_of_mem_difference hr ht, fun t ht => ?_,
    ascending_difference hs, (ascending_difference hs).imp disjoint_of_upper_lt,
    fun x => exists_mem_difference_iff hover⟩
  · rw [difference, if_pos hover]
    split_ifs <;> simp
  · rcases (mem_difference_iff hover).1 ht with ⟨-, rfl⟩ | ⟨-, rfl⟩
    · rfl
    · rfl

/-! ## The algebra -/

/-- **The operations on ranges are those on sets of addresses.** The intersection of two ranges is
missing exactly if they are disjoint; the union is there exactly if the two have one version and
make up an interval; there is a hull exactly if they have one version, and it is the smallest range
that holds both; the difference is a list of at most two ranges, in ascending order, that share
nothing. One range contains another one, or the addresses of a section, exactly if it holds all of
them. -/
theorem intervalAlgebra_exact (r s : AddressRange) (hr : r.WellFormed) (hs : s.WellFormed) :
    ((r.inter? s = none ↔ Disjoint r.points s.points) ∧
      ∀ t, r.inter? s = some t → t.WellFormed ∧ t.points = r.points ∩ s.points) ∧
    (((∃ t, r.union? s = some t) ↔
        r.version = s.version ∧ ∃ lower upper, r.values ∪ s.values = Set.Icc lower upper) ∧
      ∀ t, r.union? s = some t → t.WellFormed ∧ t.points = r.points ∪ s.points) ∧
    ((r.hull? s = none ↔ r.version ≠ s.version) ∧ ∀ t, r.hull? s = some t → IsHull r s t) ∧
    IsDifference r s (r.difference s) ∧
    (r.contains s = true ↔ s.points ⊆ r.points) ∧
    ∀ a : Address, a.body.WellFormed →
      (r.contains (ofSection a.body) = true ↔ ∀ x ∈ a.body.values, (a.version, x) ∈ r.points) := by
  refine ⟨⟨inter?_eq_none_iff hr hs, fun t ht => ?_⟩, ⟨exists_union?_iff hr hs, fun t ht => ?_⟩,
    ⟨hull?_eq_none_iff, fun t ht => isHull_of_hull? hr hs ht⟩, isDifference_difference hr hs,
    contains_iff_subset hs, fun a ha => contains_ofSection_iff ha⟩
  · exact ⟨wellFormed_of_inter? hr hs ht, points_of_inter? hr hs ht⟩
  · exact ⟨wellFormed_of_union? hr hs ht, points_of_union? hr hs ht⟩

/-- The least and the greatest IPv6 address are not next to each other: the smallest range that
holds both is that of all addresses, and their union is none. Of all addresses without the greatest
one, one range is left. -/
theorem intervalAlgebra_exact_edges :
    let all : AddressRange := ⟨.v6, 0, 2 ^ 128 - 1⟩
    let least : AddressRange := ⟨.v6, 0, 0⟩
    let greatest : AddressRange := ⟨.v6, 2 ^ 128 - 1, 2 ^ 128 - 1⟩
    IsHull greatest least all ∧
      (¬ ∃ lower upper, greatest.values ∪ least.values = Set.Icc lower upper) ∧
      IsDifference all greatest [⟨.v6, 0, 2 ^ 128 - 2⟩] := by
  intro all least greatest
  have hall : all.WellFormed := ⟨by decide, by decide⟩
  have hleast : least.WellFormed := ⟨by decide, by decide⟩
  have hgreatest : greatest.WellFormed := ⟨by decide, by decide⟩
  obtain ⟨-, ⟨hunion, -⟩, ⟨-, hhull⟩, -⟩ := intervalAlgebra_exact greatest least hgreatest hleast
  obtain ⟨-, -, -, hdifference, -⟩ := intervalAlgebra_exact all greatest hall hgreatest
  refine ⟨hhull all (by decide), fun hinterval => ?_, hdifference⟩
  obtain ⟨t, ht⟩ := hunion.2 ⟨rfl, hinterval⟩
  have hnone : greatest.union? least = none := by decide
  rw [hnone] at ht
  cases ht

end IpSpace.AddressRange
