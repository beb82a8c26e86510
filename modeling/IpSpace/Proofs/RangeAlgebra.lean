import IpSpace.Proofs.Values

/-!
# Ranges as sets of values

Two ranges of one version overlap if they share a value (`AddressRange.overlaps_iff`); what they
share is a range again (`AddressRange.values_clip`). So the intersection of two ranges is there
exactly if they meet, does not depend on their order, and is a range of addresses
(`AddressRange.inter?_eq_some_iff`, `AddressRange.inter?_comm`).

Where one of two ranges lies in the other, their intersection and their hull are not computed: one
of the two is returned as it is. That makes no difference (`AddressRange.inter?_eq`,
`AddressRange.hull?_eq`).
-/

namespace IpSpace.AddressRange

variable {r s t : AddressRange}

theorem overlaps_iff_ends :
    r.overlaps s = true ↔ s.version = r.version ∧ r.lower ≤ s.upper ∧ s.lower ≤ r.upper := by
  simp only [overlaps, Bool.and_eq_true, beq_iff_eq, decide_eq_true_eq, and_assoc]

theorem contains_iff_ends :
    r.contains s = true ↔ s.version = r.version ∧ r.lower ≤ s.lower ∧ s.upper ≤ r.upper := by
  simp only [contains, Bool.and_eq_true, beq_iff_eq, decide_eq_true_eq, and_assoc]

/-- Two ranges have one version and share a value. -/
structure Meets (r s : AddressRange) : Prop where
  version_eq : s.version = r.version
  nonempty : (r.values ∩ s.values).Nonempty

/-- Ranges overlap exactly if they share a value: the larger of their lower ends is one. -/
theorem overlaps_iff (hr : r.WellFormed) (hs : s.WellFormed) :
    r.overlaps s = true ↔ r.Meets s := by
  have hrle := hr.lower_le_upper
  have hsle := hs.lower_le_upper
  rw [overlaps_iff_ends]
  constructor
  · rintro ⟨hversion, hrs, hsr⟩
    refine ⟨hversion, max r.lower s.lower, ?_⟩
    rw [Set.mem_inter_iff, mem_values, mem_values]
    omega
  · rintro ⟨hversion, x, hxr, hxs⟩
    rw [mem_values] at hxr hxs
    exact ⟨hversion, by omega, by omega⟩

/-- What is left of a range in another one are the values of both. -/
theorem values_clip (r s : AddressRange) : (r.clip s).values = r.values ∩ s.values := by
  ext x
  simp only [clip, Set.mem_inter_iff, mem_values]
  omega

/-- A range is known by its version and its values. -/
theorem eq_of_values_eq (hr : r.lower ≤ r.upper) (hversion : r.version = s.version)
    (hvalues : r.values = s.values) : r = s := by
  obtain ⟨hlower, hupper⟩ := (Set.Icc_eq_Icc_iff hr).1 hvalues
  cases r
  cases s
  simp_all

/-- What is left of a range of addresses in a range that it meets is a range of addresses. -/
theorem wellFormed_clip (hr : r.WellFormed) (h : r.Meets s) : (r.clip s).WellFormed := by
  obtain ⟨x, hx⟩ := h.nonempty
  rw [← values_clip] at hx
  exact ⟨Nat.le_trans hx.1 hx.2, Nat.le_trans (Nat.min_le_left _ _) hr.upper_le_max⟩

/-- What is left of a range in one that it lies in is the range itself. -/
theorem clip_eq_left (h : s.contains r) : r.clip s = r := by
  obtain ⟨-, hlower, hupper⟩ := contains_iff_ends.1 h
  rw [clip, Nat.max_eq_left hlower, Nat.min_eq_left hupper]

/-- What is left of a range in one that lies in it is the other one. -/
theorem clip_eq_right (h : r.contains s) : r.clip s = s := by
  obtain ⟨hversion, hlower, hupper⟩ := contains_iff_ends.1 h
  rw [clip, Nat.max_eq_right hlower, Nat.min_eq_right hupper, ← hversion]

/-- The shortcuts of the intersection take what is left of the one range in the other as well. -/
theorem inter?_eq (r s : AddressRange) :
    r.inter? s = if r.overlaps s then some (r.clip s) else none := by
  unfold inter?
  by_cases hover : r.overlaps s = true
  · rw [if_pos hover, if_neg (by simp [hover])]
    split_ifs with hcontains hcontained
    · rw [clip_eq_right hcontains]
    · rw [clip_eq_left hcontained]
    · rfl
  · rw [if_neg hover, if_pos (by simp [hover])]

/-- The intersection of two ranges is there exactly if they meet, and is what they share. -/
theorem inter?_eq_some_iff (hr : r.WellFormed) (hs : s.WellFormed) :
    r.inter? s = some t ↔ r.Meets s ∧ t = r.clip s := by
  rw [← overlaps_iff hr hs, inter?_eq]
  split
  case isTrue hover => rw [Option.some_inj, and_iff_right hover, eq_comm]
  case isFalse hover => simp [hover]

/-- The intersection does not depend on the order of the ranges. -/
theorem inter?_comm (r s : AddressRange) : r.inter? s = s.inter? r := by
  have hover : r.overlaps s = s.overlaps r := by
    rw [Bool.eq_iff_iff, overlaps_iff_ends, overlaps_iff_ends, eq_comm,
      and_comm (a := r.lower ≤ s.upper)]
  rw [inter?_eq, inter?_eq, hover]
  split
  case isTrue h =>
    obtain ⟨hversion, -, -⟩ := overlaps_iff_ends.1 h
    rw [clip, clip, hversion, Nat.max_comm, Nat.min_comm]
  case isFalse => rfl

/-- The hull of two ranges reaches from the lesser of their lower ends to the greater of their upper
ends: in each relative position of the two, what is returned does. -/
theorem hull?_eq (r s : AddressRange) :
    r.hull? s = if s.version = r.version then
      some ⟨r.version, min r.lower s.lower, max r.upper s.upper⟩ else none := by
  unfold hull?
  split_ifs with hversion
  case neg => rfl
  have hright : s.lower ≤ r.lower → r.upper ≤ s.upper →
      s = ⟨r.version, min r.lower s.lower, max r.upper s.upper⟩ := fun hlower hupper => by
    rw [Nat.min_eq_right hlower, Nat.max_eq_right hupper, ← hversion]
  have hleft : r.lower ≤ s.lower → s.upper ≤ r.upper →
      r = ⟨r.version, min r.lower s.lower, max r.upper s.upper⟩ := fun hlower hupper => by
    rw [Nat.min_eq_left hlower, Nat.max_eq_left hupper]
  split
  all_goals
    rename_i hlower hupper
    simp only [Nat.compare_eq_lt, Nat.compare_eq_gt, Nat.compare_eq_eq] at hlower hupper
  -- In two rows the second range holds the first one, in four it is the other way round.
  iterate 2 exact congrArg some (hright (by omega) (by omega))
  iterate 4 exact congrArg some (hleft (by omega) (by omega))
  all_goals rfl

/-- Of a range that meets another one, what lies in front of that one is left and what lies behind
it, where there is something. -/
theorem mem_difference_iff (h : r.overlaps s = true) :
    t ∈ r.difference s ↔
      (r.lower < s.lower ∧ t = ⟨r.version, r.lower, s.lower - 1⟩) ∨
        (s.upper < r.upper ∧ t = ⟨r.version, s.upper + 1, r.upper⟩) := by
  rw [difference, if_pos h, List.mem_append, List.mem_ite_nil_right, List.mem_ite_nil_right,
    List.mem_singleton, List.mem_singleton]

/-- Cutting ranges down to a container leaves ranges of addresses. -/
theorem wellFormed_of_mem_filterMap_inter? {used : List AddressRange} {container : AddressRange}
    (hused : ∀ r ∈ used, r.WellFormed) (hc : container.WellFormed) :
    ∀ s ∈ used.filterMap fun r => r.inter? container, s.WellFormed := by
  intro s hs
  obtain ⟨r, hr, hs⟩ := List.mem_filterMap.1 hs
  obtain ⟨hmeets, rfl⟩ := (inter?_eq_some_iff (hused r hr) hc).1 hs
  exact wellFormed_clip (hused r hr) hmeets

/-- What ranges cover inside a container, they cover when each is cut down to the container. -/
theorem mem_covered_filterMap_inter? {used : List AddressRange} {container : AddressRange}
    (hused : ∀ r ∈ used, r.WellFormed) (hc : container.WellFormed) {version : Version} {x : Nat} :
    x ∈ covered (used.filterMap fun r => r.inter? container) version ↔
      version = container.version ∧ x ∈ container.values ∧ x ∈ covered used version := by
  simp only [mem_covered, List.mem_filterMap]
  constructor
  · rintro ⟨s, ⟨r, hr, hs⟩, hversion, hx⟩
    obtain ⟨hmeets, rfl⟩ := (inter?_eq_some_iff (hused r hr) hc).1 hs
    rw [values_clip] at hx
    exact ⟨hversion.symm.trans hmeets.version_eq.symm, hx.2, r, hr, hversion, hx.1⟩
  · rintro ⟨rfl, hxc, r, hr, hversion, hxr⟩
    have hmeets : r.Meets container := ⟨hversion.symm, x, hxr, hxc⟩
    refine ⟨r.clip container, ⟨r, hr, ?_⟩, hversion, ?_⟩
    · exact (inter?_eq_some_iff (hused r hr) hc).2 ⟨hmeets, rfl⟩
    · rw [values_clip]
      exact ⟨hxr, hxc⟩

end IpSpace.AddressRange
