import IpSpace.FreeSpace
import IpSpace.Proofs.Coalesce
import IpSpace.Proofs.PrefixBlocks
import IpSpace.Proofs.RangeAlgebra

/-!
# Free space is exact

`freeSpace` clips the used ranges to the container, coalesces them, and scans the result with a
cursor. What the scan yields from the cursor on are the gaps of the addresses behind the cursor that
no range covers (`Gap.fills_beside`). One step of the scan puts the gap in front of a range before
the gaps behind it; the range itself keeps the two apart (`Gap.Fills.append`), so no two gaps touch.

Since the coalesced ranges cover what the used ones cover inside the container, the gaps are exactly
the free part of the container, and each comes with the fewest prefix blocks that make it up.
-/

namespace IpSpace

open AddressRange (coalesce covered)

namespace Gap

/-! ## Lists of gaps -/

/-- The gaps, each with its split into prefix blocks, make up a set of addresses of one version.
They are in ascending order, and something that is not free lies between any two of them. -/
structure Fills (version : Version) (free : Set Nat) (gaps : List Gap) : Prop where
  version_eq : ∀ g ∈ gaps, g.range.version = version
  lower_le_upper : ∀ g ∈ gaps, g.range.lower ≤ g.range.upper
  blocks_eq : ∀ g ∈ gaps, g.blocks = g.range.toBlocks
  pairwise : gaps.Pairwise fun a b => a.range.upper + 1 < b.range.lower
  mem_iff : ∀ x, (∃ g ∈ gaps, x ∈ g.range.values) ↔ x ∈ free

section Fills

variable {version : Version} {free behind : Set Nat} {gaps later : List Gap}

/-- The ends of a gap are free. -/
theorem Fills.ends_mem (h : Fills version free gaps) {g : Gap} (hg : g ∈ gaps) :
    g.range.lower ∈ free ∧ g.range.upper ∈ free := by
  have hle := h.lower_le_upper g hg
  exact ⟨(h.mem_iff _).1 ⟨g, hg, Nat.le_refl _, hle⟩, (h.mem_iff _).1 ⟨g, hg, hle, Nat.le_refl _⟩⟩

/-- Gaps of two sets that are kept apart make up the union of the sets. -/
theorem Fills.append (h : Fills version free gaps) (hlater : Fills version behind later)
    (hapart : ∀ x ∈ free, ∀ y ∈ behind, x + 1 < y) :
    Fills version (free ∪ behind) (gaps ++ later) where
  version_eq := List.forall_mem_append.2 ⟨h.version_eq, hlater.version_eq⟩
  lower_le_upper := List.forall_mem_append.2 ⟨h.lower_le_upper, hlater.lower_le_upper⟩
  blocks_eq := List.forall_mem_append.2 ⟨h.blocks_eq, hlater.blocks_eq⟩
  pairwise := by
    refine List.pairwise_append.2 ⟨h.pairwise, hlater.pairwise, fun a ha b hb => ?_⟩
    exact hapart _ (h.ends_mem ha).2 _ (hlater.ends_mem hb).1
  mem_iff x := by
    rw [Set.mem_union, ← h.mem_iff, ← hlater.mem_iff]
    simp only [List.mem_append, or_and_right, exists_or]

/-- A single gap, unless it would be empty. -/
theorem fills_ofEnds (version : Version) (lower bound : Nat) :
    Fills version (Set.Ico lower bound)
      (if lower < bound then [ofEnds version lower (bound - 1)] else []) := by
  split
  case isTrue hlt =>
    refine ⟨?_, ?_, ?_, List.pairwise_singleton _ _, fun x => ?_⟩
    · exact List.forall_mem_singleton.2 rfl
    · exact List.forall_mem_singleton.2 (Nat.le_sub_one_of_lt hlt)
    · exact List.forall_mem_singleton.2 rfl
    · simp only [List.mem_singleton, exists_eq_left, AddressRange.mem_values, ofEnds, Set.mem_Ico]
      omega
  case isFalse hlt =>
    refine ⟨by simp, by simp, by simp, List.Pairwise.nil, fun x => ?_⟩
    simp only [List.not_mem_nil, false_and, exists_false, Set.mem_Ico, false_iff]
    omega

end Fills

/-! ## The scan -/

/-- Ranges that the scan may meet from `next` on: parts of the container, in ascending order and
with a gap between any two. -/
structure Ahead (container : AddressRange) (next : Nat) (used : List AddressRange) : Prop where
  version_eq : ∀ r ∈ used, r.version = container.version
  next_le : ∀ r ∈ used, next ≤ r.lower
  lower_le_upper : ∀ r ∈ used, r.lower ≤ r.upper
  upper_le : ∀ r ∈ used, r.upper ≤ container.upper
  pairwise : used.Pairwise fun a b => a.upper + 1 < b.lower

section Scan

variable {container r : AddressRange} {next : Nat} {used : List AddressRange}

/-- Behind the first range the scan meets the others. -/
theorem Ahead.tail (h : Ahead container next (r :: used)) :
    Ahead container (r.upper + 1) used where
  version_eq := (List.forall_mem_cons.1 h.version_eq).2
  next_le s hs := Nat.le_of_lt ((List.pairwise_cons.1 h.pairwise).1 s hs)
  lower_le_upper := (List.forall_mem_cons.1 h.lower_le_upper).2
  upper_le := (List.forall_mem_cons.1 h.upper_le).2
  pairwise := (List.pairwise_cons.1 h.pairwise).2

/-- What the scan has still to meet lies at the cursor or behind it. -/
theorem Ahead.le_of_mem_covered (h : Ahead container next used) {version : Version} {x : Nat}
    (hx : x ∈ covered used version) : next ≤ x := by
  obtain ⟨r, hr, -, hxr⟩ := hx
  exact Nat.le_trans (h.next_le r hr) hxr.1

/-- What is free from the cursor on lies in front of the first range, or is free behind it. -/
theorem Ahead.free_cons (h : Ahead container next (r :: used)) :
    Set.Icc next container.upper \ covered (r :: used) container.version
      = Set.Ico next r.lower ∪
        (Set.Icc (r.upper + 1) container.upper \ covered used container.version) := by
  have hversion := h.version_eq r List.mem_cons_self
  have hnext := h.next_le r List.mem_cons_self
  have hle := h.lower_le_upper r List.mem_cons_self
  have hupper := h.upper_le r List.mem_cons_self
  ext x
  have hbehind : x ∈ covered used container.version → r.upper + 1 ≤ x := h.tail.le_of_mem_covered
  rw [Set.mem_union, Set.mem_sdiff, Set.mem_sdiff, Set.mem_Icc, Set.mem_Icc, Set.mem_Ico,
    AddressRange.mem_covered_cons, and_iff_right hversion, AddressRange.mem_values]
  by_cases hx : x ∈ covered used container.version
  · have := hbehind hx
    simp only [hx, or_true, not_true_eq_false, and_false, or_false, false_iff]
    omega
  · simp only [hx, or_false, not_false_eq_true, and_true]
    omega

/-- **The scan finds the free addresses** from the cursor to the end of the container. -/
theorem fills_beside (h : Ahead container next used) :
    Fills container.version (Set.Icc next container.upper \ covered used container.version)
      (beside container next used) := by
  induction used generalizing next with
  | nil =>
      rw [AddressRange.covered_nil, Set.sdiff_empty, beside]
      have hall := fills_ofEnds container.version next (container.upper + 1)
      simp only [Nat.lt_succ_iff, Nat.add_sub_cancel] at hall
      have hset : Set.Ico next (container.upper + 1) = Set.Icc next container.upper := by
        ext x
        rw [Set.mem_Ico, Set.mem_Icc, Nat.lt_succ_iff]
      rwa [hset] at hall
  | cons r used ih =>
      rw [h.free_cons, beside]
      refine (fills_ofEnds container.version next r.lower).append (ih h.tail) ?_
      rintro x ⟨-, hx⟩ y ⟨⟨hy, -⟩, -⟩
      have := h.lower_le_upper r List.mem_cons_self
      omega

end Scan

end Gap

/-! ## The used ranges -/

section Used

variable {container : AddressRange} {used : List AddressRange}

/-- The used ranges, cut down to the container and coalesced. -/
private theorem mem_covered_clipped (hc : container.WellFormed) (hused : ∀ r ∈ used, r.WellFormed)
    {version : Version} {x : Nat} :
    x ∈ covered (coalesce (used.filterMap fun r => r.inter? container)) version ↔
      version = container.version ∧ x ∈ container.values ∧ x ∈ covered used version := by
  rw [AddressRange.covered_coalesce (AddressRange.wellFormed_of_mem_filterMap_inter? hused hc),
    AddressRange.mem_covered_filterMap_inter? hused hc]

/-- The scan may meet the used ranges once they are cut down to the container and coalesced. -/
theorem ahead_clipped (hc : container.WellFormed) (hused : ∀ r ∈ used, r.WellFormed) :
    Gap.Ahead container container.lower
      (coalesce (used.filterMap fun r => r.inter? container)) := by
  have hwf := AddressRange.wellFormed_of_mem_filterMap_inter? hused hc
  have hsep := AddressRange.separated_coalesce hwf
  -- The ends of a coalesced range are covered, so they belong to the container.
  have hends : ∀ r ∈ coalesce (used.filterMap fun r => r.inter? container),
      r.version = container.version ∧ r.lower ∈ container.values ∧ r.upper ∈ container.values := by
    intro r hr
    have hle := hsep.lower_le_upper r hr
    obtain ⟨hversion, hlower, -⟩ := (mem_covered_clipped hc hused (x := r.lower)).1
      ⟨r, hr, rfl, Nat.le_refl _, hle⟩
    obtain ⟨-, hupper, -⟩ := (mem_covered_clipped hc hused (x := r.upper)).1
      ⟨r, hr, rfl, hle, Nat.le_refl _⟩
    exact ⟨hversion, hlower, hupper⟩
  refine ⟨fun r hr => (hends r hr).1, fun r hr => (hends r hr).2.1.1, hsep.lower_le_upper,
    fun r hr => (hends r hr).2.2.2, ?_⟩
  refine hsep.pairwise.imp_of_mem fun {a b} ha hb hab => ?_
  exact hab.gap ((hends a ha).1.trans (hends b hb).1.symm)

/-- The gaps that used ranges leave are those of what they do not cover of the container. -/
theorem fills_freeSpace (hc : container.WellFormed) (hused : ∀ r ∈ used, r.WellFormed) :
    Gap.Fills container.version (container.values \ covered used container.version)
      (freeSpace container used) := by
  have hfills := Gap.fills_beside (ahead_clipped hc hused)
  have hset : Set.Icc container.lower container.upper
        \ covered (coalesce (used.filterMap fun r => r.inter? container)) container.version
      = container.values \ covered used container.version := by
    ext x
    rw [Set.mem_sdiff, Set.mem_sdiff, mem_covered_clipped hc hused, and_iff_right rfl]
    exact and_congr_right fun hx => not_congr (and_iff_right hx)
  rwa [hset] at hfills

/-- The gaps depend on nothing but what the used ranges cover of the container's version. -/
theorem freeSpace_eq_of_covered_eq {others : List AddressRange} (hc : container.WellFormed)
    (hused : ∀ r ∈ used, r.WellFormed) (hothers : ∀ r ∈ others, r.WellFormed)
    (hcovered : covered used container.version = covered others container.version) :
    freeSpace container used = freeSpace container others := by
  have hclipped : coalesce (used.filterMap fun r => r.inter? container)
      = coalesce (others.filterMap fun r => r.inter? container) := by
    apply (AddressRange.coalesce_eq_coalesce_iff
      (AddressRange.wellFormed_of_mem_filterMap_inter? hused hc)
      (AddressRange.wellFormed_of_mem_filterMap_inter? hothers hc)).2
    intro version
    ext x
    rw [AddressRange.mem_covered_filterMap_inter? hused hc,
      AddressRange.mem_covered_filterMap_inter? hothers hc]
    refine and_congr_right fun hversion => ?_
    rw [hversion, hcovered]
  rw [freeSpace, freeSpace, hclipped]

end Used

/-- **Free space is exact, in order, and split into the fewest prefix blocks.** The gaps that used
ranges leave in a container are ranges of addresses of its version, none of which overlaps or
touches the one after it; together they hold the values of the container that no used range of its
version covers; and each comes with prefix blocks, in ascending order, that make it up and are the
fewest that do. -/
theorem freeSpace_exact_shortest (container : AddressRange) (used : List AddressRange)
    (hc : container.WellFormed) (hused : ∀ r ∈ used, r.WellFormed) :
    (∀ g ∈ freeSpace container used, g.range.WellFormed ∧
      g.range.version = container.version) ∧
    ((freeSpace container used).Pairwise fun a b => a.range.upper + 1 < b.range.lower) ∧
    covered ((freeSpace container used).map (·.range)) container.version
      = container.values \ covered used container.version ∧
    ∀ g ∈ freeSpace container used,
      (∀ s ∈ g.blocks, ∃ p, s.prefixLen = some p ∧ s.IsPrefixBlock p) ∧
      Section.IsFewest (Section.IsBlockOf container.version) g.range.values g.blocks := by
  have hfills := fills_freeSpace hc hused
  have hwf : ∀ g ∈ freeSpace container used, g.range.WellFormed := by
    intro g hg
    obtain ⟨⟨-, hupper⟩, -⟩ := (hfills.ends_mem hg).2
    refine ⟨hfills.lower_le_upper g hg, ?_⟩
    rw [hfills.version_eq g hg]
    exact Nat.le_trans hupper hc.upper_le_max
  refine ⟨fun g hg => ⟨hwf g hg, hfills.version_eq g hg⟩, hfills.pairwise, ?_, fun g hg => ?_⟩
  · ext x
    rw [← hfills.mem_iff, AddressRange.mem_covered]
    simp only [List.mem_map, exists_exists_and_eq_and]
    exact exists_congr fun g => and_congr_right fun hg => and_iff_right (hfills.version_eq g hg)
  · rw [hfills.blocks_eq g hg, ← hfills.version_eq g hg]
    refine ⟨fun s hs => (AddressRange.isPrefixBlock_of_mem_toBlocks (hwf g hg) hs).2, ?_⟩
    exact (AddressRange.isSplit_toBlocks (hwf g hg)).isFewest
      (Section.isIntervalKind_isBlockOf _)

/-- Ranges that overlap, that end with the highest address or that have another version leave the
two gaps below them. -/
theorem freeSpace_exact_shortest_v6 :
    let container : AddressRange := ⟨.v6, 0, 2 ^ 128 - 1⟩
    let used : List AddressRange := [⟨.v6, 2 ^ 127, 2 ^ 128 - 1⟩, ⟨.v6, 7, 2 ^ 127 + 9⟩,
      ⟨.v4, 0, 2 ^ 32 - 1⟩, ⟨.v6, 3, 3⟩]
    container.WellFormed ∧ (∀ r ∈ used, r.WellFormed) ∧
      covered ((freeSpace container used).map (·.range)) .v6 = Set.Icc 0 2 ∪ Set.Icc 4 6 ∧
      ∀ g ∈ freeSpace container used,
        Section.IsFewest (Section.IsBlockOf .v6) g.range.values g.blocks := by
  intro container used
  have hc : container.WellFormed := by decide
  have hused : ∀ r ∈ used, r.WellFormed := by decide
  obtain ⟨-, -, hcovered, hblocks⟩ := freeSpace_exact_shortest container used hc hused
  refine ⟨hc, hused, ?_, fun g hg => (hblocks g hg).2⟩
  rw [hcovered]
  ext x
  simp only [container, used, Set.mem_sdiff, AddressRange.mem_covered_cons,
    AddressRange.covered_nil, AddressRange.mem_values, Set.mem_union, Set.mem_Icc,
    Set.mem_empty_iff_false, true_and, reduceCtorEq, false_and, false_or, or_false]
  omega

end IpSpace
