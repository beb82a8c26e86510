import IpSpace.Proofs.Coalesce
import IpSpace.Proofs.PrefixBlocks
import IpSpace.Proofs.SequentialSpans

/-!
# Merging addresses

Merging replaces a list of addresses by the fewest prefix blocks, or the fewest sequential sections,
with the same union. The sections of the list are split into ranges, these are coalesced, and every
range of the result is split on its own.

That this is shortest does not depend on the kind of section. A set of the kind that lies in the
union has no gaps, so it cannot leave the range that it begins in: the coalesced ranges are
separated. So what is maximal in its range is maximal in the union (`isFewest_flatMap`). And since
the coalesced ranges are determined by the union, so is the result.
-/

namespace IpSpace

/-! ## Splitting separated ranges -/

namespace AddressRange

variable {version : Version} {ranges : List AddressRange} {kind : Section → Prop}

/-- **Splits of separated ranges make up a shortest decomposition** of what the ranges cover. -/
theorem isFewest_flatMap (hkind : Section.IsIntervalKind kind) (hsep : Separated ranges)
    (hversion : ∀ r ∈ ranges, r.version = version) {split : AddressRange → List Section}
    (hsplit : ∀ r ∈ ranges, Section.IsSplit kind r (split r)) :
    Section.IsFewest kind (covered ranges version) (ranges.flatMap split) := by
  have hmem : ∀ s ∈ ranges.flatMap split, ∃ r ∈ ranges, s ∈ split r := fun s hs =>
    List.mem_flatMap.1 hs
  refine .of_isMaximal (fun s hs => ?_) (fun s hs => ?_) ?_ ?_ fun s hs => ?_
  · obtain ⟨r, hr, hsr⟩ := hmem s hs
    exact (hsplit r hr).of_kind s hsr
  · obtain ⟨r, hr, hsr⟩ := hmem s hs
    exact hkind.wellFormed s ((hsplit r hr).of_kind s hsr)
  · refine List.pairwise_flatMap.2 ⟨fun r hr => (hsplit r hr).ascending hkind, ?_⟩
    -- Sections from different ranges are ordered as the ranges are.
    refine hsep.pairwise.imp_of_mem fun {a b} ha hb hab s hs t ht x hx y hy => ?_
    have hgap := hab.gap ((hversion a ha).trans (hversion b hb).symm)
    have hxa := ((hsplit a ha).isMaximal s hs).subset hx
    have hyb := ((hsplit b hb).isMaximal t ht).subset hy
    exact Nat.lt_of_le_of_lt hxa.2 (Nat.lt_of_lt_of_le (by omega) hyb.1)
  · ext x
    rw [Section.mem_union, mem_covered]
    constructor
    · rintro ⟨s, hs, hx⟩
      obtain ⟨r, hr, hsr⟩ := hmem s hs
      exact ⟨r, hr, hversion r hr, ((hsplit r hr).isMaximal s hsr).subset hx⟩
    · rintro ⟨r, hr, -, hx⟩
      rw [← (hsplit r hr).union_eq hkind] at hx
      obtain ⟨s, hs, hxs⟩ := hx
      exact ⟨s, List.mem_flatMap.2 ⟨r, hr, hs⟩, hxs⟩
  · obtain ⟨r, hr, hsr⟩ := hmem s hs
    -- The range has a gap on either side, and sets of the kind do not leap over gaps.
    have hcomponent := hsep.isComponent hr
    rw [hversion r hr] at hcomponent
    exact ((hsplit r hr).isMaximal s hsr).of_component hkind.ordConnected hcomponent.subset
      hcomponent.gap_below hcomponent.gap_above

end AddressRange

namespace Address

open AddressRange (coalesce covered)

/-! ## The ranges of a list -/

/-- The ranges of all sections of a list. -/
def ranges (addresses : List Address) : List AddressRange :=
  addresses.flatMap (·.body.ranges)

/-- The values of all sections of a list. -/
def union (addresses : List Address) : Set Nat :=
  Section.union (addresses.map (·.body))

theorem mem_union {addresses : List Address} {x : Nat} :
    x ∈ union addresses ↔ ∃ a ∈ addresses, x ∈ a.body.values := by
  rw [union, Section.mem_union]
  simp only [List.mem_map, exists_exists_and_eq_and]

/-- Addresses of one version that are all well-formed. -/
structure AllOf (version : Version) (addresses : List Address) : Prop where
  wellFormed : ∀ a ∈ addresses, a.body.WellFormed
  version_eq : ∀ a ∈ addresses, a.version = version

variable {version : Version} {addresses others : List Address}

/-- The ranges of a list are ranges of addresses of its version. -/
theorem AllOf.of_mem_ranges (h : AllOf version addresses) {r : AddressRange}
    (hr : r ∈ ranges addresses) : r.WellFormed ∧ r.version = version := by
  obtain ⟨a, ha, hra⟩ := List.mem_flatMap.1 hr
  obtain ⟨hwf, hversion⟩ := Section.wellFormed_of_mem_ranges (h.wellFormed a ha) hra
  exact ⟨hwf, hversion.trans (h.version_eq a ha)⟩

theorem AllOf.wellFormed_ranges (h : AllOf version addresses) :
    ∀ r ∈ ranges addresses, r.WellFormed := by
  intro r hr
  exact (h.of_mem_ranges hr).1

/-- The ranges of a list cover its union, and nothing of another version. -/
theorem AllOf.mem_covered_ranges (h : AllOf version addresses) {other : Version} {x : Nat} :
    x ∈ covered (ranges addresses) other ↔ other = version ∧ x ∈ union addresses := by
  rw [AddressRange.mem_covered, mem_union]
  constructor
  · rintro ⟨r, hr, hversion, hx⟩
    obtain ⟨a, ha, hra⟩ := List.mem_flatMap.1 hr
    exact ⟨hversion.symm.trans (h.of_mem_ranges hr).2, a, ha,
      (Section.mem_values_iff_ranges (h.wellFormed a ha)).2 ⟨r, hra, hx⟩⟩
  · rintro ⟨rfl, a, ha, hx⟩
    obtain ⟨r, hra, hxr⟩ := (Section.mem_values_iff_ranges (h.wellFormed a ha)).1 hx
    have hr : r ∈ ranges addresses := List.mem_flatMap.2 ⟨a, ha, hra⟩
    exact ⟨r, hr, (h.of_mem_ranges hr).2, hxr⟩

/-- What is covered by the coalesced ranges of a list. -/
theorem AllOf.covered_coalesce (h : AllOf version addresses) :
    covered (coalesce (ranges addresses)) version = union addresses := by
  rw [AddressRange.covered_coalesce h.wellFormed_ranges]
  ext x
  rw [h.mem_covered_ranges, and_iff_right rfl]

/-- The coalesced ranges of a list are separated ranges of addresses of its version. -/
theorem AllOf.separated (h : AllOf version addresses) :
    AddressRange.Separated (coalesce (ranges addresses)) :=
  AddressRange.separated_coalesce h.wellFormed_ranges

/-- Every coalesced range of a list is a range of addresses of its version. -/
theorem AllOf.of_mem_coalesce (h : AllOf version addresses) {r : AddressRange}
    (hr : r ∈ coalesce (ranges addresses)) : r.WellFormed ∧ r.version = version := by
  have hwf := AddressRange.wellFormed_of_mem_coalesce h.wellFormed_ranges r hr
  have hmem : r.lower ∈ covered (coalesce (ranges addresses)) r.version :=
    ⟨r, hr, rfl, Nat.le_refl _, hwf.lower_le_upper⟩
  rw [AddressRange.covered_coalesce h.wellFormed_ranges] at hmem
  exact ⟨hwf, (h.mem_covered_ranges.1 hmem).1⟩

/-- Lists of one version with the same union have the same coalesced ranges. -/
theorem AllOf.coalesce_eq (h : AllOf version addresses) (ho : AllOf version others)
    (hunion : union others = union addresses) :
    coalesce (ranges others) = coalesce (ranges addresses) := by
  refine (AddressRange.coalesce_eq_coalesce_iff ho.wellFormed_ranges h.wellFormed_ranges).2
    fun other => ?_
  ext x
  rw [ho.mem_covered_ranges, h.mem_covered_ranges, hunion]

/-! ## The check of the versions -/

/-- A list of one version passes the check. -/
theorem AllOf.mergedRanges_eq (h : AllOf version addresses) :
    mergedRanges addresses = .ok (coalesce (ranges addresses)) := by
  cases addresses with
  | nil => simp [mergedRanges, ranges, coalesce]
  | cons first rest =>
      have hnone : (first :: rest).find? (·.version ≠ first.version) = none := by
        refine List.find?_eq_none.2 fun a ha => ?_
        simp [h.version_eq a ha, h.version_eq first List.mem_cons_self]
      rw [mergedRanges, hnone]
      rfl

/-- The check fails exactly on lists that mix versions. -/
theorem mergedRanges_error_iff :
    (∃ m n, mergedRanges addresses = .error (.sizeMismatch m n)) ↔
      ∃ a ∈ addresses, ∃ b ∈ addresses, a.version ≠ b.version := by
  cases addresses with
  | nil => simp [mergedRanges]
  | cons first rest =>
      cases hfind : (first :: rest).find? (·.version ≠ first.version) with
      | some odd =>
          have hodd : odd.version ≠ first.version := by simpa using List.find?_some hfind
          refine iff_of_true ⟨first.version.segmentCount, odd.version.segmentCount, ?_⟩
            ⟨odd, List.mem_of_find?_eq_some hfind, first, List.mem_cons_self, hodd⟩
          rw [mergedRanges, hfind]
          rfl
      | none =>
          have hall : ∀ a ∈ first :: rest, a.version = first.version := by
            simpa using List.find?_eq_none.1 hfind
          refine iff_of_false ?_ ?_
          · rintro ⟨m, n, herror⟩
            rw [mergedRanges, hfind] at herror
            cases herror
          · rintro ⟨a, ha, b, hb, hne⟩
            exact hne ((hall a ha).trans (hall b hb).symm)

/-! ## The two merges -/

theorem mergeToBlocks_eq_map (addresses : List Address) : mergeToBlocks addresses
    = (mergedRanges addresses).map fun merged =>
      (merged.flatMap AddressRange.toBlocks).map ofSection := by
  rw [mergeToBlocks]
  cases mergedRanges addresses <;> rfl

theorem mergeToRuns_eq_map (addresses : List Address) : mergeToRuns addresses
    = (mergedRanges addresses).map fun merged =>
      (merged.flatMap AddressRange.toRuns).map ofSection := by
  rw [mergeToRuns]
  cases mergedRanges addresses <;> rfl

/-- A merge fails as the check of the versions does. -/
private theorem map_eq_error_iff {α β : Type} {x : Except AddressError α} {f : α → β}
    {e : AddressError} : x.map f = .error e ↔ x = .error e := by
  cases x <;> simp [Except.map]

/-- Merging a list of one version into a split of every range is shortest. -/
theorem AllOf.isFewest (h : AllOf version addresses) {kind : Section → Prop}
    (hkind : Section.IsIntervalKind kind) {split : AddressRange → List Section}
    (hsplit : ∀ r : AddressRange, r.WellFormed → r.version = version →
      Section.IsSplit kind r (split r)) :
    Section.IsFewest kind (union addresses)
      ((((coalesce (ranges addresses)).flatMap split).map ofSection).map (·.body)) := by
  have hbody : (fun a : Address => a.body) ∘ ofSection = id := rfl
  rw [List.map_map, hbody, List.map_id, ← h.covered_coalesce]
  refine AddressRange.isFewest_flatMap hkind h.separated (fun r hr => (h.of_mem_coalesce hr).2) ?_
  exact fun r hr => hsplit r (h.of_mem_coalesce hr).1 (h.of_mem_coalesce hr).2

/-- **Merging is exact, shortest, and a normal form.** A list of one version merges into prefix
blocks that carry their length, and into sequential sections without a prefix length. Either way the
result is in ascending order, has the union of the list, and is the shortest there is; and another
list with the same union merges into the same. A list fails to merge, with a size mismatch, exactly
if it mixes versions. -/
theorem merge_exact_shortest (addresses : List Address)
    (h : ∀ a ∈ addresses, a.body.WellFormed) :
    (∀ version, (∀ a ∈ addresses, a.version = version) → ∃ blocks runs,
      mergeToBlocks addresses = .ok blocks ∧ mergeToRuns addresses = .ok runs ∧
      (∀ b ∈ blocks, b.zone = none ∧ ∃ p, b.body.prefixLen = some p ∧ b.body.IsPrefixBlock p) ∧
      Section.IsFewest (Section.IsBlockOf version) (union addresses) (blocks.map (·.body)) ∧
      (∀ b ∈ runs, b.zone = none ∧ b.body.prefixLen = none) ∧
      Section.IsFewest (Section.IsSequentialOf version) (union addresses) (runs.map (·.body)) ∧
      ∀ others : List Address, (∀ b ∈ others, b.body.WellFormed) →
        (∀ b ∈ others, b.version = version) → union others = union addresses →
        mergeToBlocks others = .ok blocks ∧ mergeToRuns others = .ok runs) ∧
    ((∃ m n, mergeToBlocks addresses = .error (.sizeMismatch m n)) ↔
      ∃ a ∈ addresses, ∃ b ∈ addresses, a.version ≠ b.version) ∧
    ((∃ m n, mergeToRuns addresses = .error (.sizeMismatch m n)) ↔
      ∃ a ∈ addresses, ∃ b ∈ addresses, a.version ≠ b.version) := by
  simp only [mergeToBlocks_eq_map, mergeToRuns_eq_map, map_eq_error_iff]
  refine ⟨fun version hversion => ?_, mergedRanges_error_iff, mergedRanges_error_iff⟩
  have hall : AllOf version addresses := ⟨h, hversion⟩
  rw [hall.mergedRanges_eq]
  refine ⟨_, _, rfl, rfl, ?_, ?_, ?_, ?_, ?_⟩
  · refine List.forall_mem_map.2 fun s hs => ⟨rfl, ?_⟩
    obtain ⟨r, hr, hsr⟩ := List.mem_flatMap.1 hs
    exact (AddressRange.isPrefixBlock_of_mem_toBlocks (hall.of_mem_coalesce hr).1 hsr).2
  · refine hall.isFewest (Section.isIntervalKind_isBlockOf version) fun r hr hrv => ?_
    exact hrv ▸ AddressRange.isSplit_toBlocks hr
  · refine List.forall_mem_map.2 fun s hs => ⟨rfl, ?_⟩
    obtain ⟨r, -, hsr⟩ := List.mem_flatMap.1 hs
    exact AddressRange.prefixLen_of_mem_toRuns hsr
  · refine hall.isFewest (Section.isIntervalKind_isSequentialOf version) fun r hr hrv => ?_
    exact hrv ▸ AddressRange.isSplit_toRuns hr
  · -- Coalescing depends on the union alone, and all else on the coalesced ranges.
    intro others hwf hothers hunion
    have ho : AllOf version others := ⟨hwf, hothers⟩
    rw [ho.mergedRanges_eq, hall.coalesce_eq ho hunion]
    exact ⟨rfl, rfl⟩

/-- Two halves of a network, one of them with a zone, merge in either order. -/
theorem merge_exact_shortest_halves :
    let network : List Bounds := [.single 0xfe80, .single 0, .single 0, .single 0, .single 0,
      .single 0, .single 0]
    let halves : List Address := [⟨⟨.v6, network ++ [⟨0x8000, 0xffff⟩], some 113⟩, none⟩,
      ⟨⟨.v6, network ++ [⟨0, 0x7fff⟩], none⟩, some "eth0"⟩]
    (∀ a ∈ halves, a.body.WellFormed) ∧ (∀ a ∈ halves, a.version = .v6) ∧
      ∃ blocks, mergeToBlocks halves = .ok blocks ∧ mergeToBlocks halves.reverse = .ok blocks ∧
        Section.IsFewest (Section.IsBlockOf .v6) (union halves) (blocks.map (·.body)) := by
  intro network halves
  have hwf : ∀ a ∈ halves, a.body.WellFormed := by
    simp only [halves, List.forall_mem_cons]
    exact ⟨⟨rfl, by decide, by decide, by decide⟩, ⟨rfl, by decide, by decide, by decide⟩, by simp⟩
  have hversion : ∀ a ∈ halves, a.version = .v6 := by decide
  have hunion : union halves.reverse = union halves := by
    ext x
    simp only [mem_union, List.mem_reverse]
  obtain ⟨blocks, runs, hblocks, -, -, hfewest, -, -, hothers⟩ :=
    (merge_exact_shortest halves hwf).1 .v6 hversion
  have hreverse := hothers halves.reverse (fun b hb => hwf b (List.mem_reverse.1 hb))
    (fun b hb => hversion b (List.mem_reverse.1 hb)) hunion
  exact ⟨hwf, hversion, blocks, hblocks, hreverse.1, hfewest⟩

end Address

end IpSpace
