import IpSpace.Proofs.Merge

/-!
# Splitting a section

A section of any shape splits into prefix blocks and into sequential sections as a list with this
one address does: its runs are coalesced, and every range that results is split on its own
(`Section.isFewest_flatMap_ranges`). Two shortcuts bypass all of this, for a section that is a
single prefix block already and for one that is sequential.

The shortcuts agree with the general way. A section of the kind is by itself a shortest
decomposition of its addresses (`Section.isFewest_singleton`), so every other shortest one is a
single section with the same addresses (`Section.IsFewest.eq_singleton`), and a section is known by
its addresses.
-/

namespace IpSpace

namespace Section

variable {kind : Section → Prop} {s : Section}

/-! ## The general way -/

/-- The ranges of a section, coalesced and split one by one, make up a shortest decomposition of its
addresses. -/
theorem isFewest_flatMap_ranges (h : s.WellFormed) (hkind : IsIntervalKind kind)
    {split : AddressRange → List Section}
    (hsplit : ∀ r : AddressRange, r.WellFormed → r.version = s.version →
      IsSplit kind r (split r)) :
    IsFewest kind s.values ((AddressRange.coalesce s.ranges).flatMap split) := by
  have hall : Address.AllOf s.version [Address.ofSection s] :=
    ⟨List.forall_mem_singleton.2 h, List.forall_mem_singleton.2 rfl⟩
  have hfewest := hall.isFewest hkind hsplit
  have hranges : Address.ranges [Address.ofSection s] = s.ranges := List.append_nil _
  have hunion : Address.union [Address.ofSection s] = s.values := by
    ext x
    rw [Address.mem_union]
    simp only [List.mem_singleton, exists_eq_left]
    exact Iff.rfl
  have hbody : (fun a : Address => a.body) ∘ Address.ofSection = id := rfl
  rwa [hranges, hunion, List.map_map, hbody, List.map_id] at hfewest

/-- Every coalesced range of a section is a range of addresses of its version. -/
theorem wellFormed_of_mem_coalesce_ranges (h : s.WellFormed) :
    ∀ r ∈ AddressRange.coalesce s.ranges, r.WellFormed :=
  AddressRange.wellFormed_of_mem_coalesce fun _ hr => (wellFormed_of_mem_ranges h hr).1

/-! ## Single sections -/

/-- A section of the kind is by itself the shortest decomposition of its addresses: these are not
empty, so one section at least is needed. -/
theorem isFewest_singleton (h : s.WellFormed) (hs : kind s) : IsFewest kind s.values [s] where
  of_kind := List.forall_mem_singleton.2 hs
  ascending := List.pairwise_singleton _ _
  union_eq := by
    ext x
    simp only [mem_union, List.mem_singleton, exists_eq_left]
  length_le others _ hunion := by
    obtain ⟨x, hx⟩ := values_nonempty h
    rw [← hunion] at hx
    obtain ⟨t, ht, -⟩ := hx
    exact List.length_pos_of_mem ht

/-- A shortest decomposition of the addresses of a section of the kind is a single section. -/
theorem IsFewest.eq_singleton {sections : List Section} (h : s.WellFormed) (hs : kind s)
    (hfewest : IsFewest kind s.values sections) :
    ∃ t, sections = [t] ∧ kind t ∧ t.values = s.values := by
  have hself := isFewest_singleton h hs
  have hle : sections.length ≤ 1 := hfewest.length_le [s] hself.of_kind hself.union_eq
  have hge : 1 ≤ sections.length :=
    hself.length_le sections hfewest.of_kind hfewest.union_eq
  obtain ⟨t, rfl⟩ := List.length_eq_one_iff.1 (Nat.le_antisymm hle hge)
  refine ⟨t, rfl, hfewest.of_kind t (List.mem_singleton.2 rfl), ?_⟩
  rw [← hfewest.union_eq]
  ext x
  simp only [mem_union, List.mem_singleton, exists_eq_left]

/-- Two sections with the same fields but for the bounds, and the same addresses, are equal. -/
theorem eq_of_values_eq {t : Section} (hs : s.WellFormed) (ht : t.WellFormed)
    (hversion : s.version = t.version) (hown : s.prefixLen = t.prefixLen)
    (hvalues : s.values = t.values) : s = t := by
  have hbounds := bounds_eq_of_values_eq hs ht hversion hvalues
  cases s
  cases t
  simp_all

/-! ## The two shortcuts -/

/-- A section that passes the test for a single block is the prefix block of its own length. -/
theorem exists_isPrefixBlock (h : s.WellFormed) (hblock : s.isSingleBlock = true) :
    ∃ p, s.prefixLen = some p ∧ s.IsPrefixBlock p := by
  unfold isSingleBlock atOwnPrefix at hblock
  cases hp : s.prefixLen with
  | none =>
      rw [hp] at hblock
      cases hblock
  | some p =>
      rw [hp] at hblock
      exact ⟨p, rfl, (isSingleBlockAt_iff h (h.prefixLen_le p hp)).1 hblock⟩

/-- A single prefix block is what splitting the range of its addresses yields. -/
theorem toBlocks_ofSection_eq (h : s.WellFormed) (hblock : s.isSingleBlock = true) :
    (AddressRange.ofSection s).toBlocks = [s] := by
  obtain ⟨p, hp, hs⟩ := exists_isPrefixBlock h hblock
  have hrange := wellFormed_ofSection h
  have hvalues : (AddressRange.ofSection s).values = s.values := hs.isInterval.symm
  have hfewest :=
    (AddressRange.isSplit_toBlocks hrange).isFewest (isIntervalKind_isBlockOf s.version)
  rw [hvalues] at hfewest
  obtain ⟨t, hsections, ⟨hversion, -⟩, htvalues⟩ := hfewest.eq_singleton h ⟨rfl, p, hs⟩
  have hmem : t ∈ (AddressRange.ofSection s).toBlocks := hsections ▸ List.mem_singleton.2 rfl
  obtain ⟨-, q, hq, ht⟩ := AddressRange.isPrefixBlock_of_mem_toBlocks hrange hmem
  have hpq : q = p := ht.prefixLen_eq hs hversion htvalues
  rw [hsections, eq_of_values_eq ht.wellFormed h hversion (by rw [hq, hp, hpq]) htvalues]

/-- A sequential section without its prefix length is what splitting the range of its addresses
yields. -/
theorem toRuns_ofSection_eq (h : s.WellFormed) (hseq : s.isSequential = true) :
    (AddressRange.ofSection s).toRuns = [s.withPrefixLen none] := by
  have hwf : (s.withPrefixLen none).WellFormed := wellFormed_withPrefixLen h (by simp)
  have hs : IsSequentialOf s.version (s.withPrefixLen none) := ⟨rfl, hwf, hseq⟩
  have hvalues : (AddressRange.ofSection s).values = (s.withPrefixLen none).values :=
    (isInterval_of_isSequential h hseq).symm
  have hfewest := (AddressRange.isSplit_toRuns (wellFormed_ofSection h)).isFewest
    (isIntervalKind_isSequentialOf s.version)
  rw [hvalues] at hfewest
  obtain ⟨t, hsections, ht, htvalues⟩ := hfewest.eq_singleton hwf hs
  have hmem : t ∈ (AddressRange.ofSection s).toRuns := hsections ▸ List.mem_singleton.2 rfl
  have hown : t.prefixLen = none := AddressRange.prefixLen_of_mem_toRuns hmem
  rw [hsections, eq_of_values_eq ht.wellFormed hwf ht.version_eq hown htvalues]

/-! ## Prefix blocks and sequential sections -/

/-- The prefix blocks of a section carry their length. -/
theorem isPrefixBlock_of_mem_toBlocks (h : s.WellFormed) {b : Section} (hb : b ∈ s.toBlocks) :
    ∃ p, b.prefixLen = some p ∧ b.IsPrefixBlock p := by
  rw [toBlocks] at hb
  split at hb
  case isTrue hblock =>
    rw [List.mem_singleton.1 hb]
    exact exists_isPrefixBlock h hblock
  case isFalse =>
    obtain ⟨r, hr, hbr⟩ := List.mem_flatMap.1 hb
    exact (AddressRange.isPrefixBlock_of_mem_toBlocks (wellFormed_of_mem_coalesce_ranges h r hr)
      hbr).2

/-- Splitting a section into prefix blocks is exact and shortest. -/
theorem isFewest_toBlocks (h : s.WellFormed) :
    IsFewest (IsBlockOf s.version) s.values s.toBlocks := by
  rw [toBlocks]
  split
  case isTrue hblock =>
    obtain ⟨p, -, hs⟩ := exists_isPrefixBlock h hblock
    exact isFewest_singleton h ⟨rfl, p, hs⟩
  case isFalse =>
    refine isFewest_flatMap_ranges h (isIntervalKind_isBlockOf s.version) fun r hr hversion => ?_
    exact hversion ▸ AddressRange.isSplit_toBlocks hr

/-- The sequential sections of a section carry no prefix length. -/
theorem prefixLen_of_mem_toRuns {t : Section} (ht : t ∈ s.toRuns) : t.prefixLen = none := by
  rw [toRuns] at ht
  split at ht
  case isTrue =>
    rw [List.mem_singleton.1 ht]
    rfl
  case isFalse =>
    obtain ⟨r, -, htr⟩ := List.mem_flatMap.1 ht
    exact AddressRange.prefixLen_of_mem_toRuns htr

/-- Splitting a section into sequential sections is exact and shortest. -/
theorem isFewest_toRuns (h : s.WellFormed) :
    IsFewest (IsSequentialOf s.version) s.values s.toRuns := by
  rw [toRuns]
  split
  case isTrue hseq =>
    have hwf : (s.withPrefixLen none).WellFormed := wellFormed_withPrefixLen h (by simp)
    exact isFewest_singleton hwf ⟨rfl, hwf, hseq⟩
  case isFalse =>
    refine isFewest_flatMap_ranges h (isIntervalKind_isSequentialOf s.version)
      fun r hr hversion => ?_
    exact hversion ▸ AddressRange.isSplit_toRuns hr

/-- **Splitting a section is exact and shortest, by every way.** A section of any shape splits into
prefix blocks that carry their length and are single blocks for it, and into sequential sections
without a prefix length. Either way the result is in ascending order and disjoint, makes up the
section, and is no longer than any other list of the kind that does. A section that is a single
block for its own length, or sequential, splits as the range of its addresses does. -/
theorem split_exact_shortest (s : Section) (h : s.WellFormed) :
    (∀ b ∈ s.toBlocks, b.isSingleBlock = true ∧ ∃ p, b.prefixLen = some p ∧ b.IsPrefixBlock p) ∧
    (s.toBlocks.Pairwise fun a b => Disjoint a.values b.values) ∧
    IsFewest (IsBlockOf s.version) s.values s.toBlocks ∧
    (∀ t ∈ s.toRuns, t.prefixLen = none) ∧
    (s.toRuns.Pairwise fun a b => Disjoint a.values b.values) ∧
    IsFewest (IsSequentialOf s.version) s.values s.toRuns ∧
    (s.isSingleBlock = true → s.toBlocks = (AddressRange.ofSection s).toBlocks) ∧
    (s.isSequential = true → s.toRuns = (AddressRange.ofSection s).toRuns) := by
  refine ⟨fun b hb => ?_, (isFewest_toBlocks h).ascending.disjoint, isFewest_toBlocks h,
    fun t => prefixLen_of_mem_toRuns, (isFewest_toRuns h).ascending.disjoint, isFewest_toRuns h,
    fun hblock => ?_, fun hseq => ?_⟩
  · obtain ⟨p, hp, hb⟩ := isPrefixBlock_of_mem_toBlocks h hb
    refine ⟨?_, p, hp, hb⟩
    rw [isSingleBlock, atOwnPrefix, hp]
    exact (isSingleBlockAt_iff hb.wellFormed hb.prefixLen_le).2 hb
  · rw [toBlocks_ofSection_eq h hblock, toBlocks, if_pos hblock]
  · rw [toRuns_ofSection_eq h hseq, toRuns, if_pos hseq]

/-- Six separate networks, which a section with two ranged segments holds, are no union of fewer
than six prefix blocks; one network is the split of its range. -/
theorem split_exact_shortest_ragged :
    let ragged : Section := ⟨.v4, [⟨1, 2⟩, ⟨5, 7⟩, .single 0, ⟨0, 255⟩], some 9⟩
    let network : Section := ⟨.v4, [.single 10, ⟨64, 127⟩, ⟨0, 255⟩, ⟨0, 255⟩], some 10⟩
    ragged.WellFormed ∧ network.WellFormed ∧
      (∀ others : List Section, (∀ o ∈ others, IsBlockOf .v4 o) → union others = ragged.values →
        6 ≤ others.length) ∧
      network.toBlocks = (AddressRange.ofSection network).toBlocks ∧
      network.toRuns = (AddressRange.ofSection network).toRuns := by
  intro ragged network
  have hragged : ragged.WellFormed := ⟨rfl, by decide, by decide, by decide⟩
  have hnetwork : network.WellFormed := ⟨rfl, by decide, by decide, by decide⟩
  have hsorted : ragged.ranges.Pairwise fun a b => (compare a b).isLE = true := by
    decide +kernel
  have hlen : ragged.toBlocks.length = 6 := by
    -- The networks come in ascending order, so sorting them changes nothing.
    rw [toBlocks, if_neg (by decide), AddressRange.coalesce, List.mergeSort_of_pairwise hsorted]
    decide +kernel
  obtain ⟨-, -, hfewest, -⟩ := split_exact_shortest ragged hragged
  obtain ⟨-, -, -, -, -, -, hblocks, hruns⟩ := split_exact_shortest network hnetwork
  refine ⟨hragged, hnetwork, fun others hothers hunion => ?_, hblocks (by decide),
    hruns (by decide)⟩
  rw [← hlen]
  exact hfewest.length_le others hothers hunion

end Section

end IpSpace
