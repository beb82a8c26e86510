import IpSpace.Proofs.Difference
import IpSpace.Proofs.NetworkBlocks
import IpSpace.Proofs.Walks

/-!
# Walks over prefix blocks

The wheels of a section, counted as a product, show the tuples of networks that its addresses have
(`Section.listsNetworks`): networks picked one by one from every segment are those of an address,
since a section takes any combination of the values of its segments. The wheels of a range, counted
through an interval, show those of its addresses (`AddressRange.listsNetworks`): the block of a
tuple between the networks of the two ends meets the range.

So both walks hand out the prefix blocks that meet what they walk over, in ascending order and each
once. Cutting every block down to the section or the range takes it apart: a section into as many
sections as it has first bits (`Section.prefixBlocks_prefixGroups_exact`), a range into ranges that
follow each other without a gap (`AddressRange.prefixBlocks_prefixPieces_exact`).
-/

namespace IpSpace

/-! ## Sections -/

namespace Section

variable {s : Section} {p : Nat}

/-- **The tuples of a section are those of its addresses.** -/
theorem listsNetworks (hs : s.WellFormed) (hp : p ≤ s.bitCount) :
    ListsNetworks s.version p s.values
      (Counting.product.tuples (wheelsAt s.version p s.bounds)) where
  subset _ hx := le_maxValue_of_mem_values hx
  pairwise := Counting.pairwise_tuples (Counting.ready_product (lower_le_upper_of_mem_wheelsAt hs))
  mem_iff t := by
    constructor
    · intro ht
      have htuple := isNetworkTuple_of_mem_tuples hs ht
      have hblock := wellFormed_blockOf htuple hp
      have hoverlap := (overlaps_iff_meet hblock hs).2 ⟨rfl, meet_blockOf hs ht⟩
      rw [overlaps_iff_not_disjoint hblock hs rfl, Set.not_disjoint_iff] at hoverlap
      obtain ⟨x, hxb, hx⟩ := hoverlap
      exact ⟨x, hx, ((mem_values_blockOf htuple).1 hxb).2⟩
    · rintro ⟨x, hx, rfl⟩
      rw [Counting.mem_tuples_product (lower_le_upper_of_mem_wheelsAt hs)]
      refine List.forall₂_iff_get.2 ⟨?_, fun index hw hd => ?_⟩
      · rw [length_wheelsAt hs.length_bounds, Version.length_networks]
      · have hb := lt_length_of_wheelsAt hw
        have hsplit : index < (s.version.split x).length := hx.2.length_eq ▸ hb
        have hmem := hx.2.get hb hsplit
        rw [List.get_eq_getElem, List.get_eq_getElem, getElem_wheelsAt hw hb,
          Version.getElem_networks hd hsplit]
        exact ⟨Nat.div_le_div_right hmem.1, Nat.div_le_div_right hmem.2⟩

/-- How many networks the values of every segment have. -/
def networkCounts (s : Section) (p : Nat) : List Nat :=
  (s.hosts p).map fun (b, h) => (b.networks h).count

/-- A wheel shows the networks of its segment. -/
theorem map_wheelsAt (hs : s.WellFormed) (p : Nat) :
    (wheelsAt s.version p s.bounds).map (fun w => w.upper + 1 - w.lower)
      = (s.networkCounts p).take (s.version.wheelCount p) := by
  refine List.ext_getElem ?_ fun index hw _ => ?_
  · simp [wheelsAt, networkCounts, hosts]
  · rw [List.length_map] at hw
    have hb := lt_length_of_wheelsAt hw
    have hle := Nat.div_le_div_right (c := 2 ^ s.version.hostBits p index)
      (hs.lower_le_upper _ (List.getElem_mem hb))
    simp only [List.getElem_map, getElem_wheelsAt hw hb, List.getElem_take, networkCounts, hosts,
      List.getElem_mapIdx, Bounds.networks, Bounds.count]
    omega

/-- Behind the wheels, all values of a segment have one network. -/
theorem eq_one_of_mem_drop (hs : s.WellFormed) :
    ∀ n ∈ (s.networkCounts p).drop (s.version.wheelCount p), n = 1 := by
  intro n hn
  obtain ⟨index, hindex, rfl⟩ := List.getElem_of_mem hn
  simp only [networkCounts, hosts, List.length_drop, List.length_map, List.length_mapIdx] at hindex
  have hb : s.version.wheelCount p + index < s.bounds.length := by omega
  have hwithin := hs.within _ (List.getElem_mem hb)
  have hhost := Version.hostBits_of_wheelCount_le (Nat.le_add_right (s.version.wheelCount p) index)
    (hs.length_bounds ▸ hb)
  have hupper := Nat.div_eq_of_lt hwithin.upper_lt
  have hlower := Nat.div_eq_of_lt (Nat.lt_of_le_of_lt hwithin.lower_le_upper hwithin.upper_lt)
  simp only [List.getElem_drop, networkCounts, List.getElem_map, hosts, List.getElem_mapIdx, hhost,
    Bounds.networks, Bounds.count, hupper, hlower, Nat.sub_self, Nat.zero_add]

/-- There are as many tuples as networks are counted. -/
theorem length_tuples_wheelsAt (hs : s.WellFormed) (p : Nat) :
    (Counting.product.tuples (wheelsAt s.version p s.bounds)).length = s.prefixCount p := by
  have hbehind : ((s.networkCounts p).drop (s.version.wheelCount p)).foldr (· * ·) 1 = 1 :=
    List.prod_eq_one (eq_one_of_mem_drop hs)
  calc (Counting.product.tuples (wheelsAt s.version p s.bounds)).length
      = ((s.networkCounts p).take (s.version.wheelCount p)).foldr (· * ·) 1 := by
        rw [Counting.length_tuples_product (lower_le_upper_of_mem_wheelsAt hs), map_wheelsAt hs]
    _ = (s.networkCounts p).foldr (· * ·) 1 := by
        conv_rhs => rw [← List.take_append_drop (s.version.wheelCount p) (s.networkCounts p)]
        rw [List.foldr_append, hbehind]

/-- A prefix length past the width of the address is read as the full width. -/
theorem prefixCount_min (hs : s.WellFormed) (prefixLen : Nat) :
    s.prefixCount (min prefixLen s.bitCount) = s.prefixCount prefixLen := by
  rw [prefixCount, hosts_min hs]
  rfl

/-- The walk over blocks hands out the prefix blocks that meet the section, as many as networks are
counted. -/
theorem exists_handsOut_prefixBlocks (hs : s.WellFormed) (prefixLen : Nat) :
    ∃ blocks : List Section, (s.prefixBlocks prefixLen).HandsOut blocks ∧
      IsBlockList s.version (min prefixLen s.bitCount) s.values blocks ∧
      blocks.length = s.prefixCount prefixLen := by
  have hp : min prefixLen s.bitCount ≤ s.bitCount := Nat.min_le_right _ _
  refine ⟨_, Walk.handsOut_fresh _ _ _, (listsNetworks hs hp).isBlockList hp, ?_⟩
  rw [List.length_map, length_tuples_wheelsAt hs, prefixCount_min hs]

/-- There are as many networks as first bits of addresses of the section. -/
theorem prefixCount_eq_ncard (hs : s.WellFormed) (prefixLen : Nat) :
    s.prefixCount prefixLen
      = ((· / 2 ^ (s.bitCount - min prefixLen s.bitCount)) '' s.values).ncard := by
  have hp : min prefixLen s.bitCount ≤ s.bitCount := Nat.min_le_right _ _
  rw [← prefixCount_min hs, ← length_tuples_wheelsAt hs]
  exact (listsNetworks hs hp).length_eq_ncard hp

/-- The walk over groups cuts down the blocks of the walk over blocks. -/
theorem prefixGroups_eq (s : Section) (prefixLen : Nat) :
    s.prefixGroups prefixLen
      = (s.prefixBlocks prefixLen).map fun b => (b.common s).withPrefixLen b.prefixLen := by
  rw [prefixGroups, prefixBlocks, prefixBlocks, Nat.min_eq_left (Nat.min_le_right _ _)]
  rfl

/-- The addresses of a section in a prefix block of length `p`, as a section. -/
structure IsGroup (s : Section) (p : Nat) (b g : Section) : Prop where
  wellFormed : g.WellFormed
  version_eq : g.version = s.version
  prefixLen_eq : g.prefixLen = some p
  values_eq : g.values = b.values ∩ s.values

/-- What a prefix block has in common with a section that it meets is a group. -/
theorem isGroup_common (hs : s.WellFormed) {b : Section} (hb : b.IsPrefixBlock p)
    (hversion : b.version = s.version) (hprefixLen : b.prefixLen = some p)
    (hmeets : (b.values ∩ s.values).Nonempty) :
    s.IsGroup p b ((b.common s).withPrefixLen b.prefixLen) := by
  have hoverlap : b.overlaps s = true := by
    rw [overlaps_iff_not_disjoint hb.wellFormed hs hversion, Set.not_disjoint_iff_nonempty_inter]
    exact hmeets
  have hcommon := wellFormed_common hb.wellFormed hs hoverlap
  exact ⟨wellFormed_withPrefixLen hcommon hb.wellFormed.prefixLen_le, hversion, hprefixLen,
    values_common hb.wellFormed hs hversion⟩

/-- **Prefix blocks and groups of a section.** For a prefix length, read as the full width if it is
past that, one walk hands out the prefix blocks that hold an address of the section, in ascending
order and each once, and the other one hands out for each of them the section of the addresses in
it, which take the section apart. There are as many as are counted, and that is how many first bits
the addresses have. -/
theorem prefixBlocks_prefixGroups_exact (s : Section) (hs : s.WellFormed) (prefixLen : Nat) :
    ∃ blocks groups : List Section,
      (s.prefixBlocks prefixLen).HandsOut blocks ∧ (s.prefixGroups prefixLen).HandsOut groups ∧
      IsBlockList s.version (min prefixLen s.bitCount) s.values blocks ∧
      List.Forall₂ (s.IsGroup (min prefixLen s.bitCount)) blocks groups ∧
      Ascending groups ∧ union groups = s.values ∧
      blocks.length = s.prefixCount prefixLen ∧ groups.length = s.prefixCount prefixLen ∧
      s.prefixCount prefixLen
        = ((· / 2 ^ (s.bitCount - min prefixLen s.bitCount)) '' s.values).ncard := by
  obtain ⟨blocks, hblocks, hlist, hlength⟩ := exists_handsOut_prefixBlocks hs prefixLen
  have hgroup : ∀ b ∈ blocks,
      s.IsGroup (min prefixLen s.bitCount) b ((b.common s).withPrefixLen b.prefixLen) := by
    intro b hb
    obtain ⟨⟨hversion, hprefixLen, hblock⟩, hmeets⟩ := (hlist.mem_iff b).1 hb
    exact isGroup_common hs hblock hversion hprefixLen hmeets
  obtain ⟨hascending, hunion⟩ := hlist.parts (Nat.min_le_right _ _)
    (fun _ hx => le_maxValue_of_mem_values hx) fun b hb => (hgroup b hb).values_eq
  refine ⟨blocks, _, hblocks, ?_, hlist, ?_, hascending, Set.ext hunion, hlength, ?_,
    prefixCount_eq_ncard hs prefixLen⟩
  · rw [prefixGroups_eq]
    exact hblocks.map _
  · exact List.forall₂_map_right_iff.2 (List.forall₂_same.2 hgroup)
  · rw [List.length_map, hlength]

/-- The addresses 10.1-2.120-135.0-255 have four networks of twenty bits, none of which they
fill. -/
theorem prefixBlocks_prefixGroups_exact_clipped :
    let s : Section := ⟨.v4, [⟨10, 10⟩, ⟨1, 2⟩, ⟨120, 135⟩, ⟨0, 255⟩], none⟩
    s.WellFormed ∧ ∃ blocks groups : List Section,
      (s.prefixBlocks 20).HandsOut blocks ∧ (s.prefixGroups 20).HandsOut groups ∧
      IsBlockList .v4 20 s.values blocks ∧ List.Forall₂ (s.IsGroup 20) blocks groups ∧
      union groups = s.values ∧ blocks.length = 4 ∧ ((· / 2 ^ 12) '' s.values).ncard = 4 := by
  intro s
  have hs : s.WellFormed := ⟨by decide, by decide, by decide, by decide⟩
  have hcount : s.prefixCount 20 = 4 := by decide
  obtain ⟨blocks, groups, hblocks, hgroups, hlist, hpairs, -, hunion, hlength, -, hcard⟩ :=
    prefixBlocks_prefixGroups_exact s hs 20
  exact ⟨hs, blocks, groups, hblocks, hgroups, hlist, hpairs, hunion, hlength.trans hcount,
    hcard.symm.trans hcount⟩

end Section

/-! ## Ranges -/

namespace AddressRange

variable {r : AddressRange} {p : Nat}

/-- The values of a range are addresses. -/
theorem values_subset_Iic (hr : r.WellFormed) : r.values ⊆ Set.Iic r.version.maxValue :=
  fun _ hx => Nat.le_trans hx.2 hr.upper_le_max

/-- **The tuples of a range are those of its addresses.** -/
theorem listsNetworks (hr : r.WellFormed) (hp : p ≤ r.version.bitCount) :
    ListsNetworks r.version p r.values
      (Counting.interval.tuples (wheelsAt r.version p r.ends)) where
  subset := values_subset_Iic hr
  pairwise := by
    refine Counting.pairwise_tuples (Counting.ready_interval ?_ fun _ _ => wheels_le hr p)
    exact inRange_of_mem_wheelsAt r.ends_le
  mem_iff t := by
    have hrange := inRange_of_mem_wheelsAt (p := p) r.ends_le
    constructor
    · intro ht
      have htuple := (networks_of_mem_tuples hr ht).1
      -- As a prefix block has no gaps, it has an address in common with what its range meets.
      have hinterval := (Section.isPrefixBlock_blockOf htuple hp).isInterval
      obtain ⟨x, hxb, hx⟩ := (meets_blockOf hr hp ht).nonempty
      have hxb : x ∈ (blockOf r.version p t).values := by
        rw [hinterval]
        exact hxb
      exact ⟨x, hx, ((Section.mem_values_blockOf htuple).1 hxb).2⟩
    · rintro ⟨x, ⟨hlow, hupp⟩, rfl⟩
      obtain ⟨hlower, hupper⟩ := r.wheelsAt_ends p
      rw [Counting.mem_tuples_interval hrange (wheels_le hr p), hlower, hupper]
      refine ⟨?_, Version.networks_le (Nat.le_trans hupp hr.upper_le_max) hlow,
        Version.networks_le hr.upper_le_max hupp⟩
      have htuple := r.version.isNetworkTuple_networks p x
      refine List.forall₂_iff_get.2 ⟨?_, fun index hw hd => ?_⟩
      · rw [length_wheelsAt r.length_ends, Version.length_networks]
      · rw [List.get_eq_getElem, List.get_eq_getElem,
          getElem_wheelsAt hw (lt_length_of_wheelsAt hw)]
        exact htuple.le_max index hd

/-- The walk over blocks hands out the prefix blocks that meet the range. -/
theorem exists_handsOut_prefixBlocks (hr : r.WellFormed) (prefixLen : Nat) :
    ∃ blocks : List Section,
      (r.prefixBlocks prefixLen).HandsOut (blocks.map Address.ofSection) ∧
      Section.IsBlockList r.version (min prefixLen r.version.bitCount) r.values blocks := by
  have hp : min prefixLen r.version.bitCount ≤ r.version.bitCount := Nat.min_le_right _ _
  refine ⟨_, ?_, (listsNetworks hr hp).isBlockList hp⟩
  rw [List.map_map]
  exact Walk.handsOut_fresh _ _ _

/-- What a prefix block `b` has in common with a range, found by intersecting the two. -/
structure IsPiece (r : AddressRange) (b : Section) (piece : AddressRange) : Prop where
  inter?_eq : (ofSection b).inter? r = some piece
  wellFormed : piece.WellFormed
  version_eq : piece.version = r.version
  values_eq : piece.values = b.values ∩ r.values

/-- What is left of a range in a prefix block that meets it is a piece. -/
theorem isPiece_clip (hr : r.WellFormed) {b : Section} (hb : b.IsPrefixBlock p)
    (hversion : b.version = r.version) (hmeets : (b.values ∩ r.values).Nonempty) :
    r.IsPiece b ((ofSection b).clip r) := by
  have hvalues : (ofSection b).values = b.values := hb.isInterval.symm
  have hwf := Section.wellFormed_ofSection hb.wellFormed
  have hmeet : (ofSection b).Meets r := ⟨hversion.symm, by rwa [hvalues]⟩
  exact ⟨(inter?_eq_some_iff hwf hr).2 ⟨hmeet, rfl⟩, wellFormed_clip hwf hmeet, hversion,
    by rw [values_clip, hvalues]⟩

/-- Ranges in ascending order that have the values of a range between them follow each other without
a gap. -/
theorem tiles_of_ascending (hr : r.WellFormed) {pieces : List AddressRange}
    (hascending : pieces.Pairwise fun a b => ∀ x ∈ a.values, ∀ y ∈ b.values, x < y)
    (hunion : ∀ x, (∃ a ∈ pieces, x ∈ a.values) ↔ x ∈ r.values)
    (hwf : ∀ a ∈ pieces, a.WellFormed) :
    Tiles AddressRange.lower AddressRange.upper r.lower pieces (r.upper + 1) := by
  refine .of_pairwise (Nat.le_succ_of_le hr.lower_le_upper)
    (fun a ha => (hwf a ha).lower_le_upper) ?_ fun v => ?_
  · refine hascending.imp_of_mem fun {a b} ha hb hab => ?_
    have hupper : a.upper ∈ a.values := ⟨(hwf a ha).lower_le_upper, Nat.le_refl _⟩
    have hlower : b.lower ∈ b.values := ⟨Nat.le_refl _, (hwf b hb).lower_le_upper⟩
    exact hab _ hupper _ hlower
  · rw [Nat.lt_succ_iff]
    exact hunion v

/-- **Prefix blocks and pieces of a range.** For a prefix length, read as the full width if it is
past that, one walk hands out the prefix blocks that meet the range, in ascending order and each
once, and the other one hands out for each of them what it has in common with the range. These
pieces begin at the lower end of the range, follow each other without a gap and end at its upper
end. -/
theorem prefixBlocks_prefixPieces_exact (r : AddressRange) (hr : r.WellFormed) (prefixLen : Nat) :
    ∃ (blocks : List Section) (pieces : List AddressRange),
      (r.prefixBlocks prefixLen).HandsOut (blocks.map Address.ofSection) ∧
      (r.prefixPieces prefixLen).HandsOut pieces ∧
      Section.IsBlockList r.version (min prefixLen r.version.bitCount) r.values blocks ∧
      List.Forall₂ r.IsPiece blocks pieces ∧
      pieces.head?.map (·.lower) = some r.lower ∧
      pieces.IsChain (fun a b => b.lower = a.upper + 1) ∧
      pieces.getLast?.map (·.upper) = some r.upper := by
  obtain ⟨blocks, hblocks, hlist⟩ := exists_handsOut_prefixBlocks hr prefixLen
  have hpiece : ∀ b ∈ blocks, r.IsPiece b ((ofSection b).clip r) := by
    intro b hb
    obtain ⟨⟨hversion, -, hblock⟩, hmeets⟩ := (hlist.mem_iff b).1 hb
    exact isPiece_clip hr hblock hversion hmeets
  obtain ⟨hascending, hunion⟩ := hlist.parts (Nat.min_le_right _ _)
    (values_subset_Iic hr) fun b hb => (hpiece b hb).values_eq
  have htiles := tiles_of_ascending hr hascending hunion fun piece hmem => by
    obtain ⟨b, hb, rfl⟩ := List.mem_map.1 hmem
    exact (hpiece b hb).wellFormed
  have hlt : r.lower < r.upper + 1 := Nat.lt_succ_of_le hr.lower_le_upper
  refine ⟨blocks, _, hblocks, ?_, hlist, ?_, htiles.head hlt, htiles.isChain, htiles.getLast hlt⟩
  · have hpieces := hblocks.map fun block => (ofSection block.body).clip r
    rw [List.map_map] at hpieces
    rw [prefixPieces]
    exact hpieces
  · exact List.forall₂_map_right_iff.2 (List.forall₂_same.2 hpiece)

/-- The range from 10.0.0.250 to 10.0.2.5 is cut at every sixteenth address, although its last
segment begins with a later network of four bits than it ends with. -/
theorem prefixBlocks_prefixPieces_exact_carry :
    let r : AddressRange := ⟨.v4, 167772410, 167772677⟩
    r.WellFormed ∧ ∃ (blocks : List Section) (pieces : List AddressRange),
      (r.prefixBlocks 28).HandsOut (blocks.map Address.ofSection) ∧
      (r.prefixPieces 28).HandsOut pieces ∧
      Section.IsBlockList .v4 28 r.values blocks ∧ List.Forall₂ r.IsPiece blocks pieces ∧
      pieces.head?.map (·.lower) = some 167772410 ∧
      pieces.IsChain (fun a b => b.lower = a.upper + 1) ∧
      pieces.getLast?.map (·.upper) = some 167772677 := by
  intro r
  have hr : r.WellFormed := by decide
  exact ⟨hr, prefixBlocks_prefixPieces_exact r hr 28⟩

end AddressRange

end IpSpace
