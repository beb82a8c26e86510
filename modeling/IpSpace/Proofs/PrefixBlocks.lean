import IpSpace.Proofs.AlignedBlocks
import IpSpace.Proofs.Decomposition
import IpSpace.Proofs.Networks
import Mathlib.Data.Set.Card
import Mathlib.Order.Interval.Finset.Nat

/-!
# Splitting a range into prefix blocks

A prefix block of length `p` is a section that holds all addresses that share their first `p` bits
with its lowest address, in which the other bits are zero (`Section.IsPrefixBlock`). As sets of
numbers the prefix blocks are the aligned blocks, so what is proved of these carries over: splitting
a range yields prefix blocks that tile it, and no list of prefix blocks with the same union is
shorter.
-/

namespace IpSpace

namespace Section

/-- The section is the block of all addresses that share their first `prefixLen` bits with its
lowest address, whose other bits are zero. -/
structure IsPrefixBlock (s : Section) (prefixLen : Nat) : Prop where
  wellFormed : s.WellFormed
  prefixLen_le : prefixLen ≤ s.bitCount
  lowerValue_mod : s.lowerValue % 2 ^ (s.bitCount - prefixLen) = 0
  mem_values_iff : ∀ x, x ∈ s.values ↔ x ≤ s.version.maxValue ∧
    x / 2 ^ (s.bitCount - prefixLen) = s.lowerValue / 2 ^ (s.bitCount - prefixLen)

/-- The words that share their first bits with an address are addresses too. -/
theorem alignedBlock_subset_Iic {version : Version} {h x : Nat} (hh : h ≤ version.bitCount)
    (hx : x ≤ version.maxValue) : alignedBlock h (x / 2 ^ h) ⊆ Set.Iic version.maxValue := by
  -- Whether a word is an address can be seen from its first bits.
  have hfirst : ∀ y, y ≤ version.maxValue ↔ y / 2 ^ h < 2 ^ (version.bitCount - h) := by
    intro y
    rw [Version.le_maxValue_iff, ← Version.bitCount_eq, Nat.div_lt_iff_lt_mul (Nat.two_pow_pos h),
      ← Nat.pow_add, Nat.sub_add_cancel hh]
  intro y hy
  rw [Set.mem_Iic, hfirst, mem_alignedBlock.1 hy]
  exact (hfirst x).1 hx

variable {s : Section} {prefixLen : Nat}

/-- The values of a prefix block are an aligned block. -/
theorem IsPrefixBlock.values_eq (h : s.IsPrefixBlock prefixLen) :
    s.values = alignedBlock (s.bitCount - prefixLen)
      (s.lowerValue / 2 ^ (s.bitCount - prefixLen)) := by
  have hmax := lowerValue_le_maxValue h.wellFormed
  have hsub := alignedBlock_subset_Iic (Nat.sub_le s.version.bitCount prefixLen) hmax
  ext x
  rw [h.mem_values_iff, mem_alignedBlock]
  exact ⟨And.right, fun hx => ⟨hsub hx, hx⟩⟩

theorem IsPrefixBlock.values_mem_alignedBlocks (h : s.IsPrefixBlock prefixLen) :
    s.values ∈ alignedBlocks s.bitCount :=
  ⟨_, Nat.sub_le _ _, _, h.values_eq⟩

/-- A prefix block has no gaps. -/
theorem IsPrefixBlock.isInterval (h : s.IsPrefixBlock prefixLen) : s.IsInterval := by
  obtain ⟨k, hvalues⟩ : ∃ k, s.values = alignedBlock (s.bitCount - prefixLen) k := ⟨_, h.values_eq⟩
  rw [alignedBlock_eq_Icc] at hvalues
  obtain ⟨hlower, hupper⟩ := ends_of_values_eq_Icc h.wellFormed (Nat.le_add_right _ _) hvalues
  rw [IsInterval, hlower, hupper]
  exact hvalues

/-- A prefix block holds as many addresses as its host bits can tell apart. -/
theorem IsPrefixBlock.ncard_values (h : s.IsPrefixBlock prefixLen) :
    s.values.ncard = 2 ^ (s.bitCount - prefixLen) := by
  rw [h.values_eq, alignedBlock_eq_Icc, ← Finset.coe_Icc, Set.ncard_coe_finset, Nat.card_Icc]
  have := Nat.two_pow_pos (s.bitCount - prefixLen)
  omega

/-- The length of a prefix block is known from its addresses. -/
theorem IsPrefixBlock.prefixLen_eq {t : Section} {q : Nat} (hs : s.IsPrefixBlock prefixLen)
    (ht : t.IsPrefixBlock q) (hversion : s.version = t.version) (hvalues : s.values = t.values) :
    prefixLen = q := by
  have hcard : 2 ^ (s.bitCount - prefixLen) = 2 ^ (t.bitCount - q) := by
    rw [← hs.ncard_values, ← ht.ncard_values, hvalues]
  have hhost : s.bitCount - prefixLen = t.bitCount - q :=
    Nat.pow_right_injective (Nat.le_refl 2) hcard
  have hbits : s.bitCount = t.bitCount := congrArg Version.bitCount hversion
  have hp := hs.prefixLen_le
  have hq := ht.prefixLen_le
  omega

/-- **The test for a single block, segment by segment, finds the prefix blocks.** -/
theorem isSingleBlockAt_iff (h : s.WellFormed) (hp : prefixLen ≤ s.bitCount) :
    s.isSingleBlockAt prefixLen = true ↔ s.IsPrefixBlock prefixLen := by
  have hlower := wellFormed_lower h
  have hmem : ∀ x, x ∈ (s.lower.blockAt prefixLen).values ↔ x ≤ s.version.maxValue ∧
      x / 2 ^ (s.bitCount - prefixLen) = s.lowerValue / 2 ^ (s.bitCount - prefixLen) := by
    intro x
    rw [mem_values_blockAt hlower, values_lower h]
    simp only [Set.mem_singleton_iff, exists_eq_left]
    exact Iff.rfl
  rw [isSingleBlockAt_iff_bounds]
  constructor
  · intro hbounds
    have hvalues : (s.lower.blockAt prefixLen).values = s.values := by
      unfold values
      rw [hbounds]
      rfl
    rw [hvalues] at hmem
    refine ⟨h, hp, ?_, hmem⟩
    -- The start of the network of the lowest address belongs to the section too.
    have hpos := Nat.two_pow_pos (s.bitCount - prefixLen)
    have hle := Nat.div_mul_le_self s.lowerValue (2 ^ (s.bitCount - prefixLen))
    have hmax := lowerValue_le_maxValue h
    have hstart := (values_subset_Icc h ((hmem _).2
      ⟨Nat.le_trans hle hmax, Nat.mul_div_cancel _ hpos⟩)).1
    have hsplit := Digits.div_mul_add_mod s.lowerValue (2 ^ (s.bitCount - prefixLen))
    omega
  · intro hblock
    refine bounds_eq_of_values_eq (wellFormed_blockAt hlower hp) h rfl ?_
    ext x
    rw [hmem, hblock.mem_values_iff]

/-- A prefix block of a version, of any length. -/
def IsBlockOf (version : Version) (s : Section) : Prop :=
  s.version = version ∧ ∃ p, s.IsPrefixBlock p

/-- Prefix blocks have no gaps. -/
theorem isIntervalKind_isBlockOf (version : Version) : IsIntervalKind (IsBlockOf version) where
  wellFormed := fun _ ⟨_, _, hblock⟩ => hblock.wellFormed
  isInterval := fun _ ⟨_, _, hblock⟩ => hblock.isInterval

/-- As sets of addresses, prefix blocks are aligned blocks. -/
theorem valuesOf_isBlockOf_subset (version : Version) :
    valuesOf (IsBlockOf version) ⊆ alignedBlocks version.bitCount := by
  rintro _ ⟨s, ⟨rfl, p, hblock⟩, rfl⟩
  exact hblock.values_mem_alignedBlocks

end Section

/-! ## Blocks as sections -/

namespace BlockSpan

variable {version : Version} {b : BlockSpan}

/-- The end of an aligned block of addresses is an address. -/
theorem Aligned.stop_le (h : b.Aligned version.bitCount) (hb : b.start ≤ version.maxValue) :
    b.values ⊆ Set.Iic version.maxValue := by
  rw [h.values_eq]
  exact Section.alignedBlock_subset_Iic h.hostBits_le hb

/-- The section of a block has the values of the block. -/
theorem values_toSection (h : b.Aligned version.bitCount) (hb : b.start ≤ version.maxValue) :
    (b.toSection version).values = b.values := by
  have hhost : version.bitCount - (version.bitCount - b.hostBits) = b.hostBits :=
    Nat.sub_sub_self h.hostBits_le
  ext y
  rw [toSection, Section.mem_values_blockAt (Section.wellFormed_ofDigits_split version b.start),
    Section.values_ofDigits_split hb, h.values_eq, mem_alignedBlock]
  simp only [Set.mem_singleton_iff, exists_eq_left, Section.bitCount, Section.ofDigits, hhost]
  refine ⟨And.right, fun hy => ⟨h.stop_le hb ?_, hy⟩⟩
  rwa [h.values_eq, mem_alignedBlock]

/-- The section of a block is the prefix block of the length that leaves its host bits. -/
theorem isPrefixBlock_toSection (h : b.Aligned version.bitCount) (hb : b.start ≤ version.maxValue) :
    (b.toSection version).IsPrefixBlock (version.bitCount - b.hostBits) := by
  have hhost : version.bitCount - (version.bitCount - b.hostBits) = b.hostBits :=
    Nat.sub_sub_self h.hostBits_le
  have hwf : (b.toSection version).WellFormed :=
    Section.wellFormed_blockAt (Section.wellFormed_ofDigits_split version b.start) (Nat.sub_le _ _)
  have hlower : (b.toSection version).lowerValue = b.start :=
    (Section.ends_of_values_eq_Icc hwf b.start_le_stop (values_toSection h hb)).1
  have hbits : (b.toSection version).bitCount = version.bitCount := rfl
  have hversion : (b.toSection version).version = version := rfl
  refine ⟨hwf, Nat.sub_le _ _, ?_, fun x => ?_⟩
  · rw [hbits, hhost, hlower]
    exact Nat.mod_eq_zero_of_dvd h.dvd_start
  · rw [hbits, hhost, hlower, hversion, values_toSection h hb]
    refine ⟨fun hx => ⟨h.stop_le hb hx, ?_⟩, fun hx => ?_⟩
    · rwa [h.values_eq] at hx
    · rw [h.values_eq]
      exact hx.2

end BlockSpan

/-! ## Ranges -/

namespace AddressRange

variable {r : AddressRange}

/-- The blocks of a range are aligned blocks of addresses. -/
theorem aligned_of_mem (hr : r.WellFormed) {b : BlockSpan}
    (hb : b ∈ blockSpans r.version.bitCount r.lower r.upper) :
    b.Aligned r.version.bitCount ∧ b.start ≤ r.version.maxValue := by
  have htiles := Tiles.bounds_of_mem (tiles_blockSpans hr.lower_le_upper) hb
  have := hr.upper_le_max
  exact ⟨aligned_of_mem_blockSpans hb, by omega⟩

/-- The members of the split of a range are prefix blocks of the length they carry. -/
theorem isPrefixBlock_of_mem_toBlocks (hr : r.WellFormed) {s : Section} (hs : s ∈ r.toBlocks) :
    s.version = r.version ∧ ∃ p, s.prefixLen = some p ∧ s.IsPrefixBlock p := by
  obtain ⟨b, hb, rfl⟩ := List.mem_map.1 hs
  obtain ⟨halign, hstart⟩ := aligned_of_mem hr hb
  exact ⟨rfl, _, rfl, BlockSpan.isPrefixBlock_toSection halign hstart⟩

/-- Splitting a range into prefix blocks yields maximal ones that tile it. -/
theorem isSplit_toBlocks (hr : r.WellFormed) :
    Section.IsSplit (Section.IsBlockOf r.version) r r.toBlocks where
  of_kind s hs := by
    obtain ⟨hversion, p, -, hblock⟩ := isPrefixBlock_of_mem_toBlocks hr hs
    exact ⟨hversion, p, hblock⟩
  tiles := by
    have hends : ∀ b ∈ blockSpans r.version.bitCount r.lower r.upper,
        (b.toSection r.version).lowerValue = b.start ∧
          (b.toSection r.version).upperValue = b.stop := by
      intro b hb
      obtain ⟨halign, hstart⟩ := aligned_of_mem hr hb
      exact Section.ends_of_values_eq_Icc
        (BlockSpan.isPrefixBlock_toSection halign hstart).wellFormed b.start_le_stop
        (BlockSpan.values_toSection halign hstart)
    exact (tiles_blockSpans hr.lower_le_upper).map (fun b hb => (hends b hb).1)
      fun b hb => (hends b hb).2
  isMaximal s hs := by
    obtain ⟨b, hb, rfl⟩ := List.mem_map.1 hs
    obtain ⟨halign, hstart⟩ := aligned_of_mem hr hb
    have hvalues := BlockSpan.values_toSection halign hstart
    have hmax := isMaximal_of_mem_blockSpans hr.lower_le_upper hb
    rw [← hvalues] at hmax
    -- It is maximal among all aligned blocks, so among those that are prefix blocks.
    exact hmax.mono (Section.valuesOf_isBlockOf_subset r.version)
      ⟨_, ⟨rfl, _, BlockSpan.isPrefixBlock_toSection halign hstart⟩, rfl⟩

/-- **Splitting a range into prefix blocks is exact and shortest.** Every member is the prefix block
of the length it carries; the first begins with the range, each of the others right behind the one
before it, and the last ends with the range; and no list of prefix blocks of any lengths that makes
up the range is shorter. -/
theorem toBlocks_exact_shortest (r : AddressRange) (hr : r.WellFormed) :
    (∀ s ∈ r.toBlocks, s.version = r.version ∧ ∃ p, s.prefixLen = some p ∧ s.IsPrefixBlock p ∧
      s.values.ncard = 2 ^ (r.version.bitCount - p)) ∧
    r.toBlocks.head?.map Section.lowerValue = some r.lower ∧
    (r.toBlocks.IsChain fun s t => t.lowerValue = s.upperValue + 1) ∧
    r.toBlocks.getLast?.map Section.upperValue = some r.upper ∧
    Section.IsFewest (Section.IsBlockOf r.version) r.values r.toBlocks := by
  have hsplit := isSplit_toBlocks hr
  have hlt : r.lower < r.upper + 1 := Nat.lt_succ_of_le hr.lower_le_upper
  refine ⟨fun s hs => ?_, hsplit.tiles.head hlt, hsplit.tiles.isChain, hsplit.tiles.getLast hlt,
    hsplit.isFewest (Section.isIntervalKind_isBlockOf r.version)⟩
  obtain ⟨hversion, p, hp, hblock⟩ := isPrefixBlock_of_mem_toBlocks hr hs
  refine ⟨hversion, p, hp, hblock, ?_⟩
  rw [hblock.ncard_values, Section.bitCount, hversion]

/-- The range of all IPv6 addresses but the first is no union of fewer than 128 prefix blocks. -/
theorem toBlocks_exact_shortest_v6 :
    (⟨.v6, 1, 2 ^ 128 - 1⟩ : AddressRange).WellFormed ∧
      ∀ others : List Section, (∀ s ∈ others, Section.IsBlockOf .v6 s) →
        Section.union others = Set.Icc 1 (2 ^ 128 - 1) → 128 ≤ others.length := by
  have hr : (⟨.v6, 1, 2 ^ 128 - 1⟩ : AddressRange).WellFormed := ⟨by decide, by decide⟩
  have hlen : (⟨.v6, 1, 2 ^ 128 - 1⟩ : AddressRange).toBlocks.length = 128 := by decide +kernel
  refine ⟨hr, fun others hothers hunion => ?_⟩
  rw [← hlen]
  exact (toBlocks_exact_shortest _ hr).2.2.2.2.length_le others hothers hunion

end AddressRange

end IpSpace
