import IpSpace.Proofs.Building
import IpSpace.Proofs.MaskedRanges
import IpSpace.Proofs.PrefixBlocks

/-!
# The smallest prefix block around a range

The cover of a range is made from its two ends: it keeps the bits in front of the first one in which
they differ. An aligned block that holds both ends has at least as many host bits as are needed for
them to agree in the bits that are left (`BlockSpan.hostBits_coverSpan_le_iff`), so it holds the
cover (`BlockSpan.values_coverSpan_subset`). And since a block has no gaps, whatever lies between
two addresses is in it as soon as they are. So only the extremes of a set of addresses matter, and
the cover of a range, of a section, with or without holes, and of two addresses is the smallest
prefix block around it (`Section.isCover_coverSpan`).
-/

namespace IpSpace

/-! ## Blocks of words -/

namespace BlockSpan

variable {width lower upper : Nat}

/-- The host bits of a cover are the fewest for which the two words agree in all other bits. -/
theorem hostBits_coverSpan_le_iff {h : Nat} :
    (coverSpan lower upper).hostBits ≤ h ↔ lower / 2 ^ h = upper / 2 ^ h := by
  simp only [coverSpan]
  split
  case isTrue heq => simp [heq]
  case isFalse hne =>
    have hdiffer : lower ^^^ upper ≠ 0 := fun hzero => hne (Nat.xor_eq_zero_iff.1 hzero)
    rw [Nat.succ_le_iff, Nat.log2_lt hdiffer, Bits.div_two_pow_eq_iff_xor_lt]

theorem aligned_coverSpan (hlower : lower < 2 ^ width) (hupper : upper < 2 ^ width) :
    (coverSpan lower upper).Aligned width where
  hostBits_le := by
    rw [hostBits_coverSpan_le_iff, Nat.div_eq_of_lt hlower, Nat.div_eq_of_lt hupper]
  dvd_start := Nat.dvd_mul_left _ _

/-- A cover is the aligned block of its size around the lower word. -/
theorem values_coverSpan (lower upper : Nat) :
    (coverSpan lower upper).values = alignedBlock (coverSpan lower upper).hostBits
      (lower / 2 ^ (coverSpan lower upper).hostBits) := by
  rw [alignedBlock_eq_Icc]
  rfl

/-- A cover holds the two words and all that lies between them. -/
theorem Icc_subset_values_coverSpan (lower upper : Nat) :
    Set.Icc lower upper ⊆ (coverSpan lower upper).values := by
  have hagree := hostBits_coverSpan_le_iff.1 (Nat.le_refl (coverSpan lower upper).hostBits)
  rintro x ⟨hlower, hupper⟩
  rw [values_coverSpan, mem_alignedBlock]
  apply Nat.le_antisymm
  · rw [hagree]
    exact Nat.div_le_div_right hupper
  · exact Nat.div_le_div_right hlower

/-- An aligned block that holds the two words holds the cover. -/
theorem values_coverSpan_subset {h k : Nat} (hlower : lower ∈ alignedBlock h k)
    (hupper : upper ∈ alignedBlock h k) : (coverSpan lower upper).values ⊆ alignedBlock h k := by
  have hle : (coverSpan lower upper).hostBits ≤ h :=
    hostBits_coverSpan_le_iff.2 (hlower.trans hupper.symm)
  rw [values_coverSpan]
  exact alignedBlock_subset hle ⟨lower, rfl, hlower⟩

end BlockSpan

/-! ## Sections -/

namespace Section

/-- The section `c` is the smallest prefix block around a set of addresses of the version: a prefix
block of the length that it carries, which holds the set and lies in every prefix block, of any
length, that holds the set. -/
structure IsCover (version : Version) (whole : Set Nat) (c : Section) : Prop where
  version_eq : c.version = version
  isPrefixBlock : ∃ p, c.prefixLen = some p ∧ c.IsPrefixBlock p
  subset : whole ⊆ c.values
  least : ∀ b, IsBlockOf version b → whole ⊆ b.values → c.values ⊆ b.values

variable {version : Version} {whole : Set Nat} {b c s : Section}

theorem IsCover.isBlockOf (h : IsCover version whole c) : IsBlockOf version c :=
  ⟨h.version_eq, h.isPrefixBlock.imp fun _ => And.right⟩

/-- There is no more than one smallest prefix block. -/
theorem IsCover.eq (hb : IsCover version whole b) (hc : IsCover version whole c) : b = c := by
  have hversion : b.version = c.version := hb.version_eq.trans hc.version_eq.symm
  have hvalues : b.values = c.values :=
    Set.Subset.antisymm (hb.least c hc.isBlockOf hc.subset) (hc.least b hb.isBlockOf hb.subset)
  obtain ⟨p, hp, hbp⟩ := hb.isPrefixBlock
  obtain ⟨q, hq, hcq⟩ := hc.isPrefixBlock
  have hbounds := bounds_eq_of_values_eq hbp.wellFormed hcq.wellFormed hversion hvalues
  have hlen : p = q := hbp.prefixLen_eq hcq hversion hvalues
  calc b = ⟨b.version, b.bounds, b.prefixLen⟩ := rfl
    _ = ⟨c.version, c.bounds, c.prefixLen⟩ := by rw [hversion, hbounds, hp, hq, hlen]
    _ = c := rfl

/-- The block made from the least and the greatest address of a set is the smallest prefix block
around the set. -/
theorem isCover_coverSpan {lower upper : Nat} (hlower : IsLeast whole lower)
    (hupper : IsGreatest whole upper) (hmax : upper ≤ version.maxValue) :
    IsCover version whole ((coverSpan lower upper).toSection version) := by
  have hle : lower ≤ upper := hupper.2 hlower.1
  have halign : (coverSpan lower upper).Aligned version.bitCount := by
    rw [Version.le_maxValue_iff, ← Version.bitCount_eq] at hmax
    exact BlockSpan.aligned_coverSpan (Nat.lt_of_le_of_lt hle hmax) hmax
  have hstart : (coverSpan lower upper).start ≤ version.maxValue :=
    Nat.le_trans (Nat.div_mul_le_self _ _) (Nat.le_trans hle hmax)
  have hvalues := BlockSpan.values_toSection halign hstart
  refine ⟨rfl, ⟨_, rfl, BlockSpan.isPrefixBlock_toSection halign hstart⟩, ?_, ?_⟩
  · rw [hvalues]
    exact fun x hx => BlockSpan.Icc_subset_values_coverSpan lower upper ⟨hlower.2 hx, hupper.2 hx⟩
  · -- A block is aligned, and it holds the two ends with all the rest.
    rintro b ⟨-, p, hblock⟩ hb
    have hends := And.intro (hb hlower.1) (hb hupper.1)
    rw [hblock.values_eq] at hends ⊢
    rw [hvalues]
    exact BlockSpan.values_coverSpan_subset hends.1 hends.2

/-- A section has a lowest address. -/
theorem isLeast_lowerValue (h : s.WellFormed) : IsLeast s.values s.lowerValue :=
  ⟨lowerValue_mem h, fun _ hx => (values_subset_Icc h hx).1⟩

/-- A section has a highest address. -/
theorem isGreatest_upperValue (h : s.WellFormed) : IsGreatest s.values s.upperValue :=
  ⟨upperValue_mem h, fun _ hx => (values_subset_Icc h hx).2⟩

theorem isCover_cover (h : s.WellFormed) : IsCover s.version s.values s.cover :=
  isCover_coverSpan (isLeast_lowerValue h) (isGreatest_upperValue h) (upperValue_le_maxValue h)

end Section

/-! ## Ranges and pairs of addresses -/

namespace AddressRange

open Section (IsCover isCover_coverSpan isLeast_lowerValue isGreatest_upperValue)

variable {r : AddressRange}

theorem isCover_cover (hr : r.WellFormed) : IsCover r.version r.values r.cover :=
  isCover_coverSpan (isLeast_Icc hr.lower_le_upper) (isGreatest_Icc hr.lower_le_upper)
    hr.upper_le_max

/-- The cover of the range around two addresses of one version is the smallest block around both,
though the range holds what lies between them as well. -/
theorem isCover_of_ofAddresses {a b : Address} (ha : a.body.WellFormed) (hb : b.body.WellFormed)
    (h : ofAddresses a b = .ok r) : IsCover a.version (a.body.values ∪ b.body.values) r.cover := by
  have hr := wellFormed_of_ofAddresses ha hb h
  obtain ⟨_, -, h⟩ := bind_eq_ok_iff.1 h
  cases h
  exact isCover_coverSpan ((isLeast_lowerValue ha).union (isLeast_lowerValue hb))
    ((isGreatest_upperValue ha).union (isGreatest_upperValue hb)) hr.upper_le_max

/-- There is a range around two addresses exactly if they have one version. -/
theorem ofAddresses_isOk_iff {a b : Address} :
    (∃ r, ofAddresses a b = .ok r) ↔ a.version = b.version := by
  constructor
  · rintro ⟨r, h⟩
    obtain ⟨_, hcheck, -⟩ := bind_eq_ok_iff.1 h
    exact checkSameVersion_eq_ok_iff.1 hcheck
  · intro hversion
    exact ⟨_, bind_eq_ok_iff.2 ⟨(), checkSameVersion_eq_ok_iff.2 hversion, rfl⟩⟩

end AddressRange

/-- **Covers are the smallest prefix blocks.** The cover of a range is the smallest prefix block
around its addresses, the cover of a section, whether it has holes or not, the smallest one around
the addresses that are in it, and the cover of the range around two addresses of one version the
smallest one around those of both. Each of them is the only one there is. -/
theorem cover_exact :
    (∀ r : AddressRange, r.WellFormed → Section.IsCover r.version r.values r.cover) ∧
    (∀ s : Section, s.WellFormed → Section.IsCover s.version s.values s.cover) ∧
    (∀ a b : Address, a.body.WellFormed → b.body.WellFormed →
      ((∃ r, AddressRange.ofAddresses a b = .ok r) ↔ a.version = b.version) ∧
      ∀ r, AddressRange.ofAddresses a b = .ok r →
        Section.IsCover a.version (a.body.values ∪ b.body.values) r.cover) ∧
    ∀ version whole b c,
      Section.IsCover version whole b → Section.IsCover version whole c → b = c := by
  refine ⟨fun r hr => AddressRange.isCover_cover hr, fun s hs => Section.isCover_cover hs, ?_, ?_⟩
  · intro a b ha hb
    exact ⟨AddressRange.ofAddresses_isOk_iff, fun r => AddressRange.isCover_of_ofAddresses ha hb⟩
  · intro version whole b c hb hc
    exact hb.eq hc

/-- Around the two addresses in the middle of the IPv6 space there is no block but the whole space.
The section 10.1-2.0.5-6 has holes, and its cover is found from where it begins and ends. -/
theorem cover_exact_middle :
    let middle : AddressRange := ⟨.v6, 2 ^ 127 - 1, 2 ^ 127⟩
    let holes : Section := ⟨.v4, [⟨10, 10⟩, ⟨1, 2⟩, ⟨0, 0⟩, ⟨5, 6⟩], none⟩
    Section.IsCover .v6 middle.values ⟨.v6, List.replicate 8 ⟨0, 0xFFFF⟩, some 0⟩ ∧
      Section.IsCover .v4 holes.values
        ⟨.v4, [⟨10, 10⟩, ⟨0, 3⟩, ⟨0, 255⟩, ⟨0, 255⟩], some 14⟩ := by
  intro middle holes
  have hmiddle : middle.WellFormed := ⟨by decide, by decide⟩
  have hholes : holes.WellFormed := ⟨by decide, by decide, by decide, by decide⟩
  obtain ⟨hrange, hsection, -, -⟩ := cover_exact
  have hall : middle.cover = ⟨.v6, List.replicate 8 ⟨0, 0xFFFF⟩, some 0⟩ := by decide +kernel
  have hblock : holes.cover = ⟨.v4, [⟨10, 10⟩, ⟨0, 3⟩, ⟨0, 255⟩, ⟨0, 255⟩], some 14⟩ := by
    decide +kernel
  rw [← hall, ← hblock]
  exact ⟨hrange middle hmiddle, hsection holes hholes⟩

end IpSpace
