import IpSpace.Proofs.PrefixBlocks

/-!
# At which lengths a section is made of blocks

A section is made of whole networks of a length if it holds, with an address, all addresses that
share as many first bits. The test for that asks the two ends of every segment, and widening the
section to whole networks changes nothing exactly if the test is passed
(`Section.isBlockAt_iff_blockAt`), so the test decides it (`Section.isBlockAt_iff_closed`).

How many host bits a segment can have is read off the zeros and the ones at the low end of its two
ends (`Bounds.isBlock_iff_le_blockBits`). `Section.freeBits` counts them for all segments together,
from the last segment on: a segment with all values lets the count go on into the one before it, any
other ends it. The count is the largest number of host bits at which the test is passed
(`le_freeBits_iff`), by induction on the segments with the last one taken off. So the test is passed
from one length on (`Section.isBlockAt_iff_minBlockPrefixLen_le`).

A section that is one network has as many addresses as its length says, so there is at most one such
length, and it is the smallest at which the section is made of whole networks
(`Section.singleBlockPrefixLen?_eq_some_iff`).
-/

namespace IpSpace

/-! ## Host bits of a segment -/

namespace Bounds

variable {b : Bounds} {width h : Nat}

/-- A range made of whole networks is not changed by widening it to whole networks. -/
theorem block_eq_iff : b.block h = b ↔ b.isBlock h = true := by
  have hpos := Nat.two_pow_pos h
  have hlower := Digits.div_mul_add_mod b.lower (2 ^ h)
  have hupper := Digits.div_mul_add_mod b.upper (2 ^ h)
  have hends : b.block h = b ↔ b.lower / 2 ^ h * 2 ^ h = b.lower ∧
      b.upper / 2 ^ h * 2 ^ h + (2 ^ h - 1) = b.upper := by
    cases b
    simp only [block, Bits.blockStart, Bits.blockEnd, mk.injEq]
  rw [hends, isBlock, Bool.and_eq_true, beq_iff_eq, beq_iff_eq]
  omega

/-- A number ends with ones as far as powers of two divide its successor. -/
theorem mod_two_pow_eq_pred_iff {x : Nat} : x % 2 ^ h = 2 ^ h - 1 ↔ 2 ^ h ∣ x + 1 := by
  have hlt := Nat.mod_lt x (Nat.two_pow_pos h)
  have hparts := Digits.div_mul_add_mod x (2 ^ h)
  have hdvd : 2 ^ h ∣ x + 1 ↔ 2 ^ h ∣ x % 2 ^ h + 1 := by
    conv_lhs => rw [← hparts, Nat.add_assoc]
    exact Nat.dvd_add_right (Nat.dvd_mul_left (2 ^ h) (x / 2 ^ h))
  rw [hdvd]
  constructor
  · intro hones
    rw [hones, Nat.sub_add_cancel (by omega)]
  · intro hsucc
    have hle := Nat.le_of_dvd (Nat.succ_pos _) hsucc
    omega

/-- **A range is made of whole networks as long as its two ends allow the host bits.** -/
theorem isBlock_iff_le_blockBits (hh : h ≤ width) : b.isBlock h = true ↔ h ≤ b.blockBits width := by
  rw [isBlock, Bool.and_eq_true, beq_iff_eq, beq_iff_eq, mod_two_pow_eq_pred_iff, blockBits,
    Nat.le_min, Bits.le_trailingZeros_iff, Bits.le_trailingOnes_iff, and_iff_right hh,
    and_iff_right hh, ← Nat.dvd_iff_mod_eq_zero]

/-- A segment has no more host bits than bits. -/
theorem blockBits_le (b : Bounds) (width : Nat) : b.blockBits width ≤ width :=
  (Bits.le_trailingZeros_iff.1 (Nat.min_le_left _ _)).1

end Bounds

namespace Section

variable {s : Section} {p q : Nat}

/-! ## Host bits of all segments -/

/-- **The count from the last segment on is the largest number of host bits** at which every segment
is made of whole networks. -/
theorem le_freeBits_iff (width p : Nat) (bounds : List Bounds) :
    width * bounds.length - p ≤ freeBits width bounds.reverse ↔
      ∀ pair ∈ bounds.mapIdx fun index b => (b, width - (p - index * width)),
        pair.1.isBlock pair.2 = true := by
  induction bounds using List.reverseRecOn with
  | nil => simp
  | append_singleton front b ih =>
      have hle := b.blockBits_le width
      rw [List.mapIdx_concat, List.forall_mem_append, ← ih, List.forall_mem_singleton,
        Bounds.isBlock_iff_le_blockBits (Nat.sub_le _ _), List.reverse_concat, freeBits,
        List.length_append, List.length_singleton, Nat.mul_succ, Nat.mul_comm front.length]
      dsimp only
      -- A last segment that takes all values asks for nothing; any other needs the boundary inside
      -- it.
      split <;> omega

/-- **A section is made of whole networks from one length on.** -/
theorem isBlockAt_iff_minBlockPrefixLen_le (hs : s.WellFormed) :
    s.isBlockAt q = true ↔ s.minBlockPrefixLen ≤ q := by
  have hcount := le_freeBits_iff s.version.segmentBits q s.bounds
  rw [hs.length_bounds, ← Version.bitCount_eq] at hcount
  rw [isBlockAt, allHosts, List.all_eq_true, minBlockPrefixLen, bitCount]
  refine Iff.trans hcount.symm ?_
  omega

/-! ## Whole networks -/

/-- A section made of whole networks is not changed by widening it to whole networks. -/
theorem isBlockAt_iff_blockAt : s.isBlockAt q = true ↔ (s.blockAt q).bounds = s.bounds := by
  rw [isBlockAt, allHosts_iff, blockAt_bounds]
  constructor
  · intro hall
    refine List.ext_getElem (length_widen q s.bounds) fun index hwide h => ?_
    simp only [widen, List.getElem_mapIdx]
    exact Bounds.block_eq_iff.2 (hall index h)
  · intro heq index h
    have hwide : index < (widen s.version.segmentBits q s.bounds).length := by rwa [length_widen]
    have hget := List.getElem_of_eq heq hwide
    simp only [widen, List.getElem_mapIdx] at hget
    exact Bounds.block_eq_iff.1 hget

/-- **A section is made of whole networks if it holds the network of each of its addresses.** -/
theorem isBlockAt_iff_network_subset (hs : s.WellFormed) (hq : q ≤ s.bitCount) :
    s.isBlockAt q = true ↔ ∀ x ∈ s.values,
      alignedBlock (s.bitCount - q) (x / 2 ^ (s.bitCount - q)) ⊆ s.values := by
  rw [isBlockAt_iff_blockAt]
  constructor
  · intro hbounds x hx y hy
    have hvalues : (s.blockAt q).values = s.values := by
      unfold values
      rw [hbounds]
      rfl
    have hmax := alignedBlock_subset_Iic (Nat.sub_le _ _) (le_maxValue_of_mem_values hx) hy
    rw [← hvalues, mem_values_blockAt hs]
    exact ⟨hmax, x, hx, hy⟩
  · intro hclosed
    apply bounds_eq_of_values_eq (wellFormed_blockAt hs hq) hs rfl
    ext y
    rw [mem_values_blockAt hs]
    constructor
    · rintro ⟨-, x, hx, hshare⟩
      exact hclosed x hx hshare
    · exact fun hy => ⟨le_maxValue_of_mem_values hy, y, hy, rfl⟩

/-- An aligned block is within a set if the set holds the words with its first bits and any
others. -/
theorem alignedBlock_subset_iff {h k : Nat} {whole : Set Nat} :
    alignedBlock h k ⊆ whole ↔ ∀ host < 2 ^ h, k * 2 ^ h + host ∈ whole := by
  constructor
  · intro hsub host hhost
    apply hsub
    exact (Digits.mul_add_div_mod hhost).1
  · intro hall x hx
    rw [← Digits.div_mul_add_mod x (2 ^ h), mem_alignedBlock.1 hx]
    exact hall _ (Nat.mod_lt _ (Nat.two_pow_pos h))

/-- **A section is made of whole networks if changing host bits does not lead out of it.** -/
theorem isBlockAt_iff_closed (hs : s.WellFormed) (hq : q ≤ s.bitCount) :
    s.isBlockAt q = true ↔ ∀ x ∈ s.values, ∀ host < 2 ^ (s.bitCount - q),
      x / 2 ^ (s.bitCount - q) * 2 ^ (s.bitCount - q) + host ∈ s.values := by
  rw [isBlockAt_iff_network_subset hs hq]
  exact forall₂_congr fun _ _ => alignedBlock_subset_iff

/-! ## One network -/

/-- A section is the prefix block of a length if its addresses are those that share some first
bits. -/
theorem isPrefixBlock_iff_values (hs : s.WellFormed) :
    s.IsPrefixBlock p ↔
      p ≤ s.bitCount ∧ ∃ network, s.values = alignedBlock (s.bitCount - p) network := by
  constructor
  · exact fun hblock => ⟨hblock.prefixLen_le, _, hblock.values_eq⟩
  · rintro ⟨hp, network, hvalues⟩
    have hinterval := hvalues
    rw [alignedBlock_eq_Icc] at hinterval
    have hlower := (ends_of_values_eq_Icc hs (Nat.le_add_right _ _) hinterval).1
    refine ⟨hs, hp, ?_, fun x => ?_⟩
    · rw [hlower, Nat.mul_mod_left]
    · rw [hlower, Nat.mul_div_cancel _ (Nat.two_pow_pos _)]
      refine ⟨fun hx => ⟨le_maxValue_of_mem_values hx, ?_⟩, fun hx => ?_⟩
      · rwa [hvalues] at hx
      · rw [hvalues]
        exact hx.2

/-- An aligned block inside another one is not larger. -/
theorem le_of_alignedBlock_subset {h k h' k' : Nat} (hsub : alignedBlock h k ⊆ alignedBlock h' k') :
    h ≤ h' := by
  rw [alignedBlock_eq_Icc, alignedBlock_eq_Icc, Set.Icc_subset_Icc_iff (Nat.le_add_right _ _)]
    at hsub
  have hpos := Nat.two_pow_pos h
  have hpos' := Nat.two_pow_pos h'
  have hpow : 2 ^ h ≤ 2 ^ h' := by omega
  exact (Nat.pow_le_pow_iff_right (Nat.le_refl 2)).1 hpow

/-- A prefix block is not made of whole networks that are larger than it. -/
theorem IsPrefixBlock.le_of_isBlockAt (hblock : s.IsPrefixBlock p) (hq : q ≤ s.bitCount)
    (hwhole : s.isBlockAt q = true) : p ≤ q := by
  have hsub := (isBlockAt_iff_network_subset hblock.wellFormed hq).1 hwhole _
    (lowerValue_mem hblock.wellFormed)
  rw [hblock.values_eq] at hsub
  have hhost := le_of_alignedBlock_subset hsub
  have hp := hblock.prefixLen_le
  omega

/-- **The length at which a section is one network**, if there is one. -/
theorem singleBlockPrefixLen?_eq_some_iff (hs : s.WellFormed) :
    s.singleBlockPrefixLen? = some p ↔ s.IsPrefixBlock p := by
  have hle : s.minBlockPrefixLen ≤ s.bitCount := Nat.sub_le _ _
  have hmin : s.isBlockAt s.minBlockPrefixLen = true :=
    (isBlockAt_iff_minBlockPrefixLen_le hs).2 (Nat.le_refl _)
  have hsingle : s.isSingleNetworkAt s.minBlockPrefixLen = true ↔
      s.IsPrefixBlock s.minBlockPrefixLen := by
    rw [← isSingleBlockAt_iff hs hle, isSingleBlockAt, hmin, Bool.and_true]
  rw [singleBlockPrefixLen?, Option.ite_none_right_eq_some, hsingle, Option.some.injEq]
  constructor
  · rintro ⟨hblock, rfl⟩
    exact hblock
  · intro hblock
    have hwhole := (isSingleBlockAt_iff hs hblock.prefixLen_le).2 hblock
    rw [isSingleBlockAt, Bool.and_eq_true, isBlockAt_iff_minBlockPrefixLen_le hs] at hwhole
    have heq := Nat.le_antisymm hwhole.2 (hblock.le_of_isBlockAt hle hmin)
    exact ⟨heq.symm ▸ hblock, heq⟩

/-- **At which lengths a section is made of whole networks, and at which it is one.** It is made of
whole networks of a length exactly from the smallest such length on, and exactly if its addresses
stay in it when their host bits are replaced by any others. It has the length of a single block
exactly if its addresses are all those, `2 ^ (s.bitCount - p)` of them, that share some first `p`
bits, and has none if there is no such length. -/
theorem blockLengths_exact (s : Section) (hs : s.WellFormed) :
    (∀ q ≤ s.bitCount, (s.isBlockAt q = true ↔ s.minBlockPrefixLen ≤ q) ∧
      (s.isBlockAt q = true ↔ ∀ x ∈ s.values, ∀ host < 2 ^ (s.bitCount - q),
        x / 2 ^ (s.bitCount - q) * 2 ^ (s.bitCount - q) + host ∈ s.values)) ∧
    (∀ p, s.singleBlockPrefixLen? = some p ↔ p ≤ s.bitCount ∧
      s.values.ncard = 2 ^ (s.bitCount - p) ∧
      ∃ network, s.values = {x | x / 2 ^ (s.bitCount - p) = network}) ∧
    (s.singleBlockPrefixLen? = none ↔
      ∀ p ≤ s.bitCount, ∀ network, s.values ≠ {x | x / 2 ^ (s.bitCount - p) = network}) := by
  refine ⟨fun q hq => ⟨isBlockAt_iff_minBlockPrefixLen_le hs, isBlockAt_iff_closed hs hq⟩,
    fun p => ?_, ?_⟩
  · rw [singleBlockPrefixLen?_eq_some_iff hs]
    constructor
    · intro hblock
      obtain ⟨hp, network, hvalues⟩ := (isPrefixBlock_iff_values hs).1 hblock
      exact ⟨hp, hblock.ncard_values, network, hvalues⟩
    · rintro ⟨hp, -, network, hvalues⟩
      exact (isPrefixBlock_iff_values hs).2 ⟨hp, network, hvalues⟩
  · rw [Option.eq_none_iff_forall_ne_some]
    constructor
    · intro hnone p hp network hvalues
      apply hnone p
      rw [singleBlockPrefixLen?_eq_some_iff hs, isPrefixBlock_iff_values hs]
      exact ⟨hp, network, hvalues⟩
    · intro hnever p hsome
      rw [singleBlockPrefixLen?_eq_some_iff hs, isPrefixBlock_iff_values hs] at hsome
      obtain ⟨hp, network, hvalues⟩ := hsome
      exact hnever p hp network hvalues

/-- The addresses 10.64-127.0-255.0-255 are one network of ten bits. The addresses
10.1-2.64-127.0-255 are made of whole networks of eighteen bits and are not one: replacing any of
the last fourteen bits of 10.1.64.0 does not lead out of them. -/
theorem blockLengths_exact_partial :
    let network : Section := ⟨.v4, [⟨10, 10⟩, ⟨64, 127⟩, ⟨0, 255⟩, ⟨0, 255⟩], none⟩
    let several : Section := ⟨.v4, [⟨10, 10⟩, ⟨1, 2⟩, ⟨64, 127⟩, ⟨0, 255⟩], some 24⟩
    network.WellFormed ∧ several.WellFormed ∧
      network.values.ncard = 2 ^ 22 ∧ (∃ first, network.values = {x | x / 2 ^ 22 = first}) ∧
      (∀ host < 2 ^ 14, 167854080 / 2 ^ 14 * 2 ^ 14 + host ∈ several.values) ∧
      ∀ p ≤ 32, ∀ first, several.values ≠ {x | x / 2 ^ (32 - p) = first} := by
  intro network several
  have hnetwork : network.WellFormed := ⟨rfl, by decide, by decide, by decide⟩
  have hseveral : several.WellFormed := ⟨rfl, by decide, by decide, by decide⟩
  obtain ⟨-, hsome, -⟩ := blockLengths_exact network hnetwork
  obtain ⟨hlengths, -, hnone⟩ := blockLengths_exact several hseveral
  obtain ⟨-, hcard, hfirst⟩ := (hsome 10).1 (by decide)
  have hlower : several.lowerValue = 167854080 := by decide
  have hlowest : 167854080 ∈ several.values := hlower ▸ lowerValue_mem hseveral
  have hclosed := (hlengths 18 (by decide)).2.1 (by decide) _ hlowest
  exact ⟨hnetwork, hseveral, hcard, hfirst, hclosed, hnone.1 (by decide)⟩

end Section

end IpSpace
