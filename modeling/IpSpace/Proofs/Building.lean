import IpSpace.Key
import IpSpace.Proofs.Difference
import IpSpace.Proofs.Masking
import IpSpace.Proofs.Networks
import IpSpace.Proofs.Outcomes
import IpSpace.Proofs.RangeAlgebra

/-!
# What is built is well formed

A segment, section or range that is built from values is checked, and one that is made out of others
is not: it is well formed because those are. This module goes through the operations that build and
convert, one lemma for each.
-/

namespace IpSpace

open Digits (Fit)

/-! ## Checks -/

/-- Only items of one version pass the check. -/
theorem checkSameVersion_eq_ok_iff {a b : Version} {u : Unit} :
    checkSameVersion a b = .ok u ↔ a = b := by
  unfold checkSameVersion
  by_cases hab : a = b
  · simp [hab]
  · simp [hab]

/-- The error of the check names the numbers of segments of both versions. -/
theorem checkSameVersion_eq_error_iff {a b : Version} {cause : AddressError} :
    checkSameVersion a b = .error cause ↔
      a ≠ b ∧ cause = .sizeMismatch a.segmentCount b.segmentCount := by
  unfold checkSameVersion
  by_cases hab : a = b
  · simp [hab]
  · simp [hab, eq_comm]

/-- Only prefix lengths within the address pass the check. -/
theorem checkPrefixLen_eq_ok_iff {version : Version} {p : Nat} {u : Unit} :
    checkPrefixLen version p = .ok u ↔ p ≤ version.bitCount := by
  unfold checkPrefixLen
  by_cases hp : p ≤ version.bitCount
  · simp [hp]
  · simp [hp]

/-- The error of the check names the prefix length that is past the address. -/
theorem checkPrefixLen_eq_error_iff {version : Version} {p : Nat} {cause : AddressError} :
    checkPrefixLen version p = .error cause ↔
      version.bitCount < p ∧ cause = .prefixTooLong version p := by
  unfold checkPrefixLen
  by_cases hp : p ≤ version.bitCount
  · simp [hp, Nat.not_lt.2 hp]
  · simp [hp, Nat.lt_of_not_le hp, eq_comm]

/-- A prefix length that passes the check is within the address. -/
theorem prefixLen_le_of_check {version : Version} {p : Nat} {u : Unit}
    (h : checkPrefixLen version p = .ok u) : ∀ q ∈ some p, q ≤ version.bitCount := by
  intro q hq
  rw [← Option.some.inj hq]
  exact checkPrefixLen_eq_ok_iff.1 h

/-! ## Segments -/

namespace Segment

/-- What it takes to be a segment: one of the two widths, a range within it, and a prefix length
within it. -/
structure WellFormed (s : Segment) : Prop where
  isWidth : isWidth s.width = true
  within : s.bounds.Within s.width
  prefixLen_le : ∀ p ∈ s.prefixLen, p ≤ s.width

variable {s t : Segment}

/-- A segment that passes the checks is well formed. -/
theorem wellFormed_of_build {width : Nat} {b : Bounds} {prefixLen : Option Nat}
    (h : build width b prefixLen = .ok s) : s.WellFormed := by
  have hpos := Nat.two_pow_pos width
  unfold build at h
  rw [check_eq_ok_iff, check_eq_ok_iff, check_eq_ok_iff] at h
  obtain ⟨hwidth, horder, hmax, h⟩ := h
  have hwidth : isWidth width = true := by simpa using hwidth
  have hwithin : b.Within width := ⟨by omega, by omega⟩
  cases prefixLen with
  | none =>
      cases h
      exact ⟨hwidth, hwithin, by simp⟩
  | some p =>
      obtain ⟨hp, h⟩ := check_eq_ok_iff.1 h
      cases h
      refine ⟨hwidth, hwithin, fun q hq => ?_⟩
      rw [← Option.some.inj hq]
      exact Nat.le_of_not_lt hp

/-- A permutation of the values of a width takes a range to a range, where it takes it to one. -/
theorem within_of_permute? {width : Nat} {b c : Bounds} {f : Nat → Nat}
    (hf : ∀ x < 2 ^ width, f x < 2 ^ width) (hb : b.Within width)
    (h : b.permute? width f = some c) : c.Within width := by
  have hlower := hf b.lower (Nat.lt_of_le_of_lt hb.lower_le_upper hb.upper_lt)
  have hupper := hf b.upper hb.upper_lt
  unfold Bounds.permute? at h
  split at h
  · cases h
  · cases h
    refine ⟨?_, ?_⟩
    · exact Nat.le_trans (Nat.min_le_left _ _) (Nat.le_max_left _ _)
    · exact Nat.max_lt.2 ⟨hlower, hupper⟩

/-- A reversed word is as wide as it was. -/
theorem reverse_lt (width x : Nat) : Bits.reverse width x < 2 ^ width := by
  induction width generalizing x with
  | zero => exact Nat.one_pos
  | succ width ih =>
      have hrest := ih (x / 2)
      have hbit : x % 2 * 2 ^ width ≤ 1 * 2 ^ width := Nat.mul_le_mul_right _ (by omega)
      rw [Bits.reverse, Nat.pow_succ]
      omega

/-- Two bytes that change places are still two bytes. -/
theorem swapBytes_lt {x : Nat} (hx : x < 2 ^ 16) : Bits.swapBytes x < 2 ^ 16 := by
  unfold Bits.swapBytes
  omega

/-- Reversing the bits of a segment yields a segment of its width. -/
theorem wellFormed_of_reverseBits (hs : s.WellFormed) (h : s.reverseBits = .ok t) :
    t.WellFormed ∧ t.width = s.width := by
  unfold reverseBits at h
  cases hp : s.bounds.permute? s.width (Bits.reverse s.width) with
  | none => simp [hp] at h
  | some bounds =>
      rw [hp] at h
      cases h
      have hwithin := within_of_permute? (fun x _ => reverse_lt s.width x) hs.within hp
      exact ⟨⟨hs.isWidth, hwithin, by simp⟩, rfl⟩

/-- Reversing the bytes of a segment yields a segment of its width. -/
theorem wellFormed_of_reverseBytes (hs : s.WellFormed) (h : s.reverseBytes = .ok t) :
    t.WellFormed ∧ t.width = s.width := by
  unfold reverseBytes at h
  by_cases hbyte : s.width = 8
  · rw [if_pos hbyte] at h
    cases h
    exact ⟨⟨hs.isWidth, hs.within, by simp⟩, rfl⟩
  · have hwidth : s.width = 16 := by
      have hcases := hs.isWidth
      simp only [isWidth, Version.segmentBits, Bool.or_eq_true, beq_iff_eq] at hcases
      omega
    rw [if_neg hbyte] at h
    cases hp : s.bounds.permute? s.width Bits.swapBytes with
    | none => simp [hp] at h
    | some bounds =>
        rw [hp] at h
        cases h
        have hwithin : bounds.Within s.width := by
          refine within_of_permute? (fun x hx => ?_) hs.within hp
          rw [hwidth] at hx ⊢
          exact swapBytes_lt hx
        exact ⟨⟨hs.isWidth, hwithin, by simp⟩, rfl⟩

end Segment

/-! ## Segments of a section -/

namespace Section

variable {s t : Section}

/-- The own prefix length of a segment of a section: none in front of the boundary, the remainder in
the segment that holds it, and zero behind it. -/
def ownPrefixLen (s : Section) (index : Nat) : Option Nat :=
  s.prefixLen.bind fun p =>
    let start := index * s.version.segmentBits
    if start + s.version.segmentBits ≤ p then none
    else if p ≤ start then some 0 else some (p - start)

/-- The prefix length of a segment is found from its place. -/
theorem segmentPrefixLen_eq (s : Section) (index : Nat) :
    s.segmentPrefixLen index = s.ownPrefixLen index := by
  have hpos := s.version.segmentBits_pos
  unfold segmentPrefixLen ownPrefixLen Version.hostBits
  cases s.prefixLen with
  | none => rfl
  | some p =>
      simp only [Option.bind_some]
      rcases Nat.lt_or_ge p (index * s.version.segmentBits + s.version.segmentBits)
        with hends | hends
      · rw [if_neg (by omega), if_neg (Nat.not_le.2 hends)]
        split
        case isTrue hbehind => rw [Nat.sub_eq_zero_of_le hbehind, Nat.sub_zero, Nat.sub_self]
        case isFalse hwithin => rw [Nat.sub_sub_self (by omega)]
      · rw [if_pos (by omega), if_pos hends]

/-- The segments of a section, by their places. -/
theorem getElem_segments (s : Section) {index : Nat} (h : index < s.segments.length)
    (hb : index < s.bounds.length) :
    s.segments[index] = ⟨s.version.segmentBits, s.bounds[index], s.ownPrefixLen index⟩ := by
  simp [segments, segmentPrefixLen_eq]

/-- A section has a segment for each of its ranges. -/
theorem length_segments (s : Section) : s.segments.length = s.bounds.length := by
  simp [segments]

/-- The segments of a section are well formed and have the width of its version. -/
theorem wellFormed_of_mem_segments (hs : s.WellFormed) {g : Segment} (hg : g ∈ s.segments) :
    g.WellFormed ∧ g.width = s.version.segmentBits := by
  obtain ⟨index, h, rfl⟩ := List.getElem_of_mem hg
  have hb : index < s.bounds.length := s.length_segments ▸ h
  rw [getElem_segments s h hb]
  have hwidth : Segment.isWidth s.version.segmentBits = true := by cases s.version <;> rfl
  refine ⟨⟨hwidth, hs.within _ (List.getElem_mem hb), ?_⟩, rfl⟩
  intro p hp
  have hpos := s.version.segmentBits_pos
  obtain ⟨own, -, hp⟩ := Option.bind_eq_some_iff.1 hp
  simp only at hp ⊢
  split_ifs at hp <;> simp only [Option.some.injEq] at hp <;> omega

/-! ## Single addresses -/

theorem wellFormed_ofHost (a : HostAddress) : (ofHost a).WellFormed :=
  wellFormed_ofDigits_split a.version a.value

/-- The section of an address begins and ends with it. -/
theorem ends_ofHost {a : HostAddress} (h : a.value ≤ a.version.maxValue) :
    (ofHost a).lowerValue = a.value ∧ (ofHost a).upperValue = a.value := by
  refine ends_of_values_eq_Icc (wellFormed_ofDigits_split a.version a.value) (Nat.le_refl _) ?_
  rw [Set.Icc_self]
  exact values_ofDigits_split h none

/-! ## Checked sections -/

/-- A section that is built of segments has as many as its version asks for, of the right width. -/
theorem wellFormed_of_ofSegments {version : Version} {segments : List Segment}
    {prefixLen : Option Nat} (hsegments : ∀ g ∈ segments, g.WellFormed)
    (h : ofSegments version segments prefixLen = .ok s) : s.WellFormed := by
  unfold ofSegments at h
  obtain ⟨hlen, h⟩ := check_eq_ok_iff.1 h
  rw [not_not] at hlen
  cases hodd : segments.find? (·.width ≠ version.segmentBits) with
  | some odd =>
      rw [hodd] at h
      cases h
  | none =>
      rw [hodd] at h
      -- No segment is of another width, so their ends are within that of the version.
      have hwidth : ∀ g ∈ segments, g.width = version.segmentBits := by
        simpa using List.find?_eq_none.1 hodd
      have hwithin : ∀ b ∈ segments.map (·.bounds), b.Within version.segmentBits := by
        refine List.forall_mem_map.2 fun g hg => ?_
        rw [← hwidth g hg]
        exact (hsegments g hg).within
      have hbounds : (segments.map (·.bounds)).length = version.segmentCount := by
        rw [List.length_map, hlen]
      cases prefixLen with
      | none =>
          cases h
          exact wellFormed_of_within hbounds hwithin (by simp)
      | some p =>
          obtain ⟨_, hcheck, h⟩ := bind_eq_ok_iff.1 h
          cases h
          exact wellFormed_of_within hbounds hwithin (prefixLen_le_of_check hcheck)

/-- Ranges that are built segment by segment make up a section. -/
theorem wellFormed_of_ofBounds {version : Version} {bounds : List Bounds} {prefixLen : Option Nat}
    (h : ofBounds version bounds prefixLen = .ok s) : s.WellFormed := by
  obtain ⟨segments, hsegments, h⟩ := bind_eq_ok_iff.1 h
  refine wellFormed_of_ofSegments (fun g hg => ?_) h
  obtain ⟨b, -, hbuild⟩ := exists_of_mem_mapM_ok hsegments hg
  exact Segment.wellFormed_of_build hbuild

/-- A value that passes the check is cut into the segments of a section. -/
theorem wellFormed_of_ofValue {version : Version} {value : Nat} {prefixLen : Option Nat}
    (h : ofValue version value prefixLen = .ok s) : s.WellFormed := by
  unfold ofValue at h
  obtain ⟨-, h⟩ := check_eq_ok_iff.1 h
  have hlen := version.length_split value
  have hfit := version.fit_split value
  cases prefixLen with
  | none =>
      cases h
      exact wellFormed_ofDigits hlen hfit (by simp)
  | some p =>
      obtain ⟨_, hcheck, h⟩ := bind_eq_ok_iff.1 h
      cases h
      exact wellFormed_ofDigits hlen hfit (prefixLen_le_of_check hcheck)

theorem wellFormed_of_ofBytes {bytes : List Nat} {prefixLen : Option Nat}
    (h : ofBytes bytes prefixLen = .ok s) : s.WellFormed := by
  unfold ofBytes at h
  split at h
  · exact wellFormed_of_ofValue h
  · cases h

/-- A network mask is a section of one address. -/
theorem wellFormed_of_networkMask {version : Version} {p : Nat}
    (h : networkMask version p = .ok s) : s.WellFormed := by
  obtain ⟨_, -, h⟩ := bind_eq_ok_iff.1 h
  exact wellFormed_of_ofValue h

/-- A host mask is a section of one address. -/
theorem wellFormed_of_hostMask {version : Version} {p : Nat} (h : hostMask version p = .ok s) :
    s.WellFormed := by
  obtain ⟨_, -, h⟩ := bind_eq_ok_iff.1 h
  exact wellFormed_of_ofValue h

/-- What is read from a flat form is checked like any other ranges. -/
theorem wellFormed_of_ofKey {key : AddressKey} (h : ofKey key = .ok s) : s.WellFormed := by
  obtain ⟨_, -, h⟩ := bind_eq_ok_iff.1 h
  exact wellFormed_of_ofBounds h

/-- A prefix length that is set is within the address. -/
theorem wellFormed_of_setPrefixLen {p : Nat} (hs : s.WellFormed) (h : s.setPrefixLen p = .ok t) :
    t.WellFormed := by
  obtain ⟨_, hcheck, h⟩ := bind_eq_ok_iff.1 h
  cases h
  exact wellFormed_withPrefixLen hs (prefixLen_le_of_check hcheck)

/-! ## Converted sections -/

/-- Other bounds in place of those of a section, as many and within the width. -/
theorem wellFormed_withBounds {bounds : List Bounds} (hs : s.WellFormed)
    (hlen : bounds.length = s.bounds.length) (hb : ∀ b ∈ bounds, b.Within s.version.segmentBits) :
    Section.WellFormed { s with bounds } :=
  wellFormed_of_within (hlen.trans hs.length_bounds) hb hs.prefixLen_le

/-- A segment has no more host bits than bits. -/
theorem hostBits_le (version : Version) (p index : Nat) :
    version.hostBits p index ≤ version.segmentBits :=
  Nat.sub_le _ _

/-- A segment together with its host bits. -/
theorem of_mem_hosts (hs : s.WellFormed) {p : Nat} {b : Bounds} {h : Nat}
    (hmem : (b, h) ∈ s.hosts p) :
    b.Within s.version.segmentBits ∧ h ≤ s.version.segmentBits := by
  obtain ⟨index, hindex, heq⟩ := List.mem_mapIdx.1 hmem
  cases heq
  exact ⟨hs.within _ (List.getElem_mem hindex), hostBits_le _ _ _⟩

/-- **A host conversion keeps the ends of every segment in order and within its width.** -/
theorem wellFormed_of_convertHost {host : Host} {p : Nat} {strictness : Strictness}
    (hs : s.WellFormed) (h : s.convertHost host p strictness = .ok t) : t.WellFormed := by
  obtain ⟨bounds, hbounds, h⟩ := bind_eq_ok_iff.1 h
  cases h
  refine wellFormed_withBounds hs ?_ fun c hc => ?_
  · rw [← (mapM_eq_ok_iff.1 hbounds).length_eq, hosts, List.length_mapIdx]
  · obtain ⟨⟨b, hostBits⟩, hmem, hconvert⟩ := exists_of_mem_mapM_ok hbounds hc
    obtain ⟨hb, hle⟩ := of_mem_hosts hs hmem
    simp only at hconvert
    split at hconvert
    · cases hconvert
    · cases hconvert
      exact within_convertBounds host hb hle

theorem wellFormed_hostEnd (hs : s.WellFormed) (host : Host) : (s.hostEnd host).WellFormed := by
  cases host with
  | zeros => exact wellFormed_lower hs
  | ones => exact wellFormed_upper hs

/-- Whichever way a host conversion takes, it leads to a section. -/
theorem wellFormed_of_toHostAt {host : Host} {p : Nat} {strictness : Strictness}
    (hs : s.WellFormed) (h : s.toHostAt host p strictness = .ok t) : t.WellFormed := by
  obtain ⟨_, -, h⟩ := bind_eq_ok_iff.1 h
  split at h
  · cases h
    exact hs
  split at h
  · cases h
    exact wellFormed_hostEnd hs host
  · exact wellFormed_of_convertHost hs h

theorem wellFormed_of_toHost {host : Host} (hs : s.WellFormed) (h : s.toHost host = .ok t) :
    t.WellFormed := by
  unfold toHost at h
  split at h
  · exact wellFormed_of_toHostAt hs h
  · cases h
    refine wellFormed_ofDigits ?_ (fun d hd => ?_) (by simp)
    · rw [List.length_replicate, segmentCount, hs.length_bounds]
    · rw [(List.mem_replicate.1 hd).2]
      have hpos := Nat.two_pow_pos s.version.segmentBits
      cases host with
      | zeros => exact hpos
      | ones => exact Nat.sub_lt hpos Nat.one_pos

theorem wellFormed_toBlock (hs : s.WellFormed) : s.toBlock.WellFormed := by
  unfold toBlock
  split
  · rename_i p hp
    exact wellFormed_blockAt hs (hs.prefixLen_le p hp)
  · exact hs

/-- Widening to networks succeeds for lengths within the address only. -/
theorem toBlockAt_eq_ok_iff {p : Nat} :
    s.toBlockAt p = .ok t ↔ p ≤ s.bitCount ∧ s.blockAt p = t := by
  unfold toBlockAt
  rw [bind_eq_ok_iff]
  constructor
  · rintro ⟨_, hcheck, h⟩
    exact ⟨checkPrefixLen_eq_ok_iff.1 hcheck, Except.ok.inj h⟩
  · rintro ⟨hp, rfl⟩
    exact ⟨(), checkPrefixLen_eq_ok_iff.2 hp, rfl⟩

/-- It fails for all others. -/
theorem toBlockAt_eq_error_iff {p : Nat} {cause : AddressError} :
    s.toBlockAt p = .error cause ↔ s.bitCount < p ∧ cause = .prefixTooLong s.version p := by
  unfold toBlockAt
  rw [bind_eq_error_iff, checkPrefixLen_eq_error_iff]
  constructor
  · rintro (h | ⟨_, -, hrest⟩)
    · exact h
    · cases hrest
  · exact Or.inl

/-- The smallest prefix length of whole networks is within the address. -/
theorem minBlockPrefixLen_le (s : Section) : s.minBlockPrefixLen ≤ s.bitCount :=
  Nat.sub_le _ _

theorem wellFormed_withMinBlockPrefix (hs : s.WellFormed) : s.withMinBlockPrefix.WellFormed := by
  refine wellFormed_withPrefixLen hs fun p hp => ?_
  rw [← Option.some.inj hp]
  exact s.minBlockPrefixLen_le

/-- The prefix length at which a section is one network is within the address. -/
theorem wellFormed_of_withSingleBlockPrefix? (hs : s.WellFormed)
    (h : s.withSingleBlockPrefix? = some t) : t.WellFormed := by
  obtain ⟨p, hp, rfl⟩ := Option.map_eq_some_iff.1 h
  refine wellFormed_withPrefixLen hs fun q hq => ?_
  rw [← Option.some.inj hq]
  unfold singleBlockPrefixLen? at hp
  simp only at hp
  split at hp
  · cases hp
    exact s.minBlockPrefixLen_le
  · cases hp

/-! ## Masked and reversed sections -/

/-- **Applying a mask keeps the ends of every segment in order and within its width.** -/
theorem wellFormed_of_applyMask {op : BitOp} {mask : Section} (hs : s.WellFormed)
    (hmask : mask.WellFormed) (h : s.applyMask op mask = .ok t) : t.WellFormed := by
  obtain ⟨_, hcheck, h⟩ := bind_eq_ok_iff.1 h
  obtain ⟨bounds, hbounds, h⟩ := bind_eq_ok_iff.1 h
  cases h
  have hversion : s.version = mask.version := checkSameVersion_eq_ok_iff.1 hcheck
  refine wellFormed_withBounds hs ?_ fun c hc => ?_
  · rw [← (mapM_eq_ok_iff.1 hbounds).length_eq, List.length_zipIdx, List.length_zip,
      hs.length_bounds, hmask.length_bounds, hversion, Nat.min_self]
  · obtain ⟨⟨⟨b, m⟩, index⟩, hmem, hc⟩ := exists_of_mem_mapM_ok hbounds hc
    have hb : b ∈ s.bounds := (List.of_mem_zip (List.fst_mem_of_mem_zipIdx hmem)).1
    simp only at hc
    split at hc
    · rename_i hcontiguous
      cases hc
      exact within_maskBounds (hs.within b hb) hcontiguous
    · cases hc

theorem wellFormed_reverseSegments (hs : s.WellFormed) : s.reverseSegments.WellFormed := by
  refine wellFormed_of_within ?_ (fun b hb => ?_) (by simp [reverseSegments])
  · exact (List.length_reverse).trans hs.length_bounds
  · exact hs.within b (List.mem_reverse.1 hb)

/-- **A reversal that keeps segments well formed keeps sections so.** -/
theorem wellFormed_of_reverseWith {step : Segment → Except AddressError Segment}
    (hstep : ∀ g g' : Segment, g.WellFormed → step g = .ok g' → g'.WellFormed ∧ g'.width = g.width)
    (hs : s.WellFormed) (h : s.reverseWith step = .ok t) : t.WellFormed := by
  obtain ⟨reversed, hreversed, h⟩ := bind_eq_ok_iff.1 h
  cases h
  refine wellFormed_of_within ?_ (fun b hb => ?_) (by simp)
  · show (reversed.map (·.bounds)).length = s.version.segmentCount
    rw [List.length_map, ← (mapM_eq_ok_iff.1 hreversed).length_eq, List.length_reverse,
      length_segments, hs.length_bounds]
  · obtain ⟨g', hg', rfl⟩ := List.mem_map.1 hb
    obtain ⟨g, hg, hgg'⟩ := exists_of_mem_mapM_ok hreversed hg'
    obtain ⟨hwf, hwidth⟩ := wellFormed_of_mem_segments hs (List.mem_reverse.1 hg)
    obtain ⟨hwf', hwidth'⟩ := hstep g g' hwf hgg'
    rw [← hwidth, ← hwidth']
    exact hwf'.within

/-! ## Intersections and differences -/

/-- Only sections of one version have an intersection. -/
theorem version_eq_of_inter? {other : Section} {common? : Option Section}
    (h : s.inter? other = .ok common?) : s.version = other.version := by
  obtain ⟨_, hcheck, -⟩ := bind_eq_ok_iff.1 h
  exact checkSameVersion_eq_ok_iff.1 hcheck

/-- The common addresses of two sections that overlap are a section. -/
theorem wellFormed_of_inter? {other : Section} (hs : s.WellFormed) (ho : other.WellFormed)
    (h : s.inter? other = .ok (some t)) : t.WellFormed := by
  rw [inter?_eq (version_eq_of_inter? h)] at h
  split at h
  · rename_i hover
    cases h
    exact wellFormed_common hs ho hover
  · cases h

/-- Only sections of one version have a difference. -/
theorem version_eq_of_difference {other : Section} {pieces : List Section}
    (h : s.difference other = .ok pieces) : s.version = other.version := by
  obtain ⟨_, hcheck, -⟩ := bind_eq_ok_iff.1 h
  exact checkSameVersion_eq_ok_iff.1 hcheck

/-- **The pieces of a difference are sections.** -/
theorem wellFormed_of_difference {other : Section} {pieces : List Section} (hs : s.WellFormed)
    (ho : other.WellFormed) (h : s.difference other = .ok pieces) :
    ∀ t ∈ pieces, t.WellFormed := by
  rw [difference_eq (version_eq_of_difference h)] at h
  split at h
  · rename_i hover
    cases h
    exact List.forall_mem_map.2 fun bounds hbounds => wellFormed_piece hs ho hover hbounds
  · cases h
    exact List.forall_mem_singleton.2 hs

end Section

/-! ## Ranges -/

namespace AddressRange

variable {r s t : AddressRange}

/-- Two numbers that pass the checks are the ends of a range. -/
theorem wellFormed_of_ofValues {version : Version} {lower upper : Nat}
    (h : ofValues version lower upper = .ok r) : r.WellFormed := by
  unfold ofValues at h
  split at h
  case isTrue => cases h
  case isFalse hmax =>
    split at h
    case isTrue => cases h
    case isFalse horder =>
      cases h
      exact ⟨Nat.le_of_not_lt horder, Nat.le_of_not_lt hmax⟩

theorem wellFormed_of_ofKey {key : RangeKey} (h : ofKey key = .ok r) : r.WellFormed := by
  obtain ⟨_, -, h⟩ := bind_eq_ok_iff.1 h
  obtain ⟨_, -, h⟩ := bind_eq_ok_iff.1 h
  obtain ⟨lower, -, h⟩ := bind_eq_ok_iff.1 h
  obtain ⟨upper, -, h⟩ := bind_eq_ok_iff.1 h
  exact wellFormed_of_ofValues h

/-- The range around two addresses of one version ends with the higher of their highest values, and
begins no later than either of them. -/
theorem wellFormed_of_ofAddresses {a b : Address} (ha : a.body.WellFormed) (hb : b.body.WellFormed)
    (h : ofAddresses a b = .ok r) : r.WellFormed := by
  obtain ⟨_, hcheck, h⟩ := bind_eq_ok_iff.1 h
  cases h
  have hversion : a.body.version = b.body.version := checkSameVersion_eq_ok_iff.1 hcheck
  have hra := Section.wellFormed_ofSection ha
  have hrb := Section.wellFormed_ofSection hb
  constructor
  · calc min a.body.lowerValue b.body.lowerValue ≤ a.body.lowerValue := Nat.min_le_left _ _
      _ ≤ a.body.upperValue := hra.lower_le_upper
      _ ≤ max a.body.upperValue b.body.upperValue := Nat.le_max_left _ _
  · refine Nat.max_le.2 ⟨hra.upper_le_max, ?_⟩
    show b.body.upperValue ≤ a.body.version.maxValue
    rw [hversion]
    exact hrb.upper_le_max

/-- The common part of two ranges is a range. -/
theorem wellFormed_of_inter? (hr : r.WellFormed) (hs : s.WellFormed) (h : r.inter? s = some t) :
    t.WellFormed := by
  obtain ⟨hmeets, rfl⟩ := (inter?_eq_some_iff hr hs).1 h
  exact wellFormed_clip hr hmeets

/-- The hull of two ranges is a range. -/
theorem wellFormed_of_hull? (hr : r.WellFormed) (hs : s.WellFormed) (h : r.hull? s = some t) :
    t.WellFormed := by
  rw [hull?_eq] at h
  split at h
  · rename_i hversion
    cases h
    constructor
    · calc min r.lower s.lower ≤ r.lower := Nat.min_le_left _ _
        _ ≤ r.upper := hr.lower_le_upper
        _ ≤ max r.upper s.upper := Nat.le_max_left _ _
    · exact Nat.max_le.2 ⟨hr.upper_le_max, hversion ▸ hs.upper_le_max⟩
  · cases h

theorem wellFormed_of_union? (hr : r.WellFormed) (hs : s.WellFormed) (h : r.union? s = some t) :
    t.WellFormed := by
  unfold union? at h
  split at h
  · exact wellFormed_of_hull? hr hs h
  · cases h

/-- What is left of a range on either side of another one is a range. -/
theorem wellFormed_of_mem_difference (hr : r.WellFormed) (ht : t ∈ r.difference s) :
    t.WellFormed := by
  by_cases hover : r.overlaps s = true
  · obtain ⟨-, -, hupper⟩ := overlaps_iff_ends.1 hover
    rcases (mem_difference_iff hover).1 ht with ⟨hfront, rfl⟩ | ⟨hbehind, rfl⟩
    · refine ⟨Nat.le_sub_one_of_lt hfront, ?_⟩
      exact Nat.le_trans (Nat.sub_le _ _) (Nat.le_trans hupper hr.upper_le_max)
    · exact ⟨hbehind, hr.upper_le_max⟩
  · rw [difference, if_neg hover, List.mem_singleton] at ht
    exact ht ▸ hr

end AddressRange

end IpSpace
