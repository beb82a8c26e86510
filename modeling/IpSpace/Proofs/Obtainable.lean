import IpSpace.Proofs.SectionSpans
import IpSpace.Proofs.Walks

/-!
# What can be obtained

Segments, sections, addresses and ranges are only ever obtained by calls: some build an item of
plain data, some take items that were obtained before. A `Chain` is a list of items each of which
comes out of one call on the items before it (`Yields`).

Most calls do not check what they make. That everything in a chain is well formed nevertheless is an
invariant: one call on well-formed items yields a well-formed item (`Yields.wellFormed`), and so a
whole chain does (`Chain.wellFormed`). The calls are sorted by what they take, with one lemma for
each sort: sections built of data, made from one section, or from two, and the same for ranges.

From outside, a well-formed section is seen through its segments (`Section.Invariant`), and a
well-formed range through its two ends (`AddressRange.Invariant`).
-/

namespace IpSpace

/-! ## Calls on sections -/

namespace Section

/-- The sections that are built of plain data. -/
inductive Built : Section → Prop where
  | ofBounds {version : Version} {bounds : List Bounds} {prefixLen : Option Nat} {s : Section}
      (h : ofBounds version bounds prefixLen = .ok s) : Built s
  | ofValues {version : Version} {values : List Nat} {prefixLen : Option Nat} {s : Section}
      (h : ofValues version values prefixLen = .ok s) : Built s
  | ofValue {version : Version} {value : Nat} {prefixLen : Option Nat} {s : Section}
      (h : ofValue version value prefixLen = .ok s) : Built s
  | ofBytes {bytes : List Nat} {prefixLen : Option Nat} {s : Section}
      (h : ofBytes bytes prefixLen = .ok s) : Built s
  | networkMask {version : Version} {p : Nat} {s : Section}
      (h : networkMask version p = .ok s) : Built s
  | hostMask {version : Version} {p : Nat} {s : Section}
      (h : hostMask version p = .ok s) : Built s
  | ofHost (a : HostAddress) : Built (ofHost a)
  | ofKey {key : AddressKey} {s : Section} (h : ofKey key = .ok s) : Built s

/-- The sections that a call on one section yields. -/
inductive Converts (s : Section) : Section → Prop where
  | setPrefixLen {p : Nat} {t : Section} (h : s.setPrefixLen p = .ok t) : Converts s t
  | withoutPrefixLen : Converts s (s.withPrefixLen none)
  | lower : Converts s s.lower
  | upper : Converts s s.upper
  | toHost {host : Host} {t : Section} (h : s.toHost host = .ok t) : Converts s t
  | toHostAt {host : Host} {p : Nat} {strictness : Strictness} {t : Section}
      (h : s.toHostAt host p strictness = .ok t) : Converts s t
  | toBlock : Converts s s.toBlock
  | toBlockAt {p : Nat} {t : Section} (h : s.toBlockAt p = .ok t) : Converts s t
  | withSingleBlockPrefix {t : Section} (h : s.withSingleBlockPrefix? = some t) : Converts s t
  | withMinBlockPrefix : Converts s s.withMinBlockPrefix
  | reverseSegments : Converts s s.reverseSegments
  | reverseBits {t : Section} (h : s.reverseBits = .ok t) : Converts s t
  | reverseBytes {t : Section} (h : s.reverseBytes = .ok t) : Converts s t
  | toBlocks {t : Section} (h : t ∈ s.toBlocks) : Converts s t
  | toRuns {t : Section} (h : t ∈ s.toRuns) : Converts s t
  | cover : Converts s s.cover
  | walk {route : Route} {calls : List Walk.Call} {t : Section}
      (h : t ∈ (s.walk route).handedOut calls) : Converts s t

/-- The sections that a call on two sections yields. -/
inductive Combines (s other : Section) : Section → Prop where
  | applyMask {op : BitOp} {t : Section} (h : s.applyMask op other = .ok t) : Combines s other t
  | inter {t : Section} (h : s.inter? other = .ok (some t)) : Combines s other t
  | difference {pieces : List Section} {t : Section} (h : s.difference other = .ok pieces)
      (ht : t ∈ pieces) : Combines s other t

variable {s other t : Section}

/-- Whatever data a section is built of, it is well formed. -/
theorem Built.wellFormed (h : Built s) : s.WellFormed := by
  cases h with
  | ofBounds h => exact wellFormed_of_ofBounds h
  | ofValues h => exact wellFormed_of_ofBounds h
  | ofValue h => exact wellFormed_of_ofValue h
  | ofBytes h => exact wellFormed_of_ofBytes h
  | networkMask h => exact wellFormed_of_networkMask h
  | hostMask h => exact wellFormed_of_hostMask h
  | ofHost a => exact wellFormed_ofHost a
  | ofKey h => exact wellFormed_of_ofKey h

/-- A block of a version is a section, wherever it starts. -/
theorem wellFormed_toSection (version : Version) (b : BlockSpan) :
    (b.toSection version).WellFormed :=
  wellFormed_blockAt (wellFormed_ofDigits_split version b.start) (Nat.sub_le _ _)

/-- **No operation on a section leads out of the well-formed ones.** -/
theorem Converts.wellFormed (hs : s.WellFormed) (h : s.Converts t) : t.WellFormed := by
  cases h with
  | setPrefixLen h => exact wellFormed_of_setPrefixLen hs h
  | withoutPrefixLen => exact wellFormed_withPrefixLen hs (by simp)
  | lower => exact wellFormed_lower hs
  | upper => exact wellFormed_upper hs
  | toHost h => exact wellFormed_of_toHost hs h
  | toHostAt h => exact wellFormed_of_toHostAt hs h
  | toBlock => exact wellFormed_toBlock hs
  | toBlockAt h =>
      obtain ⟨hp, rfl⟩ := toBlockAt_eq_ok_iff.1 h
      exact wellFormed_blockAt hs hp
  | withSingleBlockPrefix h => exact wellFormed_of_withSingleBlockPrefix? hs h
  | withMinBlockPrefix => exact wellFormed_withMinBlockPrefix hs
  | reverseSegments => exact wellFormed_reverseSegments hs
  | reverseBits h =>
      exact wellFormed_of_reverseWith (fun _ _ => Segment.wellFormed_of_reverseBits) hs h
  | reverseBytes h =>
      exact wellFormed_of_reverseWith (fun _ _ => Segment.wellFormed_of_reverseBytes) hs h
  | toBlocks h =>
      exact (isIntervalKind_isBlockOf _).wellFormed t ((isFewest_toBlocks hs).of_kind t h)
  | toRuns h =>
      exact (isIntervalKind_isSequentialOf _).wellFormed t ((isFewest_toRuns hs).of_kind t h)
  | cover => exact wellFormed_toSection _ _
  | walk h => exact wellFormed_of_mem_walk hs h

/-- Neither does one that combines two of them. -/
theorem Combines.wellFormed (hs : s.WellFormed) (ho : other.WellFormed) (h : s.Combines other t) :
    t.WellFormed := by
  cases h with
  | applyMask h => exact wellFormed_of_applyMask hs ho h
  | inter h => exact wellFormed_of_inter? hs ho h
  | difference h ht => exact wellFormed_of_difference hs ho h t ht

end Section

/-! ## Calls on addresses -/

namespace Address

/-- The addresses that are built of plain data. -/
inductive Built : Address → Prop where
  | ofHost (a : HostAddress) : Built (ofHost a)
  | ofBytes {bytes : List Nat} {prefixLen : Option Nat} {a : Address}
      (h : ofBytes bytes prefixLen = .ok a) : Built a
  | ofBytesMasked {bytes mask : List Nat} {a : Address}
      (h : ofBytesMasked bytes mask = .ok a) : Built a
  | ofResolved {resolved : List (List Nat)} {prefixLen : Option Nat} {a : Address}
      (h : ofResolved resolved prefixLen = .ok a) : Built a

/-- The addresses that a call on one address yields. -/
inductive Converts (a : Address) : Address → Prop where
  | setPrefixLen {p : Nat} {b : Address} (h : a.setPrefixLen p = .ok b) : Converts a b
  | withoutPrefixLen : Converts a a.withoutPrefixLen
  | lower : Converts a a.lower
  | upper : Converts a a.upper
  | toHost {host : Host} {b : Address} (h : a.toHost host = .ok b) : Converts a b
  | toHostAt {host : Host} {p : Nat} {strictness : Strictness} {b : Address}
      (h : a.toHostAt host p strictness = .ok b) : Converts a b
  | toBlock : Converts a a.toBlock
  | toBlockAt {p : Nat} {b : Address} (h : a.toBlockAt p = .ok b) : Converts a b
  | withSingleBlockPrefix {b : Address} (h : a.withSingleBlockPrefix? = some b) : Converts a b
  | reverseBits {b : Address} (h : a.reverseBits = .ok b) : Converts a b
  | reverseBytes {b : Address} (h : a.reverseBytes = .ok b) : Converts a b
  | toBlocks {b : Address} (h : b ∈ a.toBlocks) : Converts a b
  | toRuns {b : Address} (h : b ∈ a.toRuns) : Converts a b
  | cover : Converts a a.cover
  | walk {route : Section.Route} {calls : List Walk.Call} {b : Address}
      (h : b ∈ (a.walk fun s => s.walk route).handedOut calls) : Converts a b

/-- The addresses that a call on two addresses yields. -/
inductive Combines (a other : Address) : Address → Prop where
  | applyMask {op : BitOp} {b : Address} (h : a.applyMask op other = .ok b) : Combines a other b
  | inter {b : Address} (h : a.inter? other = .ok (some b)) : Combines a other b
  | difference {pieces : List Address} {b : Address} (h : a.difference other = .ok pieces)
      (hb : b ∈ pieces) : Combines a other b
  | toBlocksTo {blocks : List Address} {b : Address} (h : a.toBlocksTo other = .ok blocks)
      (hb : b ∈ blocks) : Combines a other b
  | coverTo {b : Address} (h : a.coverTo other = .ok b) : Combines a other b

theorem wellFormed_of_ofBytes {bytes : List Nat} {prefixLen : Option Nat} {a : Address}
    (h : ofBytes bytes prefixLen = .ok a) : a.body.WellFormed := by
  obtain ⟨s, hs, rfl⟩ := map_eq_ok_iff.1 h
  exact Section.wellFormed_of_ofBytes hs

/-- An address with a mask has either a prefix length or the masked value. -/
theorem wellFormed_of_ofBytesMasked {bytes mask : List Nat} {a : Address}
    (h : ofBytesMasked bytes mask = .ok a) : a.body.WellFormed := by
  obtain ⟨-, h⟩ := check_eq_ok_iff.1 h
  obtain ⟨m, hm, h⟩ := bind_eq_ok_iff.1 h
  split at h
  · exact wellFormed_of_ofBytes h
  · obtain ⟨s, hs, h⟩ := bind_eq_ok_iff.1 h
    obtain ⟨t, ht, rfl⟩ := map_eq_ok_iff.1 h
    exact Section.wellFormed_of_applyMask (Section.wellFormed_of_ofBytes hs)
      (Section.wellFormed_of_ofBytes hm) ht

theorem wellFormed_of_ofResolved {resolved : List (List Nat)} {prefixLen : Option Nat} {a : Address}
    (h : ofResolved resolved prefixLen = .ok a) : a.body.WellFormed := by
  unfold ofResolved at h
  split at h
  · cases h
  · exact wellFormed_of_ofBytes h

/-- Whatever data an address is built of, its section is well formed. -/
theorem Built.wellFormed {a : Address} (h : Built a) : a.body.WellFormed := by
  cases h with
  | ofHost a => exact Section.wellFormed_ofHost a
  | ofBytes h => exact wellFormed_of_ofBytes h
  | ofBytesMasked h => exact wellFormed_of_ofBytesMasked h
  | ofResolved h => exact wellFormed_of_ofResolved h

variable {a b other : Address}

/-- A call on an address is a call on its section. -/
theorem Converts.body (h : a.Converts b) : a.body.Converts b.body := by
  cases h with
  | setPrefixLen h =>
      obtain ⟨s, hs, rfl⟩ := map_eq_ok_iff.1 h
      exact .setPrefixLen hs
  | withoutPrefixLen => exact .withoutPrefixLen
  | lower => exact .lower
  | upper => exact .upper
  | toHost h =>
      obtain ⟨s, hs, rfl⟩ := map_eq_ok_iff.1 h
      exact .toHost hs
  | toHostAt h =>
      obtain ⟨s, hs, rfl⟩ := map_eq_ok_iff.1 h
      exact .toHostAt hs
  | toBlock => exact .toBlock
  | toBlockAt h =>
      obtain ⟨s, hs, rfl⟩ := map_eq_ok_iff.1 h
      exact .toBlockAt hs
  | withSingleBlockPrefix h =>
      obtain ⟨s, hs, rfl⟩ := Option.map_eq_some_iff.1 h
      exact .withSingleBlockPrefix hs
  | reverseBits h =>
      obtain ⟨s, hs, rfl⟩ := map_eq_ok_iff.1 h
      exact .reverseBits hs
  | reverseBytes h =>
      obtain ⟨s, hs, rfl⟩ := map_eq_ok_iff.1 h
      exact .reverseBytes hs
  | toBlocks h =>
      obtain ⟨s, hs, rfl⟩ := List.mem_map.1 h
      exact .toBlocks hs
  | toRuns h =>
      obtain ⟨s, hs, rfl⟩ := List.mem_map.1 h
      exact .toRuns hs
  | cover => exact .cover
  | walk h =>
      rw [Address.walk, Walk.handedOut_map] at h
      obtain ⟨s, hs, rfl⟩ := List.mem_map.1 h
      exact .walk hs

/-- **Whatever is not reversed keeps the zone.** -/
theorem Converts.zone_eq (h : a.Converts b) :
    b.zone = a.zone ∨ a.reverseBits = .ok b ∨ a.reverseBytes = .ok b := by
  cases h with
  | reverseBits h => exact .inr (.inl h)
  | reverseBytes h => exact .inr (.inr h)
  | setPrefixLen h | toHost h | toHostAt h | toBlockAt h =>
      obtain ⟨s, -, rfl⟩ := map_eq_ok_iff.1 h
      exact .inl rfl
  | withSingleBlockPrefix h =>
      obtain ⟨s, -, rfl⟩ := Option.map_eq_some_iff.1 h
      exact .inl rfl
  | toBlocks h | toRuns h =>
      obtain ⟨s, -, rfl⟩ := List.mem_map.1 h
      exact .inl rfl
  | walk h =>
      rw [Address.walk, Walk.handedOut_map] at h
      obtain ⟨s, -, rfl⟩ := List.mem_map.1 h
      exact .inl rfl
  | withoutPrefixLen | lower | upper | toBlock | cover => exact .inl rfl

theorem wellFormed_of_withZone {s : Section} {zone : String} {a : Address} (hs : s.WellFormed)
    (h : withZone s zone = .ok a) : a.body.WellFormed := by
  unfold withZone at h
  split at h
  · cases h
    exact hs
  · cases h

/-- The coalesced ranges of addresses are ranges. -/
theorem wellFormed_of_mergedRanges {addresses : List Address} {ranges : List AddressRange}
    (ha : ∀ a ∈ addresses, a.body.WellFormed) (h : mergedRanges addresses = .ok ranges) :
    ∀ r ∈ ranges, r.WellFormed := by
  unfold mergedRanges at h
  split at h
  · cases h
    simp
  · split at h
    · cases h
    · cases h
      refine AddressRange.wellFormed_of_mem_coalesce fun r hr => ?_
      obtain ⟨a, hmem, hra⟩ := List.mem_flatMap.1 hr
      exact (Section.wellFormed_of_mem_ranges (ha a hmem) hra).1

end Address

/-! ## Calls on ranges -/

namespace AddressRange

variable {r s t : AddressRange}

/-- The ranges that are built of plain data. -/
inductive Built : AddressRange → Prop where
  | ofValues {version : Version} {lower upper : Nat} {r : AddressRange}
      (h : ofValues version lower upper = .ok r) : Built r
  | ofKey {key : RangeKey} {r : AddressRange} (h : ofKey key = .ok r) : Built r

/-- The ranges that a call on two ranges yields. -/
inductive Combines (r s : AddressRange) : AddressRange → Prop where
  | inter {t : AddressRange} (h : r.inter? s = some t) : Combines r s t
  | hull {t : AddressRange} (h : r.hull? s = some t) : Combines r s t
  | union {t : AddressRange} (h : r.union? s = some t) : Combines r s t
  | difference {t : AddressRange} (h : t ∈ r.difference s) : Combines r s t

/-- The sections that a range is split into, or covered by. -/
inductive Spans (r : AddressRange) : Section → Prop where
  | toBlocks {t : Section} (h : t ∈ r.toBlocks) : Spans r t
  | toRuns {t : Section} (h : t ∈ r.toRuns) : Spans r t
  | cover : Spans r r.cover

/-- Whatever data a range is built of, its ends are in order and within the address. -/
theorem Built.wellFormed (h : Built r) : r.WellFormed := by
  cases h with
  | ofValues h => exact wellFormed_of_ofValues h
  | ofKey h => exact wellFormed_of_ofKey h

/-- Combining two ranges keeps the ends in order and within the address. -/
theorem Combines.wellFormed (hr : r.WellFormed) (hs : s.WellFormed) (h : r.Combines s t) :
    t.WellFormed := by
  cases h with
  | inter h => exact wellFormed_of_inter? hr hs h
  | hull h => exact wellFormed_of_hull? hr hs h
  | union h => exact wellFormed_of_union? hr hs h
  | difference h => exact wellFormed_of_mem_difference hr h

/-- A range is split into sections and covered by one. -/
theorem Spans.wellFormed {t : Section} (hr : r.WellFormed) (h : r.Spans t) : t.WellFormed := by
  cases h with
  | toBlocks h =>
      obtain ⟨b, -, rfl⟩ := List.mem_map.1 h
      exact Section.wellFormed_toSection _ _
  | toRuns h =>
      exact (Section.isIntervalKind_isSequentialOf _).wellFormed t ((isSplit_toRuns hr).of_kind t h)
  | cover => exact Section.wellFormed_toSection _ _

end AddressRange

theorem Address.Combines.wellFormed {a b other : Address} (ha : a.body.WellFormed)
    (ho : other.body.WellFormed) (h : a.Combines other b) : b.body.WellFormed := by
  cases h with
  | applyMask h =>
      obtain ⟨s, hs, rfl⟩ := map_eq_ok_iff.1 h
      exact Section.Combines.wellFormed ha ho (.applyMask hs)
  | inter h =>
      obtain ⟨common, hcommon, h⟩ := map_eq_ok_iff.1 h
      obtain ⟨s, rfl, rfl⟩ := Option.map_eq_some_iff.1 h
      exact Section.Combines.wellFormed ha ho (.inter hcommon)
  | difference h hb =>
      obtain ⟨pieces, hpieces, rfl⟩ := map_eq_ok_iff.1 h
      obtain ⟨s, hs, rfl⟩ := List.mem_map.1 hb
      exact Section.Combines.wellFormed ha ho (.difference hpieces hs)
  | toBlocksTo h hb =>
      obtain ⟨r, hr, rfl⟩ := map_eq_ok_iff.1 h
      obtain ⟨s, hs, rfl⟩ := List.mem_map.1 hb
      exact (AddressRange.Spans.toBlocks hs).wellFormed
        (AddressRange.wellFormed_of_ofAddresses ha ho hr)
  | coverTo h =>
      obtain ⟨r, hr, rfl⟩ := map_eq_ok_iff.1 h
      exact AddressRange.Spans.cover.wellFormed (AddressRange.wellFormed_of_ofAddresses ha ho hr)

/-- Addresses made of what ranges are split into are well formed. -/
theorem Address.wellFormed_of_mem_spans {ranges : List AddressRange}
    (hranges : ∀ r ∈ ranges, r.WellFormed) {split : AddressRange → List Section}
    (hsplit : ∀ r, ∀ t ∈ split r, r.Spans t) {a : Address}
    (ha : a ∈ (ranges.flatMap split).map ofSection) : a.body.WellFormed := by
  obtain ⟨t, ht, rfl⟩ := List.mem_map.1 ha
  obtain ⟨r, hr, ht⟩ := List.mem_flatMap.1 ht
  exact (hsplit r t ht).wellFormed (hranges r hr)

/-! ## Chains of calls -/

/-- What a call takes and yields. -/
inductive Item where
  | ofSegment (g : Segment)
  | ofSection (s : Section)
  | ofAddress (a : Address)
  | ofRange (r : AddressRange)

/-- An item is well formed as what it is. A zone is free. -/
def Item.WellFormed : Item → Prop
  | ofSegment g => g.WellFormed
  | ofSection s => s.WellFormed
  | ofAddress a => a.body.WellFormed
  | ofRange r => r.WellFormed

open Item

/-- An item comes out of one call that takes plain data, or some of the given items. -/
inductive Yields (items : List Item) : Item → Prop where
  -- Segments
  | buildSegment {width : Nat} {b : Bounds} {prefixLen : Option Nat} {g : Segment}
      (h : Segment.build width b prefixLen = .ok g) : Yields items (ofSegment g)
  | reverseSegmentBits {g g' : Segment} (hg : ofSegment g ∈ items) (h : g.reverseBits = .ok g') :
      Yields items (ofSegment g')
  | reverseSegmentBytes {g g' : Segment} (hg : ofSegment g ∈ items)
      (h : g.reverseBytes = .ok g') : Yields items (ofSegment g')
  | segment {s : Section} {g : Segment} (hs : ofSection s ∈ items) (h : g ∈ s.segments) :
      Yields items (ofSegment g)
  -- Sections
  | buildSection {s : Section} (h : s.Built) : Yields items (ofSection s)
  | ofSegments {version : Version} {segments : List Segment} {prefixLen : Option Nat} {s : Section}
      (hsegments : ∀ g ∈ segments, ofSegment g ∈ items)
      (h : Section.ofSegments version segments prefixLen = .ok s) : Yields items (ofSection s)
  | convertSection {s t : Section} (hs : ofSection s ∈ items) (h : s.Converts t) :
      Yields items (ofSection t)
  | combineSections {s other t : Section} (hs : ofSection s ∈ items)
      (ho : ofSection other ∈ items) (h : s.Combines other t) : Yields items (ofSection t)
  | body {a : Address} (ha : ofAddress a ∈ items) : Yields items (ofSection a.body)
  | spanRange {r : AddressRange} {t : Section} (hr : ofRange r ∈ items) (h : r.Spans t) :
      Yields items (ofSection t)
  -- Addresses
  | buildAddress {a : Address} (h : a.Built) : Yields items (ofAddress a)
  | wrap {s : Section} (hs : ofSection s ∈ items) : Yields items (ofAddress (Address.ofSection s))
  | withZone {s : Section} {zone : String} {a : Address} (hs : ofSection s ∈ items)
      (h : Address.withZone s zone = .ok a) : Yields items (ofAddress a)
  | convertAddress {a b : Address} (ha : ofAddress a ∈ items) (h : a.Converts b) :
      Yields items (ofAddress b)
  | combineAddresses {a other b : Address} (ha : ofAddress a ∈ items)
      (ho : ofAddress other ∈ items) (h : a.Combines other b) : Yields items (ofAddress b)
  | mergeToBlocks {addresses merged : List Address} {a : Address}
      (haddresses : ∀ a ∈ addresses, ofAddress a ∈ items)
      (h : Address.mergeToBlocks addresses = .ok merged) (ha : a ∈ merged) :
      Yields items (ofAddress a)
  | mergeToRuns {addresses merged : List Address} {a : Address}
      (haddresses : ∀ a ∈ addresses, ofAddress a ∈ items)
      (h : Address.mergeToRuns addresses = .ok merged) (ha : a ∈ merged) :
      Yields items (ofAddress a)
  | first {r : AddressRange} (hr : ofRange r ∈ items) : Yields items (ofAddress r.first)
  | last {r : AddressRange} (hr : ofRange r ∈ items) : Yields items (ofAddress r.last)
  | walkRange {r : AddressRange} {calls : List Walk.Call} {a : Address} (hr : ofRange r ∈ items)
      (h : a ∈ r.addresses.handedOut calls) : Yields items (ofAddress a)
  | walkRangeBlocks {r : AddressRange} {p : Nat} {calls : List Walk.Call} {a : Address}
      (hr : ofRange r ∈ items) (h : a ∈ (r.prefixBlocks p).handedOut calls) :
      Yields items (ofAddress a)
  -- Ranges
  | buildRange {r : AddressRange} (h : r.Built) : Yields items (ofRange r)
  | rangeOfSection {s : Section} (hs : ofSection s ∈ items) :
      Yields items (ofRange (AddressRange.ofSection s))
  | rangeOfAddresses {a b : Address} {r : AddressRange} (ha : ofAddress a ∈ items)
      (hb : ofAddress b ∈ items) (h : AddressRange.ofAddresses a b = .ok r) :
      Yields items (ofRange r)
  | combineRanges {r s t : AddressRange} (hr : ofRange r ∈ items) (hs : ofRange s ∈ items)
      (h : r.Combines s t) : Yields items (ofRange t)
  | coalesce {ranges : List AddressRange} {r : AddressRange}
      (hranges : ∀ r ∈ ranges, ofRange r ∈ items) (h : r ∈ AddressRange.coalesce ranges) :
      Yields items (ofRange r)
  | walkRangePieces {r : AddressRange} {p : Nat} {calls : List Walk.Call} {t : AddressRange}
      (hr : ofRange r ∈ items) (h : t ∈ (r.prefixPieces p).handedOut calls) :
      Yields items (ofRange t)

/-- A finite chain of calls, the latest item in front: every item comes out of one call on the items
behind it. -/
inductive Chain : List Item → Prop where
  | nil : Chain []
  | cons {items : List Item} {i : Item} (hi : Yields items i) (hitems : Chain items) :
      Chain (i :: items)

/-- **One call on well-formed items yields a well-formed item.** -/
theorem Yields.wellFormed {items : List Item} {i : Item} (hitems : ∀ j ∈ items, j.WellFormed)
    (h : Yields items i) : i.WellFormed := by
  cases h with
  | buildSegment h => exact Segment.wellFormed_of_build h
  | reverseSegmentBits hg h => exact (Segment.wellFormed_of_reverseBits (hitems _ hg) h).1
  | reverseSegmentBytes hg h => exact (Segment.wellFormed_of_reverseBytes (hitems _ hg) h).1
  | segment hs h => exact (Section.wellFormed_of_mem_segments (hitems _ hs) h).1
  | buildSection h => exact h.wellFormed
  | ofSegments hsegments h =>
      exact Section.wellFormed_of_ofSegments (fun g hg => hitems _ (hsegments g hg)) h
  | convertSection hs h => exact h.wellFormed (hitems _ hs)
  | combineSections hs ho h => exact h.wellFormed (hitems _ hs) (hitems _ ho)
  | @body a ha => exact hitems (ofAddress a) ha
  | spanRange hr h => exact h.wellFormed (hitems _ hr)
  | buildAddress h => exact h.wellFormed
  | @wrap s hs => exact hitems (ofSection s) hs
  | withZone hs h => exact Address.wellFormed_of_withZone (hitems _ hs) h
  | convertAddress ha h => exact h.body.wellFormed (hitems _ ha)
  | combineAddresses ha ho h => exact h.wellFormed (hitems _ ha) (hitems _ ho)
  -- A merge coalesces ranges first, and these are well formed before they are split.
  | mergeToBlocks haddresses h ha =>
      obtain ⟨ranges, hranges, h⟩ := bind_eq_ok_iff.1 h
      cases h
      have hwf :=
        Address.wellFormed_of_mergedRanges (fun a ha => hitems _ (haddresses a ha)) hranges
      exact Address.wellFormed_of_mem_spans hwf (fun _ _ => .toBlocks) ha
  | mergeToRuns haddresses h ha =>
      obtain ⟨ranges, hranges, h⟩ := bind_eq_ok_iff.1 h
      cases h
      have hwf :=
        Address.wellFormed_of_mergedRanges (fun a ha => hitems _ (haddresses a ha)) hranges
      exact Address.wellFormed_of_mem_spans hwf (fun _ _ => .toRuns) ha
  | first hr => exact Section.wellFormed_ofHost _
  | last hr => exact Section.wellFormed_ofHost _
  | walkRange hr h => exact AddressRange.wellFormed_of_mem_addresses (hitems _ hr) h
  | walkRangeBlocks hr h => exact AddressRange.wellFormed_of_mem_prefixBlocks (hitems _ hr) h
  | buildRange h => exact h.wellFormed
  | rangeOfSection hs => exact Section.wellFormed_ofSection (hitems _ hs)
  | rangeOfAddresses ha hb h =>
      exact AddressRange.wellFormed_of_ofAddresses (hitems _ ha) (hitems _ hb) h
  | combineRanges hr hs h => exact h.wellFormed (hitems _ hr) (hitems _ hs)
  | coalesce hranges h =>
      exact AddressRange.wellFormed_of_mem_coalesce (fun r hr => hitems _ (hranges r hr)) _ h
  | walkRangePieces hr h => exact AddressRange.wellFormed_of_mem_prefixPieces (hitems _ hr) h

/-- **Every item of a chain is well formed.** -/
theorem Chain.wellFormed {items : List Item} (h : Chain items) : ∀ i ∈ items, i.WellFormed := by
  induction h with
  | nil => simp
  | cons hi _ ih => exact List.forall_mem_cons.2 ⟨hi.wellFormed ih, ih⟩

/-! ## The invariant from outside -/

/-- A section has the segments of its version, each with values of its width in the right order and
with the own prefix length that follows from that of the section, which is within the address. -/
structure Section.Invariant (s : Section) : Prop where
  length_segments : s.segments.length = s.version.segmentCount
  prefixLen_le : ∀ p ∈ s.prefixLen, p ≤ s.bitCount
  width_eq : ∀ g ∈ s.segments, g.width = s.version.segmentBits
  lower_le_upper : ∀ g ∈ s.segments, g.bounds.lower ≤ g.bounds.upper
  upper_le_max : ∀ g ∈ s.segments, g.bounds.upper ≤ s.version.segmentMax
  ownPrefixLen_eq : ∀ index (h : index < s.segments.length),
    s.segments[index].prefixLen = s.ownPrefixLen index

/-- An address is a single one, without a prefix length or a zone. -/
structure Address.IsHost (a : Address) (host : HostAddress) : Prop where
  version_eq : a.version = host.version
  isMultiple_eq : a.body.isMultiple = false
  prefixLen_eq : a.body.prefixLen = none
  zone_eq : a.zone = none
  lowerValue_eq : a.body.lowerValue = host.value
  upperValue_eq : a.body.upperValue = host.value

/-- A range is one of addresses of its version, and its ends are its lowest and its highest. -/
structure AddressRange.Invariant (r : AddressRange) : Prop where
  lower_le_upper : r.lower ≤ r.upper
  upper_le_max : r.upper ≤ r.version.maxValue
  isHost_first : r.first.IsHost ⟨r.version, r.lower⟩
  isHost_last : r.last.IsHost ⟨r.version, r.upper⟩

/-- A well-formed section has all that is promised of sections. -/
theorem Section.invariant_of_wellFormed {s : Section} (h : s.WellFormed) : s.Invariant where
  length_segments := by rw [length_segments, h.length_bounds]
  prefixLen_le := h.prefixLen_le
  width_eq g hg := (wellFormed_of_mem_segments h hg).2
  lower_le_upper g hg := (wellFormed_of_mem_segments h hg).1.within.lower_le_upper
  upper_le_max g hg := by
    obtain ⟨hwf, hwidth⟩ := wellFormed_of_mem_segments h hg
    rw [Version.le_segmentMax_iff, ← hwidth]
    exact hwf.within.upper_lt
  ownPrefixLen_eq index hindex := by
    rw [getElem_segments s hindex (s.length_segments ▸ hindex)]

theorem Address.isHost_ofHost {host : HostAddress} (h : host.value ≤ host.version.maxValue) :
    (ofHost host).IsHost host where
  version_eq := rfl
  isMultiple_eq := by
    show (Section.ofHost host).isMultiple = false
    simp [Section.isMultiple, Section.ofHost, Section.ofDigits, Bounds.isMultiple, Bounds.single]
  prefixLen_eq := rfl
  zone_eq := rfl
  lowerValue_eq := (Section.ends_ofHost h).1
  upperValue_eq := (Section.ends_ofHost h).2

/-- A well-formed range has all that is promised of ranges. -/
theorem AddressRange.invariant_of_wellFormed {r : AddressRange} (h : r.WellFormed) :
    r.Invariant where
  lower_le_upper := h.lower_le_upper
  upper_le_max := h.upper_le_max
  isHost_first := Address.isHost_ofHost (Nat.le_trans h.lower_le_upper h.upper_le_max)
  isHost_last := Address.isHost_ofHost h.upper_le_max

/-- **Whatever a finite chain of calls yields satisfies the invariant**: every section and the
section of every address, and every range. -/
theorem Chain.invariant (items : List Item) (h : Chain items) :
    (∀ s, ofSection s ∈ items → s.Invariant) ∧
    (∀ a, ofAddress a ∈ items → a.body.Invariant) ∧
    ∀ r, ofRange r ∈ items → r.Invariant := by
  refine ⟨fun s hs => ?_, fun a ha => ?_, fun r hr => ?_⟩
  · exact Section.invariant_of_wellFormed (h.wellFormed _ hs)
  · exact Section.invariant_of_wellFormed (h.wellFormed _ ha)
  · exact AddressRange.invariant_of_wellFormed (h.wellFormed _ hr)

/-- A section with a prefix length that ends in its second segment, the block around it, the ranges
of both, and what is left of one range without the other. -/
theorem Chain.invariant_ragged :
    let ragged : Section := ⟨.v4, [.single 10, ⟨33, 34⟩, .single 0, ⟨5, 9⟩], some 12⟩
    let block : Section := ⟨.v4, [.single 10, ⟨32, 47⟩, ⟨0, 255⟩, ⟨0, 255⟩], some 12⟩
    let whole : AddressRange := ⟨.v4, 0x0a200000, 0x0a2fffff⟩
    let inner : AddressRange := ⟨.v4, 0x0a210005, 0x0a220009⟩
    let rest : AddressRange := ⟨.v4, 0x0a22000a, 0x0a2fffff⟩
    let items : List Item := [ofRange rest, ofRange inner, ofRange whole, ofSection block,
      ofSection ragged]
    Chain items ∧ ragged.Invariant ∧ block.Invariant ∧ rest.Invariant ∧
      ragged.ownPrefixLen 0 = none ∧ ragged.ownPrefixLen 1 = some 4 ∧
      ragged.ownPrefixLen 2 = some 0 := by
  intro ragged block whole inner rest items
  have hbuild : Section.ofBounds .v4 ragged.bounds (some 12) = .ok ragged := rfl
  have hblock : ragged.toBlockAt 12 = .ok block :=
    Section.toBlockAt_eq_ok_iff.2 ⟨by decide, by decide⟩
  have hinner : AddressRange.ofSection ragged = inner := by decide
  have hwhole : AddressRange.ofSection block = whole := by decide
  have hrest : whole.Combines inner rest := .difference (by decide)
  have hchain : Chain items := by
    refine .cons (.combineRanges ?_ ?_ hrest) ?_
    · simp
    · simp
    refine .cons (hinner ▸ .rangeOfSection (s := ragged) ?_) ?_
    · simp
    refine .cons (hwhole ▸ .rangeOfSection (s := block) ?_) ?_
    · simp
    refine .cons (.convertSection (s := ragged) ?_ (.toBlockAt hblock)) ?_
    · simp
    exact .cons (.buildSection (.ofBounds hbuild)) .nil
  obtain ⟨hsections, -, hranges⟩ := Chain.invariant items hchain
  exact ⟨hchain, hsections _ (by simp [items]), hsections _ (by simp [items]),
    hranges _ (by simp [items]), rfl, rfl, rfl⟩

end IpSpace
