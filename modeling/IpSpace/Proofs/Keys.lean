import IpSpace.Proofs.Building

/-!
# Keys and what they stand for

Sections and ranges are rebuilt from their keys, and a key that is accepted is the key of what it
stands for. Both directions rest on a description of when reading succeeds, and with what: a key of
a section is read to `⟨version, bounds, prefixLen⟩` exactly if that is well formed and the unused
slots are zero (`Section.ofKey_eq_ok_iff`), and a key of a range likewise to the numbers that its
two ends write (`AddressRange.ofKey_eq_ok_iff`).

The layout is the same for both versions, so a key of an IPv4 section has four slots that nothing is
read from. `padKey_take` says that zeros there are all that is missing between the slots in use and
the key.
-/

namespace IpSpace

/-! ## The layout -/

/-- A key of a section has eight pairs of numbers of sixteen bits, and a prefix length of eight. -/
structure AddressKey.InLayout (key : AddressKey) : Prop where
  length_segments : key.segments.length = keySegmentCount
  segment_lt : ∀ pair ∈ key.segments, pair.1 < 2 ^ 16 ∧ pair.2 < 2 ^ 16
  prefixLen_lt : ∀ p ∈ key.prefixLen, p < 2 ^ 8

/-- A key of a range has eight numbers of sixteen bits for each of its ends. -/
structure RangeKey.InLayout (key : RangeKey) : Prop where
  length_lower : key.lower.length = keySegmentCount
  length_upper : key.upper.length = keySegmentCount
  lower_lt : ∀ d ∈ key.lower, d < 2 ^ 16
  upper_lt : ∀ d ∈ key.upper, d < 2 ^ 16

/-- What makes a key stand for a section: nothing in the slots that its version has no segments for,
a range of segment values in every other slot, and a prefix length within the address. -/
structure AddressKey.IsSound (key : AddressKey) : Prop where
  unused : ∀ pair ∈ key.segments.drop key.version.segmentCount, pair = (0, 0)
  used : ∀ pair ∈ key.segments.take key.version.segmentCount,
    pair.1 ≤ pair.2 ∧ pair.2 ≤ key.version.segmentMax
  prefixLen_le : ∀ p ∈ key.prefixLen, p ≤ key.version.bitCount

/-- What makes a key stand for a range: nothing in the slots that its version has no segments for,
segment values in every other slot, and ends that write numbers in the right order. -/
structure RangeKey.IsSound (key : RangeKey) : Prop where
  unused : ∀ d ∈ key.lower.drop key.version.segmentCount ++ key.upper.drop key.version.segmentCount,
    d = 0
  used : ∀ d ∈ key.lower.take key.version.segmentCount ++ key.upper.take key.version.segmentCount,
    d ≤ key.version.segmentMax
  lower_le_upper :
    Digits.value key.version.segmentBits (key.lower.take key.version.segmentCount)
      ≤ Digits.value key.version.segmentBits (key.upper.take key.version.segmentCount)

theorem Version.segmentCount_le (version : Version) : version.segmentCount ≤ keySegmentCount := by
  cases version <;> decide

/-- A segment fits into a slot. -/
theorem Version.segmentMax_lt (version : Version) : version.segmentMax < 2 ^ 16 := by
  cases version <;> decide

/-- A prefix length fits into a byte. -/
theorem Version.bitCount_lt (version : Version) : version.bitCount < 2 ^ 8 := by
  cases version <;> decide

/-! ## Padding -/

section Padding

variable {α : Type} {zero : α} {items slots : List α} {n : Nat}

theorem length_padKey (h : items.length ≤ keySegmentCount) :
    (padKey zero items).length = keySegmentCount := by
  rw [padKey, List.length_append, List.length_replicate]
  omega

theorem take_padKey (h : items.length = n) : (padKey zero items).take n = items := by
  rw [padKey, ← h, List.take_left]

theorem eq_zero_of_mem_drop_padKey (h : items.length = n) :
    ∀ x ∈ (padKey zero items).drop n, x = zero := by
  intro x hx
  rw [padKey, ← h, List.drop_left] at hx
  exact (List.mem_replicate.1 hx).2

theorem mem_padKey {x : α} (hx : x ∈ padKey zero items) : x ∈ items ∨ x = zero := by
  rcases List.mem_append.1 hx with hx | hx
  · exact Or.inl hx
  · exact Or.inr (List.mem_replicate.1 hx).2

/-- The slots in use, padded, are all slots if the others are zero. -/
theorem padKey_take (hlen : slots.length = keySegmentCount) (hn : n ≤ keySegmentCount)
    (hzero : ∀ x ∈ slots.drop n, x = zero) : padKey zero (slots.take n) = slots := by
  have hused : (slots.take n).length = n := by rw [List.length_take, hlen, Nat.min_eq_left hn]
  have hunused : slots.drop n = List.replicate (keySegmentCount - n) zero := by
    rw [← hlen, ← List.length_drop]
    exact List.eq_replicate_of_mem hzero
  rw [padKey, hused, ← hunused, List.take_append_drop]

end Padding

theorem checkPadding_eq_ok_iff {version : Version} {slots : List Nat} {u : Unit} :
    checkPadding version slots = .ok u ↔ ∀ d ∈ slots.drop version.segmentCount, d = 0 := by
  unfold checkPadding
  by_cases hzero : (slots.drop version.segmentCount).all (· == 0) = true
  · rw [if_pos hzero]
    simpa using hzero
  · rw [if_neg hzero]
    simpa using hzero

/-! ## Sections -/

namespace Segment

/-- A segment of an address is built exactly of a range within its width. -/
theorem build_eq_ok_iff {version : Version} {b : Bounds} {g : Segment} :
    build version.segmentBits b none = .ok g ↔
      (b.lower ≤ b.upper ∧ b.upper ≤ version.segmentMax) ∧ ⟨version.segmentBits, b, none⟩ = g := by
  have hwidth : isWidth version.segmentBits = true := by cases version <;> rfl
  unfold build
  rw [check_eq_ok_iff, check_eq_ok_iff, check_eq_ok_iff, hwidth, not_lt, not_lt, and_assoc]
  constructor
  · rintro ⟨-, horder, hmax, h⟩
    exact ⟨horder, hmax, Except.ok.inj h⟩
  · rintro ⟨horder, hmax, rfl⟩
    exact ⟨by decide, horder, hmax, rfl⟩

end Segment

namespace Section

variable {s : Section} {version : Version} {bounds : List Bounds} {prefixLen : Option Nat}

/-- The segments of an address are built exactly of ranges within their width. -/
private theorem mapM_build_eq_ok_iff {segments : List Segment} :
    bounds.mapM (fun b => Segment.build version.segmentBits b none) = .ok segments ↔
      (∀ b ∈ bounds, b.lower ≤ b.upper ∧ b.upper ≤ version.segmentMax) ∧
        bounds.map (fun b => ⟨version.segmentBits, b, none⟩) = segments := by
  rw [mapM_eq_ok_iff]
  simp only [Segment.build_eq_ok_iff]
  rw [List.forall₂_and_left, ← List.forall₂_map_left_iff (f := fun b => Segment.mk _ b none),
    List.forall₂_eq_eq_eq]

/-- None of them has another width. -/
private theorem find?_width_ne (version : Version) (bounds : List Bounds) :
    (bounds.map fun b => Segment.mk version.segmentBits b none).find?
      (·.width ≠ version.segmentBits) = none := by
  rw [List.find?_eq_none]
  intro g hg
  obtain ⟨b, -, rfl⟩ := List.mem_map.1 hg
  simp

/-- Segments of the right width make a section if there are as many as the version asks for and the
prefix length is within the address. -/
private theorem ofSegments_map_eq_ok_iff :
    ofSegments version (bounds.map fun b => ⟨version.segmentBits, b, none⟩) prefixLen = .ok s ↔
      bounds.length = version.segmentCount ∧ (∀ p ∈ prefixLen, p ≤ version.bitCount) ∧
        ⟨version, bounds, prefixLen⟩ = s := by
  have hbounds : (bounds.map fun b => Segment.mk version.segmentBits b none).map (·.bounds)
      = bounds := by
    rw [List.map_map]
    exact List.map_id bounds
  unfold ofSegments
  rw [check_eq_ok_iff, find?_width_ne, hbounds, not_not, List.length_map]
  refine and_congr_right fun _ => ?_
  cases prefixLen with
  | none =>
      constructor
      · intro h
        exact ⟨by simp, Except.ok.inj h⟩
      · rintro ⟨-, rfl⟩
        rfl
  | some p =>
      constructor
      · intro h
        obtain ⟨_, hcheck, h⟩ := bind_eq_ok_iff.1 h
        exact ⟨prefixLen_le_of_check hcheck, Except.ok.inj h⟩
      · rintro ⟨hp, rfl⟩
        exact bind_eq_ok_iff.2 ⟨(), checkPrefixLen_eq_ok_iff.2 (hp p rfl), rfl⟩

/-- Building a section out of ranges succeeds exactly if what is built is well formed. -/
theorem ofBounds_eq_ok_iff : ofBounds version bounds prefixLen = .ok s ↔
    WellFormed ⟨version, bounds, prefixLen⟩ ∧ ⟨version, bounds, prefixLen⟩ = s := by
  unfold ofBounds
  rw [bind_eq_ok_iff]
  constructor
  · rintro ⟨segments, hsegments, h⟩
    obtain ⟨hrange, rfl⟩ := mapM_build_eq_ok_iff.1 hsegments
    obtain ⟨hlen, hp, rfl⟩ := ofSegments_map_eq_ok_iff.1 h
    exact ⟨⟨hlen, fun b hb => (hrange b hb).1, fun b hb => (hrange b hb).2, hp⟩, rfl⟩
  · rintro ⟨h, rfl⟩
    have hrange := fun b hb => And.intro (h.lower_le_upper b hb) (h.upper_le_max b hb)
    exact ⟨_, mapM_build_eq_ok_iff.2 ⟨hrange, rfl⟩,
      ofSegments_map_eq_ok_iff.2 ⟨h.length_bounds, h.prefixLen_le, rfl⟩⟩

/-- A prefix length past the width of the address is the last thing that can be wrong with ranges
that make up a section otherwise. -/
theorem ofBounds_of_lt {p : Nat} (h : WellFormed ⟨version, bounds, none⟩)
    (hp : version.bitCount < p) :
    ofBounds version bounds (some p) = .error (.prefixTooLong version p) := by
  have hrange := fun b hb => And.intro (h.lower_le_upper b hb) (h.upper_le_max b hb)
  have hlen : bounds.length = version.segmentCount := h.length_bounds
  have hrefused : checkPrefixLen version p = .error (.prefixTooLong version p) :=
    checkPrefixLen_eq_error_iff.2 ⟨hp, rfl⟩
  refine bind_eq_error_iff.2 (.inr ⟨_, mapM_build_eq_ok_iff.2 ⟨hrange, rfl⟩, ?_⟩)
  unfold ofSegments
  rw [List.length_map, if_neg (not_not.2 hlen), find?_width_ne]
  exact bind_eq_error_iff.2 (.inl hrefused)

/-- The bounds that the pairs of a key write. -/
def keyBounds (pairs : List (Nat × Nat)) : List Bounds :=
  pairs.map fun (lower, upper) => ⟨lower, upper⟩

/-- **A key is read to a section exactly if the unused slots are zero and the section is well
formed** whose bounds stand in the slots in use. -/
theorem ofKey_eq_ok_iff {key : AddressKey} : ofKey key = .ok s ↔
    (∀ pair ∈ key.segments.drop key.version.segmentCount, pair = (0, 0)) ∧
      WellFormed ⟨key.version, keyBounds (key.segments.take key.version.segmentCount),
        key.prefixLen⟩ ∧
      ⟨key.version, keyBounds (key.segments.take key.version.segmentCount), key.prefixLen⟩ = s := by
  have hpadding : ∀ u : Unit,
      checkPadding key.version (key.segments.map fun (lower, upper) => max lower upper) = .ok u ↔
        ∀ pair ∈ key.segments.drop key.version.segmentCount, pair = (0, 0) := by
    intro u
    rw [checkPadding_eq_ok_iff, ← List.map_drop, List.forall_mem_map]
    simp
  unfold ofKey
  rw [bind_eq_ok_iff]
  constructor
  · rintro ⟨u, hcheck, h⟩
    exact ⟨(hpadding u).1 hcheck, ofBounds_eq_ok_iff.1 h⟩
  · rintro ⟨hzero, h⟩
    exact ⟨(), (hpadding ()).2 hzero, ofBounds_eq_ok_iff.2 h⟩

/-- What stands in the slots in use is a section if every pair is a range of segment values and the
prefix length is within the address; there are always as many pairs as segments. -/
theorem wellFormed_keyBounds_iff {key : AddressKey} (h : key.InLayout) :
    WellFormed ⟨key.version, keyBounds (key.segments.take key.version.segmentCount),
        key.prefixLen⟩ ↔
      (∀ pair ∈ key.segments.take key.version.segmentCount,
        pair.1 ≤ pair.2 ∧ pair.2 ≤ key.version.segmentMax) ∧
      ∀ p ∈ key.prefixLen, p ≤ key.version.bitCount := by
  have hlen : (keyBounds (key.segments.take key.version.segmentCount)).length
      = key.version.segmentCount := by
    rw [keyBounds, List.length_map, List.length_take, h.length_segments,
      Nat.min_eq_left key.version.segmentCount_le]
  constructor
  · intro hwf
    refine ⟨fun pair hpair => ?_, hwf.prefixLen_le⟩
    have hmem := List.mem_map_of_mem (f := fun (pair : Nat × Nat) => Bounds.mk pair.1 pair.2) hpair
    exact ⟨hwf.lower_le_upper _ hmem, hwf.upper_le_max _ hmem⟩
  · rintro ⟨hused, hp⟩
    exact ⟨hlen, List.forall_mem_map.2 fun pair hpair => (hused pair hpair).1,
      List.forall_mem_map.2 fun pair hpair => (hused pair hpair).2, hp⟩

/-- **A section is read back from its key.** -/
theorem ofKey_toKey (hs : s.WellFormed) : ofKey s.toKey = .ok s := by
  have hlen : (s.bounds.map fun b => (b.lower, b.upper)).length = s.version.segmentCount := by
    rw [List.length_map, hs.length_bounds]
  have hbounds : keyBounds (s.toKey.segments.take s.version.segmentCount) = s.bounds := by
    show keyBounds ((padKey (0, 0) _).take _) = _
    rw [take_padKey hlen, keyBounds, List.map_map]
    exact List.map_id s.bounds
  have heq : (⟨s.version, keyBounds (s.toKey.segments.take s.version.segmentCount), s.prefixLen⟩
      : Section) = s := by rw [hbounds]
  refine ofKey_eq_ok_iff.2 ⟨eq_zero_of_mem_drop_padKey hlen, ?_, heq⟩
  exact heq.symm ▸ hs

theorem inLayout_toKey (hs : s.WellFormed) : s.toKey.InLayout where
  length_segments := by
    apply length_padKey
    rw [List.length_map, hs.length_bounds]
    exact s.version.segmentCount_le
  segment_lt := by
    intro pair hpair
    rcases mem_padKey hpair with hpair | rfl
    · obtain ⟨b, hb, rfl⟩ := List.mem_map.1 hpair
      have hupper := hs.upper_le_max b hb
      have hlower := hs.lower_le_upper b hb
      have hmax := s.version.segmentMax_lt
      exact ⟨by omega, by omega⟩
    · decide
  prefixLen_lt p hp := Nat.lt_of_le_of_lt (hs.prefixLen_le p hp) s.version.bitCount_lt

/-- The keys that are accepted are the sound ones. -/
theorem exists_ofKey_iff {key : AddressKey} (h : key.InLayout) :
    (∃ s, ofKey key = .ok s) ↔ key.IsSound := by
  simp only [ofKey_eq_ok_iff, wellFormed_keyBounds_iff h]
  constructor
  · rintro ⟨_, hunused, ⟨hused, hp⟩, -⟩
    exact ⟨hunused, hused, hp⟩
  · rintro ⟨hunused, hused, hp⟩
    exact ⟨_, hunused, ⟨hused, hp⟩, rfl⟩

/-- A key that is accepted is the key of the section that is read from it. -/
theorem toKey_of_ofKey {key : AddressKey} (h : key.InLayout) (hread : ofKey key = .ok s) :
    s.toKey = key := by
  obtain ⟨hunused, -, rfl⟩ := ofKey_eq_ok_iff.1 hread
  have hpairs : (keyBounds (key.segments.take key.version.segmentCount)).map
      (fun b => (b.lower, b.upper)) = key.segments.take key.version.segmentCount := by
    rw [keyBounds, List.map_map]
    exact List.map_id _
  rw [toKey, hpairs, padKey_take h.length_segments key.version.segmentCount_le hunused]

end Section

/-! ## Ranges -/

namespace AddressRange

variable {r : AddressRange} {version : Version}

/-- A range is built of two values exactly if it is one. -/
theorem ofValues_eq_ok_iff {lower upper : Nat} : ofValues version lower upper = .ok r ↔
    WellFormed ⟨version, lower, upper⟩ ∧ ⟨version, lower, upper⟩ = r := by
  unfold ofValues
  constructor
  · intro h
    refine ⟨?_, ?_⟩
    · split_ifs at h with hmax horder
      exact ⟨Nat.le_of_not_lt horder, Nat.le_of_not_lt hmax⟩
    · split_ifs at h with hmax horder
      exact Except.ok.inj h
  · rintro ⟨hwf, rfl⟩
    rw [if_neg (Nat.not_lt.2 hwf.upper_le_max), if_neg (Nat.not_lt.2 hwf.lower_le_upper)]

/-- One end of a key is read exactly if segment values stand in the slots in use. -/
theorem ofKeyEnd_eq_ok_iff {slots : List Nat} {value : Nat} :
    ofKeyEnd version slots = .ok value ↔
      (∀ d ∈ slots.take version.segmentCount, d ≤ version.segmentMax) ∧
        version.join (slots.take version.segmentCount) = value := by
  have hfind : (slots.take version.segmentCount).find? (version.segmentMax < ·) = none ↔
      ∀ d ∈ slots.take version.segmentCount, d ≤ version.segmentMax := by
    simp [List.find?_eq_none]
  unfold ofKeyEnd
  simp only
  rw [← hfind]
  split
  case h_1 d hd => simp [hd]
  case h_2 hnone => simp [hnone]

/-- **A key is read to a range exactly if the unused slots are zero, segment values stand in the
others, and the range is well formed** whose ends join these values. -/
theorem ofKey_eq_ok_iff {key : RangeKey} : ofKey key = .ok r ↔
    (∀ d ∈ key.lower.drop key.version.segmentCount ++ key.upper.drop key.version.segmentCount,
      d = 0) ∧
    (∀ d ∈ key.lower.take key.version.segmentCount ++ key.upper.take key.version.segmentCount,
      d ≤ key.version.segmentMax) ∧
    WellFormed ⟨key.version, key.version.join (key.lower.take key.version.segmentCount),
      key.version.join (key.upper.take key.version.segmentCount)⟩ ∧
    ⟨key.version, key.version.join (key.lower.take key.version.segmentCount),
      key.version.join (key.upper.take key.version.segmentCount)⟩ = r := by
  unfold ofKey
  rw [bind_eq_ok_iff, List.forall_mem_append, List.forall_mem_append]
  constructor
  · rintro ⟨_, hlowerZero, h⟩
    obtain ⟨_, hupperZero, h⟩ := bind_eq_ok_iff.1 h
    obtain ⟨lower, hlower, h⟩ := bind_eq_ok_iff.1 h
    obtain ⟨upper, hupper, h⟩ := bind_eq_ok_iff.1 h
    obtain ⟨hlowerMax, rfl⟩ := ofKeyEnd_eq_ok_iff.1 hlower
    obtain ⟨hupperMax, rfl⟩ := ofKeyEnd_eq_ok_iff.1 hupper
    exact ⟨⟨checkPadding_eq_ok_iff.1 hlowerZero, checkPadding_eq_ok_iff.1 hupperZero⟩,
      ⟨hlowerMax, hupperMax⟩, ofValues_eq_ok_iff.1 h⟩
  · rintro ⟨⟨hlowerZero, hupperZero⟩, ⟨hlowerMax, hupperMax⟩, h⟩
    refine ⟨(), checkPadding_eq_ok_iff.2 hlowerZero, ?_⟩
    refine bind_eq_ok_iff.2 ⟨(), checkPadding_eq_ok_iff.2 hupperZero, ?_⟩
    refine bind_eq_ok_iff.2 ⟨_, ofKeyEnd_eq_ok_iff.2 ⟨hlowerMax, rfl⟩, ?_⟩
    exact bind_eq_ok_iff.2 ⟨_, ofKeyEnd_eq_ok_iff.2 ⟨hupperMax, rfl⟩, ofValues_eq_ok_iff.2 h⟩

/-- The slots in use of one end hold the segments of an address, if their values are not too
large. -/
private theorem segments_of_slots {slots : List Nat} (hlen : slots.length = keySegmentCount)
    (hmax : ∀ d ∈ slots.take version.segmentCount, d ≤ version.segmentMax) :
    (slots.take version.segmentCount).length = version.segmentCount ∧
      Digits.Fit version.segmentBits (slots.take version.segmentCount) := by
  refine ⟨?_, fun d hd => Version.le_segmentMax_iff.1 (hmax d hd)⟩
  rw [List.length_take, hlen, Nat.min_eq_left version.segmentCount_le]

/-- **A range is read back from its key.** -/
theorem ofKey_toKey (hr : r.WellFormed) : ofKey r.toKey = .ok r := by
  have hlen := fun x => r.version.length_split x
  have hlower : r.version.join ((padKey 0 (r.version.split r.lower)).take r.version.segmentCount)
      = r.lower := by
    rw [take_padKey (hlen _), Version.join_split (Nat.le_trans hr.lower_le_upper hr.upper_le_max)]
  have hupper : r.version.join ((padKey 0 (r.version.split r.upper)).take r.version.segmentCount)
      = r.upper := by
    rw [take_padKey (hlen _), Version.join_split hr.upper_le_max]
  have hmax : ∀ x, ∀ d ∈ (padKey 0 (r.version.split x)).take r.version.segmentCount,
      d ≤ r.version.segmentMax := by
    intro x d hd
    rw [take_padKey (hlen x)] at hd
    exact Version.le_segmentMax_iff.2 (r.version.fit_split x d hd)
  refine ofKey_eq_ok_iff.2 ⟨?_, ?_, ?_⟩
  · exact List.forall_mem_append.2
      ⟨eq_zero_of_mem_drop_padKey (hlen _), eq_zero_of_mem_drop_padKey (hlen _)⟩
  · exact List.forall_mem_append.2 ⟨hmax _, hmax _⟩
  · simp only [toKey, hlower, hupper, and_true]
    exact hr

theorem inLayout_toKey (r : AddressRange) : r.toKey.InLayout := by
  have hlength : ∀ x, (padKey 0 (r.version.split x)).length = keySegmentCount := by
    intro x
    apply length_padKey
    rw [Version.length_split]
    exact r.version.segmentCount_le
  have hlt : ∀ x, ∀ d ∈ padKey 0 (r.version.split x), d < 2 ^ 16 := by
    intro x d hd
    rcases mem_padKey hd with hd | rfl
    · have hmax := Version.le_segmentMax_iff.2 (r.version.fit_split x d hd)
      exact Nat.lt_of_le_of_lt hmax r.version.segmentMax_lt
    · decide
  exact ⟨hlength _, hlength _, hlt _, hlt _⟩

/-- The keys that are accepted are the sound ones. -/
theorem exists_ofKey_iff {key : RangeKey} (h : key.InLayout) :
    (∃ r, ofKey key = .ok r) ↔ key.IsSound := by
  simp only [ofKey_eq_ok_iff]
  constructor
  · rintro ⟨_, hunused, hused, hwf, -⟩
    obtain ⟨hlowerMax, hupperMax⟩ := List.forall_mem_append.1 hused
    obtain ⟨hlowerLen, hlowerFit⟩ := segments_of_slots h.length_lower hlowerMax
    obtain ⟨hupperLen, hupperFit⟩ := segments_of_slots h.length_upper hupperMax
    have horder := hwf.lower_le_upper
    simp only at horder
    rw [Version.join_eq_value hlowerLen hlowerFit, Version.join_eq_value hupperLen hupperFit]
      at horder
    exact ⟨hunused, hused, horder⟩
  · rintro ⟨hunused, hused, horder⟩
    obtain ⟨hlowerMax, hupperMax⟩ := List.forall_mem_append.1 hused
    obtain ⟨hlowerLen, hlowerFit⟩ := segments_of_slots h.length_lower hlowerMax
    obtain ⟨hupperLen, hupperFit⟩ := segments_of_slots h.length_upper hupperMax
    rw [← Version.join_eq_value hlowerLen hlowerFit, ← Version.join_eq_value hupperLen hupperFit]
      at horder
    exact ⟨_, hunused, hused, ⟨horder, Version.join_le_maxValue hupperLen hupperFit⟩, rfl⟩

/-- A key that is accepted is the key of the range that is read from it. -/
theorem toKey_of_ofKey {key : RangeKey} (h : key.InLayout) (hread : ofKey key = .ok r) :
    r.toKey = key := by
  obtain ⟨hunused, hused, -, rfl⟩ := ofKey_eq_ok_iff.1 hread
  obtain ⟨hlowerZero, hupperZero⟩ := List.forall_mem_append.1 hunused
  obtain ⟨hlowerMax, hupperMax⟩ := List.forall_mem_append.1 hused
  obtain ⟨hlowerLen, hlowerFit⟩ := segments_of_slots h.length_lower hlowerMax
  obtain ⟨hupperLen, hupperFit⟩ := segments_of_slots h.length_upper hupperMax
  have hle := key.version.segmentCount_le
  rw [toKey, Version.split_join hlowerLen hlowerFit, Version.split_join hupperLen hupperFit,
    padKey_take h.length_lower hle hlowerZero, padKey_take h.length_upper hle hupperZero]

end AddressRange

/-! ## Both kinds of key -/

/-- **Keys are faithful in both directions.** A section and a range fit into the layout of keys and
are read back from their keys. Of the keys in this layout exactly the sound ones are accepted, and
each of them is the key of what is read from it. -/
theorem ofKey_toKey_exact (s : Section) (r : AddressRange) (key : AddressKey) (ends : RangeKey)
    (hs : s.WellFormed) (hr : r.WellFormed) (hkey : key.InLayout) (hends : ends.InLayout) :
    (s.toKey.InLayout ∧ Section.ofKey s.toKey = .ok s) ∧
      (r.toKey.InLayout ∧ AddressRange.ofKey r.toKey = .ok r) ∧
      (((∃ t, Section.ofKey key = .ok t) ↔ key.IsSound) ∧
        ∀ t, Section.ofKey key = .ok t → t.toKey = key) ∧
      (((∃ t, AddressRange.ofKey ends = .ok t) ↔ ends.IsSound) ∧
        ∀ t, AddressRange.ofKey ends = .ok t → t.toKey = ends) := by
  refine ⟨?_, ?_, ?_, ?_⟩
  · exact ⟨Section.inLayout_toKey hs, Section.ofKey_toKey hs⟩
  · exact ⟨r.inLayout_toKey, AddressRange.ofKey_toKey hr⟩
  · exact ⟨Section.exists_ofKey_iff hkey, fun t => Section.toKey_of_ofKey hkey⟩
  · exact ⟨AddressRange.exists_ofKey_iff hends, fun t => AddressRange.toKey_of_ofKey hends⟩

/-- A ragged section and the range up to the highest IPv6 address have keys; a key whose ends are
out of order in a later segment only is sound, and one with a number in an unused slot is not. -/
theorem ofKey_toKey_exact_ragged :
    let s : Section := ⟨.v4, [⟨10, 10⟩, ⟨1, 2⟩, ⟨0, 255⟩, ⟨7, 9⟩], some 14⟩
    let r : AddressRange := ⟨.v6, 2 ^ 127 + 5, 2 ^ 128 - 1⟩
    let key : AddressKey :=
      ⟨.v4, [(10, 10), (1, 2), (0, 0), (9, 9), (0, 0), (0, 0), (0, 1), (0, 0)], none⟩
    let ends : RangeKey := ⟨.v4, [1, 200, 0, 0, 0, 0, 0, 0], [2, 100, 0, 0, 0, 0, 0, 0]⟩
    (s.WellFormed ∧ r.WellFormed ∧ key.InLayout ∧ ends.InLayout) ∧
      Section.ofKey s.toKey = .ok s ∧ AddressRange.ofKey r.toKey = .ok r ∧
      (¬ ∃ t, Section.ofKey key = .ok t) ∧
      ∃ t, AddressRange.ofKey ends = .ok t ∧ t.toKey = ends := by
  intro s r key ends
  have hs : s.WellFormed := ⟨by decide, by decide, by decide, by decide⟩
  have hr : r.WellFormed := by decide
  have hkey : key.InLayout := ⟨by decide, by decide, by decide⟩
  have hends : ends.InLayout := ⟨by decide, by decide, by decide, by decide⟩
  have hunsound : ¬ key.IsSound := fun h => absurd h.unused (by decide)
  have hsound : ends.IsSound := ⟨by decide, by decide, by decide⟩
  obtain ⟨hsection, hrange, hpairs, hnumbers⟩ := ofKey_toKey_exact s r key ends hs hr hkey hends
  obtain ⟨t, ht⟩ := hnumbers.1.2 hsound
  exact ⟨⟨hs, hr, hkey, hends⟩, hsection.2, hrange.2, fun h => hunsound (hpairs.1.1 h), t, ht,
    hnumbers.2 t ht⟩

end IpSpace
