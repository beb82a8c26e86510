import IpSpace.AddressRange.Basic

/-!
# Keys

A key is the flat form of a section or a range: the version and eight numbers, or pairs of numbers,
whatever the version, so that keys of both versions can be stored and compared alike. Segments that
IPv4 does not have are zero.
-/

namespace IpSpace

/-- The flat form of a section: the lower and upper value of every segment. -/
structure AddressKey where
  version : Version
  segments : List (Nat × Nat)
  prefixLen : Option Nat
  deriving DecidableEq, Repr

/-- The flat form of a range: the segment values of both ends. -/
structure RangeKey where
  version : Version
  lower : List Nat
  upper : List Nat
  deriving DecidableEq, Repr

/-- Number of segments in a key of either version. -/
def keySegmentCount : Nat :=
  Version.v6.segmentCount

/-- A list filled up to the length of a key. -/
def padKey {α : Type} (zero : α) (items : List α) : List α :=
  items ++ List.replicate (keySegmentCount - items.length) zero

/-- Nothing, or the error of a key with values where its version has no segments. -/
def checkPadding (version : Version) (segments : List Nat) : Except AddressError Unit :=
  if (segments.drop version.segmentCount).all (· == 0) then .ok ()
  else .error (.keyPadding version)

/-! ## Order -/

/-- Keys of sections are ordered field by field: version, segments, prefix length. -/
instance : Ord AddressKey where
  compare a b :=
    let flat (key : AddressKey) := key.segments.flatMap fun (lower, upper) => [lower, upper]
    (compare a.version b.version).then <| (compare (flat a) (flat b)).then
      (compare a.prefixLen b.prefixLen)

/-- Keys of ranges are ordered field by field: version, lower end, upper end. -/
instance : Ord RangeKey where
  compare a b :=
    (compare a.version b.version).then <| (compare a.lower b.lower).then (compare a.upper b.upper)

/-! ## Sections -/

namespace Section

/-- The key of a section. -/
def toKey (s : Section) : AddressKey :=
  ⟨s.version, padKey (0, 0) (s.bounds.map fun b => (b.lower, b.upper)), s.prefixLen⟩

/-- The section with the given key. -/
def ofKey (key : AddressKey) : Except AddressError Section := do
  checkPadding key.version (key.segments.map fun (lower, upper) => max lower upper)
  let used := key.segments.take key.version.segmentCount
  ofBounds key.version (used.map fun (lower, upper) => ⟨lower, upper⟩) key.prefixLen

end Section

/-! ## Ranges -/

namespace AddressRange

/-- The key of a range. -/
def toKey (r : AddressRange) : RangeKey :=
  ⟨r.version, padKey 0 (r.version.split r.lower), padKey 0 (r.version.split r.upper)⟩

/-- The address value of one end of a key. -/
def ofKeyEnd (version : Version) (segments : List Nat) : Except AddressError Nat :=
  let used := segments.take version.segmentCount
  match used.find? (version.segmentMax < ·) with
  | some value => .error (.keySegment version value)
  | none => .ok (version.join used)

/-- The range with the given key. -/
def ofKey (key : RangeKey) : Except AddressError AddressRange := do
  checkPadding key.version key.lower
  checkPadding key.version key.upper
  let lower ← ofKeyEnd key.version key.lower
  let upper ← ofKeyEnd key.version key.upper
  ofValues key.version lower upper

end AddressRange

end IpSpace
