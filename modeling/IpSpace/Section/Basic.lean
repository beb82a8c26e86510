import IpSpace.Segment.Masked

/-!
# Sections

A section is a set of addresses of one version given segment by segment: an address belongs to it
when every segment of the address lies within the bounds for that segment. It may carry a prefix
length, which divides its bits into network and host but does not change which addresses it holds.

Questions about a prefix length are asked per segment with the number of host bits there
(`Version.hostBits`); a prefix length past the width of the address leaves no host bits and is thus
read as the full width.
-/

namespace IpSpace

/-- A set of addresses with a range of values per segment, and an optional prefix length. -/
structure Section where
  version : Version
  bounds : List Bounds
  prefixLen : Option Nat
  deriving DecidableEq, Repr

namespace Section

/-- What it takes to be a set of addresses of its version: one range per segment, none of them empty
or past the width of a segment, and a prefix length within the address. -/
structure WellFormed (s : Section) : Prop where
  length_bounds : s.bounds.length = s.version.segmentCount
  lower_le_upper : ∀ b ∈ s.bounds, b.lower ≤ b.upper
  upper_le_max : ∀ b ∈ s.bounds, b.upper ≤ s.version.segmentMax
  prefixLen_le : ∀ p ∈ s.prefixLen, p ≤ s.version.bitCount

/-- The section with exactly one value per segment. -/
def ofDigits (version : Version) (digits : List Nat) (prefixLen : Option Nat) : Section :=
  ⟨version, digits.map Bounds.single, prefixLen⟩

/-! ## Shape -/

/-- Number of segments. -/
def segmentCount (s : Section) : Nat :=
  s.bounds.length

/-- Width in bits. -/
def bitCount (s : Section) : Nat :=
  s.version.bitCount

/-- The part of a prefix length that falls into segment `index`: nothing in front of the boundary,
the remainder in the segment that holds it, zero behind it. -/
def segmentPrefixLen (s : Section) (index : Nat) : Option Nat :=
  s.prefixLen.bind fun p =>
    let host := s.version.hostBits p index
    if host = 0 then none else some (s.version.segmentBits - host)

/-- The segments with their widths and prefix lengths. -/
def segments (s : Section) : List Segment :=
  s.bounds.mapIdx fun index b => ⟨s.version.segmentBits, b, s.segmentPrefixLen index⟩

/-- Every range together with the number of host bits that a prefix length leaves in its segment. -/
def hosts (s : Section) (prefixLen : Nat) : List (Bounds × Nat) :=
  s.bounds.mapIdx fun index b => (b, s.version.hostBits prefixLen index)

/-- Whether there is a prefix length. -/
def isPrefixed (s : Section) : Bool :=
  s.prefixLen.isSome

/-- The same addresses with another prefix length. -/
def withPrefixLen (s : Section) (prefixLen : Option Nat) : Section :=
  { s with prefixLen }

/-! ## Values -/

/-- Whether there is more than one address. -/
def isMultiple (s : Section) : Bool :=
  s.bounds.any Bounds.isMultiple

/-- Whether the addresses follow each other without a gap: behind the first segment with several
values, every segment takes all values. -/
def isSequential (s : Section) : Bool :=
  ((s.bounds.dropWhile fun b => !b.isMultiple).drop 1).all (·.isFull s.version.segmentBits)

/-- The lowest address. -/
def lower (s : Section) : Section :=
  ofDigits s.version (s.bounds.map (·.lower)) s.prefixLen

/-- The highest address. -/
def upper (s : Section) : Section :=
  ofDigits s.version (s.bounds.map (·.upper)) s.prefixLen

/-- The lowest address as a number. -/
def lowerValue (s : Section) : Nat :=
  s.version.join (s.bounds.map (·.lower))

/-- The highest address as a number. -/
def upperValue (s : Section) : Nat :=
  s.version.join (s.bounds.map (·.upper))

/-- Number of addresses. -/
def count (s : Section) : Nat :=
  (s.bounds.map Bounds.count).foldr (· * ·) 1

/-- Number of distinct networks of the given prefix length among the addresses. -/
def prefixCount (s : Section) (prefixLen : Nat) : Nat :=
  ((s.hosts prefixLen).map fun (b, h) => (b.networks h).count).foldr (· * ·) 1

/-! ## Comparison -/

/-- Whether every address of `other` is one of the addresses. -/
def contains (s other : Section) : Bool :=
  s.version == other.version && (s.bounds.zip other.bounds).all fun (a, b) => a.contains b

/-- Whether the two sections share an address. -/
def overlaps (s other : Section) : Bool :=
  s.version == other.version && (s.bounds.zip other.bounds).all fun (a, b) => a.overlaps b

/-- Sections are ordered by version, lowest address, highest address and prefix length, an absent
prefix length first. -/
instance : Ord Section where
  compare a b :=
    (compare a.version b.version).then <| (compare a.lowerValue b.lowerValue).then <|
      (compare a.upperValue b.upperValue).then (compare a.prefixLen b.prefixLen)

/-! ## Network and host -/

/-- Whether every segment passes `test` with its number of host bits. -/
def allHosts (s : Section) (prefixLen : Nat) (test : Bounds → Nat → Bool) : Bool :=
  (s.hosts prefixLen).all fun (b, h) => test b h

/-- Whether all addresses agree in their first `prefixLen` bits. -/
def isSingleNetworkAt (s : Section) (prefixLen : Nat) : Bool :=
  s.allHosts prefixLen Bounds.isSingleNetwork

/-- Whether every segment begins and ends with a host of zeros. -/
def isZeroHostAt (s : Section) (prefixLen : Nat) : Bool :=
  s.allHosts prefixLen Bounds.isZeroHost

/-- Whether every segment begins and ends with a host of ones. -/
def isMaxHostAt (s : Section) (prefixLen : Nat) : Bool :=
  s.allHosts prefixLen Bounds.isMaxHost

/-- Whether some address has a host of zeros. -/
def includesZeroHostAt (s : Section) (prefixLen : Nat) : Bool :=
  s.allHosts prefixLen Bounds.includesZeroHost

/-- Whether some address has a host of ones. -/
def includesMaxHostAt (s : Section) (prefixLen : Nat) : Bool :=
  s.allHosts prefixLen Bounds.includesMaxHost

/-- Whether the addresses are made of whole networks of the given prefix length. -/
def isBlockAt (s : Section) (prefixLen : Nat) : Bool :=
  s.allHosts prefixLen Bounds.isBlock

/-- Whether the addresses are exactly one network of the given prefix length. -/
def isSingleBlockAt (s : Section) (prefixLen : Nat) : Bool :=
  s.isSingleNetworkAt prefixLen && s.isBlockAt prefixLen

/-- Whether `test` holds at the section's own prefix length. Without one it does not. -/
def atOwnPrefix (s : Section) (test : Nat → Bool) : Bool :=
  s.prefixLen.any test

/-- Whether all addresses share a network, or without a prefix length, whether there is just one. -/
def isSingleNetwork (s : Section) : Bool :=
  match s.prefixLen with
  | some p => s.isSingleNetworkAt p
  | none => !s.isMultiple

/-- Whether the section is exactly one network of its own prefix length. -/
def isSingleBlock (s : Section) : Bool :=
  s.atOwnPrefix s.isSingleBlockAt

/-! ## Masks -/

/-- Which end of an address a mask covers. -/
inductive Mask where
  | network
  | host
  deriving DecidableEq, Repr

namespace Mask

/-- The part of a mask that falls into a segment of `width` bits, `h` of them host bits. -/
def segment (mask : Mask) (width h : Nat) : Nat :=
  match mask with
  | network => 2 ^ width - 1 - (2 ^ h - 1)
  | host => 2 ^ h - 1

/-- The number of host bits of a segment of a mask: the zeros at its low end, or the ones. -/
def hostBits (mask : Mask) (width value : Nat) : Nat :=
  match mask with
  | network => Bits.trailingZeros width value
  | host => Bits.trailingOnes width value

/-- The prefix length of the mask with the given segments, most significant first. Segments without
host bits come first, then one that holds the boundary; every segment behind it has only host
bits. -/
def prefixLen? (mask : Mask) (width : Nat) : List Nat → Option Nat
  | [] => some 0
  | value :: rest =>
    if value = mask.segment width 0 then (mask.prefixLen? width rest).map (width + ·)
    else
      let h := mask.hostBits width value
      if value = mask.segment width h ∧ rest.all (· == mask.segment width width) then
        some (width - h)
      else none

end Mask

/-- The prefix length whose network mask, or host mask, is the one address of the section. -/
def maskPrefixLen? (s : Section) (mask : Mask) : Option Nat :=
  if s.isMultiple then none
  else mask.prefixLen? s.version.segmentBits (s.bounds.map (·.lower))

/-! ## Blocks -/

/-- The host bits that are free at the low end, given the ranges from the last segment to the first:
whole segments count in full, and the first that is not whole ends the count. -/
def freeBits (width : Nat) : List Bounds → Nat
  | [] => 0
  | b :: rest =>
    let free := b.blockBits width
    if free = width then width + freeBits width rest else free

/-- The smallest prefix length at which the addresses are made of whole networks. -/
def minBlockPrefixLen (s : Section) : Nat :=
  s.bitCount - freeBits s.version.segmentBits s.bounds.reverse

/-- The prefix length at which the addresses are exactly one network. -/
def singleBlockPrefixLen? (s : Section) : Option Nat :=
  let p := s.minBlockPrefixLen
  if s.isSingleNetworkAt p then some p else none

end Section

end IpSpace
