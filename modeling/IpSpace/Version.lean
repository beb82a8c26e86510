import IpSpace.Bits

/-!
# IP versions and their address layout

A version fixes how an address is laid out: four segments of eight bits, or eight segments of
sixteen bits. A prefix length divides the bits of an address into a network part in front and a host
part behind; `Version.hostBits` says how many host bits fall into one segment, and every operation
on segments is written in terms of that number.
-/

namespace IpSpace

/-- The version of an address. -/
inductive Version where
  | v4
  | v6
  deriving DecidableEq, Repr, Inhabited

namespace Version

/-! ## Layout -/

/-- Number of segments in an address. -/
def segmentCount : Version → Nat
  | v4 => 4
  | v6 => 8

/-- Width of one segment in bits. -/
def segmentBits : Version → Nat
  | v4 => 8
  | v6 => 16

/-- Width of an address in bits. -/
def bitCount (version : Version) : Nat :=
  version.segmentCount * version.segmentBits

/-- Number of bytes in an address. -/
def byteCount (version : Version) : Nat :=
  version.bitCount / 8

/-- Largest value of a segment. -/
def segmentMax (version : Version) : Nat :=
  2 ^ version.segmentBits - 1

/-- Largest value of an address. -/
def maxValue (version : Version) : Nat :=
  2 ^ version.bitCount - 1

/-- The version whose addresses have `count` bytes. -/
def ofByteCount? (count : Nat) : Option Version :=
  if count = v4.byteCount then some v4 else if count = v6.byteCount then some v6 else none

/-- The name of the protocol, as messages write it. -/
def name : Version → String
  | v4 => "IPv4"
  | v6 => "IPv6"

/-- The short tag that keys and records carry. -/
def tag : Version → String
  | v4 => "V4"
  | v6 => "V6"

/-- IPv4 comes before IPv6. -/
instance : Ord Version where
  compare a b := compare a.bitCount b.bitCount

/-! ## Masks -/

/-- The value whose bits after the first `prefixLen` are one and all others zero. A prefix length
past the width leaves no host bits. -/
def hostMask (version : Version) (prefixLen : Nat) : Nat :=
  2 ^ (version.bitCount - prefixLen) - 1

/-- The value whose first `prefixLen` bits are one and all others zero. -/
def networkMask (version : Version) (prefixLen : Nat) : Nat :=
  version.maxValue - version.hostMask prefixLen

/-- How many bits of segment `index` lie in the host part of an address with the given prefix
length: none in front of the boundary, all of them behind it. -/
def hostBits (version : Version) (prefixLen index : Nat) : Nat :=
  version.segmentBits - (prefixLen - index * version.segmentBits)

/-! ## Values and their segments -/

/-- The segment values of an address value, most significant first. -/
def split (version : Version) (value : Nat) : List Nat :=
  Digits.split version.segmentBits version.segmentCount value

/-- The address value with the given segment values. -/
def join (version : Version) (digits : List Nat) : Nat :=
  Digits.join version.segmentBits digits

end Version

end IpSpace
