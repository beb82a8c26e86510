import IpSpace.Version

/-!
# Bounds and segments

`Bounds` is a closed range of values of one segment; it is what a section stores per segment. The
questions that a prefix length raises about it are asked with the number `h` of host bits: the low
`h` bits of a value are its host, the rest its network.

A `Segment` is a range together with its width and its own prefix length, as it is handed out of a
section or built by itself.
-/

namespace IpSpace

/-- The values from `lower` to `upper`, both included. -/
structure Bounds where
  lower : Nat
  upper : Nat
  deriving DecidableEq, Repr, Inhabited

namespace Bounds

/-! ## Values -/

/-- The one value `value`. -/
def single (value : Nat) : Bounds :=
  ⟨value, value⟩

/-- Every value of `width` bits. -/
def full (width : Nat) : Bounds :=
  ⟨0, 2 ^ width - 1⟩

/-- Whether there is more than one value. -/
def isMultiple (b : Bounds) : Bool :=
  b.lower != b.upper

/-- Whether every value of `width` bits is there. -/
def isFull (b : Bounds) (width : Nat) : Bool :=
  b == full width

/-- Number of values. -/
def count (b : Bounds) : Nat :=
  b.upper - b.lower + 1

/-- Whether `value` is one of the values. -/
def containsValue (b : Bounds) (value : Nat) : Bool :=
  b.lower ≤ value && value ≤ b.upper

/-- Whether every value of `other` is one of the values. -/
def contains (b other : Bounds) : Bool :=
  b.lower ≤ other.lower && other.upper ≤ b.upper

/-- Whether the two ranges share a value. -/
def overlaps (b other : Bounds) : Bool :=
  other.lower ≤ b.upper && b.lower ≤ other.upper

/-- The common values of two ranges that overlap. -/
def inter (b other : Bounds) : Bounds :=
  ⟨max b.lower other.lower, min b.upper other.upper⟩

/-! ## Network and host -/

/-- The networks of the values, as a range of numbers. -/
def networks (b : Bounds) (h : Nat) : Bounds :=
  ⟨b.lower / 2 ^ h, b.upper / 2 ^ h⟩

/-- All values of the network `network`. -/
def ofNetwork (network h : Nat) : Bounds :=
  ⟨network * 2 ^ h, network * 2 ^ h + (2 ^ h - 1)⟩

/-- The range widened to whole networks at both ends. -/
def block (b : Bounds) (h : Nat) : Bounds :=
  ⟨Bits.blockStart h b.lower, Bits.blockEnd h b.upper⟩

/-- Whether all values have the same network. -/
def isSingleNetwork (b : Bounds) (h : Nat) : Bool :=
  b.lower / 2 ^ h == b.upper / 2 ^ h

/-- Whether the range begins and ends with a whole network. -/
def isBlock (b : Bounds) (h : Nat) : Bool :=
  b.lower % 2 ^ h == 0 && b.upper % 2 ^ h == 2 ^ h - 1

/-- Whether the range is exactly one network. -/
def isSingleBlock (b : Bounds) (h : Nat) : Bool :=
  b.isBlock h && b.isSingleNetwork h

/-- Whether both ends have a host of zeros. -/
def isZeroHost (b : Bounds) (h : Nat) : Bool :=
  b.lower % 2 ^ h == 0 && b.upper % 2 ^ h == 0

/-- Whether both ends have a host of ones. -/
def isMaxHost (b : Bounds) (h : Nat) : Bool :=
  b.lower % 2 ^ h == 2 ^ h - 1 && b.upper % 2 ^ h == 2 ^ h - 1

/-- Whether some value has a host of zeros: the lower end, or the start of the next network. -/
def includesZeroHost (b : Bounds) (h : Nat) : Bool :=
  b.lower % 2 ^ h == 0 || Bits.blockEnd h b.lower + 1 ≤ b.upper

/-- Whether some value has a host of ones: the first such value is the end of the lower network. -/
def includesMaxHost (b : Bounds) (h : Nat) : Bool :=
  Bits.blockEnd h b.lower ≤ b.upper

/-- The largest number of host bits, up to `width`, at which the range is made of whole networks. -/
def blockBits (b : Bounds) (width : Nat) : Nat :=
  min (Bits.trailingZeros width b.lower) (Bits.trailingOnes width b.upper)

/-! ## Images -/

/-- The image of a range under a permutation `f` of the values of `width` bits, if `f` keeps it a
range whatever its ends: true of one value, and of all values. -/
def permute? (b : Bounds) (width : Nat) (f : Nat → Nat) : Option Bounds :=
  if b.isMultiple && !b.isFull width then none
  else some ⟨min (f b.lower) (f b.upper), max (f b.lower) (f b.upper)⟩

end Bounds

/-- A range of values of one segment, with the width of the segment and the part of a prefix length
that falls into it. -/
structure Segment where
  width : Nat
  bounds : Bounds
  prefixLen : Option Nat
  deriving DecidableEq, Repr

namespace Segment

/-- Whether segments of this width exist. -/
def isWidth (width : Nat) : Bool :=
  width == Version.v4.segmentBits || width == Version.v6.segmentBits

/-- Largest value of the segment's width. -/
def maxValue (s : Segment) : Nat :=
  2 ^ s.width - 1

/-- The smallest prefix length at which the segment is made of whole networks. -/
def minBlockPrefixLen (s : Segment) : Nat :=
  s.width - s.bounds.blockBits s.width

/-- Asks `question` with the number of host bits that `prefixLen` leaves in the segment. A prefix
longer than the segment has no answer. -/
def atPrefix? {α : Type} (s : Segment) (prefixLen : Nat) (question : Nat → α) : Option α :=
  if prefixLen ≤ s.width then some (question (s.width - prefixLen)) else none

/-- The network mask and the host mask of a segment of the given width, which exist only for the
widths of the two versions and a prefix no longer than the segment. -/
def masks? (width prefixLen : Nat) : Option (Nat × Nat) :=
  if isWidth width && prefixLen ≤ width then
    let host := 2 ^ (width - prefixLen) - 1
    some (2 ^ width - 1 - host, host)
  else none

end Segment

end IpSpace
