import IpSpace.AddressRange.Coalesce
import IpSpace.Enumeration.Walk

/-!
# Splitting ranges into blocks

A prefix block is an aligned run of `2 ^ h` addresses: one network of the prefix length that leaves
`h` host bits. Every range is a union of prefix blocks, and taking the largest block that fits at
either end in turn gives the fewest (`blockSpans`).

A sequential section fixes some segments in front, gives the next one a range, and all values to the
rest. Splitting at the first segment in which the two ends of a range differ gives the fewest of
those (`runSpans`): a part that completes the lower end, whole values of that segment in the middle,
and a part that leads up to the upper end.
-/

namespace IpSpace

/-! ## Prefix blocks -/

/-- A block of `2 ^ hostBits` addresses from `start` on. -/
structure BlockSpan where
  start : Nat
  hostBits : Nat
  deriving DecidableEq, Repr

namespace BlockSpan

/-- The last address of the block. -/
def stop (b : BlockSpan) : Nat :=
  b.start + (2 ^ b.hostBits - 1)

/-- The largest block from `lower` on that ends no later than `upper`, in words of `width` bits. -/
def first (width lower upper : Nat) : BlockSpan :=
  ⟨lower, min (upper - lower + 1).log2 (Bits.trailingZeros width lower)⟩

/-- The largest block up to `upper` that starts at `lower` or later, in words of `width` bits. -/
def last (width lower upper : Nat) : BlockSpan :=
  let h := min (upper - lower + 1).log2 (Bits.trailingOnes width upper)
  ⟨upper - (2 ^ h - 1), h⟩

end BlockSpan

/-- The fewest blocks whose union is everything from `lower` to `upper`, in ascending order. A block
is taken from the front, then one from the back, and so on with what is left between them. -/
def blockSpans (width lower upper : Nat) : List BlockSpan :=
  let front := BlockSpan.first width lower upper
  if _more : front.stop < upper then
    let back := BlockSpan.last width (front.stop + 1) upper
    if front.stop + 1 < back.start then
      front :: (blockSpans width (front.stop + 1) (back.start - 1) ++ [back])
    else [front, back]
  else [front]
termination_by upper - lower
decreasing_by
  have hfront : lower ≤ (BlockSpan.first width lower upper).stop := Nat.le_add_right _ _
  have hmore : (BlockSpan.first width lower upper).stop < upper := _more
  have hback : (BlockSpan.last width ((BlockSpan.first width lower upper).stop + 1) upper).start
      ≤ upper := Nat.sub_le _ _
  omega

/-- The block as a section. -/
def BlockSpan.toSection (version : Version) (b : BlockSpan) : Section :=
  (Section.ofDigits version (version.split b.start) none).blockAt (version.bitCount - b.hostBits)

/-- The smallest prefix block that holds both values: the first bit in which they differ is its
highest host bit. -/
def coverSpan (lower upper : Nat) : BlockSpan :=
  let h := if lower = upper then 0 else (lower ^^^ upper).log2 + 1
  ⟨Bits.blockStart h lower, h⟩

/-! ## Sequential sections -/

/-- All values for each of `digits`. -/
def fullTail (max : Nat) (digits : List Nat) : List Bounds :=
  digits.map fun _ => ⟨0, max⟩

/-- The fewest sequential products that make up all tuples from `digits` on. -/
def runsFrom (max : Nat) : List Nat → List (List Bounds)
  | [] => [[]]
  | d :: ds =>
    if ds.all (· == 0) then [⟨d, max⟩ :: fullTail max ds]
    else
      (runsFrom max ds).map (Bounds.single d :: ·)
        ++ (if d < max then [⟨d + 1, max⟩ :: fullTail max ds] else [])

/-- The fewest sequential products that make up all tuples up to `digits`. -/
def runsUpTo (max : Nat) : List Nat → List (List Bounds)
  | [] => [[]]
  | d :: ds =>
    if ds.all (· == max) then [⟨0, d⟩ :: fullTail max ds]
    else
      (if 0 < d then [⟨0, d - 1⟩ :: fullTail max ds] else [])
        ++ (runsUpTo max ds).map (Bounds.single d :: ·)

/-- The fewest sequential products that make up all tuples from the first to the second one. Where
the tuples differ first, a lower end that is not followed by zeros and an upper end that is not
followed by largest values are completed by themselves. -/
def runSpans (max : Nat) : List Nat → List Nat → List (List Bounds)
  | d :: ds, e :: es =>
    if d = e then (runSpans max ds es).map (Bounds.single d :: ·)
    else
      let wholeLower := ds.all (· == 0)
      let wholeUpper := es.all (· == max)
      let lower := if wholeLower then d else d + 1
      let upper := if wholeUpper then e else e - 1
      (if wholeLower then [] else (runsFrom max ds).map (Bounds.single d :: ·))
        ++ (if lower ≤ upper then [⟨lower, upper⟩ :: fullTail max ds] else [])
        ++ (if wholeUpper then [] else (runsUpTo max es).map (Bounds.single e :: ·))
  | _, _ => [[]]

/-! ## Ranges -/

namespace AddressRange

/-- The fewest prefix blocks that make up the range, in ascending order. -/
def toBlocks (r : AddressRange) : List Section :=
  (blockSpans r.version.bitCount r.lower r.upper).map (BlockSpan.toSection r.version)

/-- The fewest sequential sections that make up the range, in ascending order. -/
def toRuns (r : AddressRange) : List Section :=
  (runSpans r.version.segmentMax (r.version.split r.lower) (r.version.split r.upper)).map
    fun bounds => ⟨r.version, bounds, none⟩

/-- The smallest prefix block that holds the range. -/
def cover (r : AddressRange) : Section :=
  (coverSpan r.lower r.upper).toSection r.version

end AddressRange

/-! ## Sections -/

namespace Section

/-- The addresses of the section as ranges. -/
def ranges (s : Section) : List AddressRange :=
  if s.isSequential then [AddressRange.ofSection s] else s.runRanges

/-- The fewest prefix blocks that make up the section, in ascending order. -/
def toBlocks (s : Section) : List Section :=
  if s.isSingleBlock then [s]
  else (AddressRange.coalesce s.ranges).flatMap AddressRange.toBlocks

/-- The fewest sequential sections that make up the section, in ascending order. -/
def toRuns (s : Section) : List Section :=
  if s.isSequential then [s.withPrefixLen none]
  else (AddressRange.coalesce s.ranges).flatMap AddressRange.toRuns

/-- The smallest prefix block that holds the section. -/
def cover (s : Section) : Section :=
  (AddressRange.ofSection s).cover

end Section

/-! ## Addresses -/

namespace Address

/-- The fewest prefix blocks that make up the address, in ascending order and with its zone. -/
def toBlocks (a : Address) : List Address :=
  a.body.toBlocks.map a.wrap

/-- The fewest sequential sections that make up the address, in ascending order and with its
zone. -/
def toRuns (a : Address) : List Address :=
  a.body.toRuns.map a.wrap

/-- The smallest prefix block that holds the address, with its zone. -/
def cover (a : Address) : Address :=
  a.map Section.cover

/-- The fewest prefix blocks that make up the smallest range that holds both addresses, in ascending
order and without a zone. -/
def toBlocksTo (a other : Address) : Except AddressError (List Address) :=
  (AddressRange.ofAddresses a other).map fun r => r.toBlocks.map ofSection

/-- The smallest prefix block that holds both addresses, without a zone. -/
def coverTo (a other : Address) : Except AddressError Address :=
  (AddressRange.ofAddresses a other).map fun r => ofSection r.cover

/-! ### Lists of addresses -/

/-- The addresses of a list as coalesced ranges. The list must not mix versions. -/
def mergedRanges (addresses : List Address) : Except AddressError (List AddressRange) :=
  match addresses with
  | [] => .ok []
  | first :: _ => do
    if let some odd := addresses.find? (·.version ≠ first.version) then
      throw (.sizeMismatch first.version.segmentCount odd.version.segmentCount)
    return AddressRange.coalesce (addresses.flatMap (·.body.ranges))

/-- The union of the addresses as the fewest prefix blocks, in ascending order. -/
def mergeToBlocks (addresses : List Address) : Except AddressError (List Address) := do
  return ((← mergedRanges addresses).flatMap AddressRange.toBlocks).map ofSection

/-- The union of the addresses as the fewest sequential sections, in ascending order. -/
def mergeToRuns (addresses : List Address) : Except AddressError (List Address) := do
  return ((← mergedRanges addresses).flatMap AddressRange.toRuns).map ofSection

end Address

end IpSpace
