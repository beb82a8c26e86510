import IpSpace.Enumeration.Counter
import IpSpace.AddressRange.Basic

/-!
# Walks over sections and ranges

A walk hands out the parts of a section or of a range one after another without building them all.
It is a counter together with the part that each tuple stands for.

All walks share one layout. A prefix length leaves some host bits in every segment; the segments
that are not all host have a wheel, which runs over the networks of their values. A tuple of
networks becomes a section by giving each network its host values, and the segments without a wheel
whatever the walk puts there: all values, or those of the section it walks over. With the full width
as prefix length, the networks are the values themselves.

A section is counted as a product. A range is counted through an interval, since the upper end of a
segment may be below its lower end.
-/

namespace IpSpace

/-- A counter, and what its tuples stand for. -/
structure Walk (α : Type) where
  counter : Counter
  emit : Tuple → α

namespace Walk

/-- Whether another item follows, and the walk that knows it. -/
def hasNext {α : Type} (w : Walk α) : Bool × Walk α :=
  let (found, counter) := w.counter.hasNext
  (found, { w with counter })

/-- The next items, at most `n`, and the walk after them. -/
def take {α : Type} (w : Walk α) (n : Nat) : List α × Walk α :=
  let (tuples, counter) := w.counter.take n
  (tuples.map w.emit, { w with counter })

/-- The walk with every item changed by `f`. -/
def map {α β : Type} (f : α → β) (w : Walk α) : Walk β :=
  ⟨w.counter, fun t => f (w.emit t)⟩

end Walk

/-! ## Layout -/

/-- Number of wheels for a prefix length: the segments that are not all host. -/
def Version.wheelCount (version : Version) (prefixLen : Nat) : Nat :=
  min version.segmentCount ((prefixLen + version.segmentBits - 1) / version.segmentBits)

/-- The wheels for a prefix length over the given ends of every segment: each runs over networks. -/
def wheelsAt (version : Version) (prefixLen : Nat) (ends : List Bounds) : List Wheel :=
  (ends.mapIdx fun index b =>
    let h := version.hostBits prefixLen index
    let networks := b.networks h
    Wheel.mk networks.lower networks.upper (version.segmentMax / 2 ^ h)).take
      (version.wheelCount prefixLen)

/-- The values of every network of a tuple. -/
def networkBounds (version : Version) (prefixLen : Nat) (t : Tuple) : List Bounds :=
  t.mapIdx fun index network => Bounds.ofNetwork network (version.hostBits prefixLen index)

/-- The block of the given prefix length whose networks are the tuple. -/
def blockOf (version : Version) (prefixLen : Nat) (t : Tuple) : Section :=
  let rest := List.replicate (version.segmentCount - t.length) (Bounds.full version.segmentBits)
  ⟨version, networkBounds version prefixLen t ++ rest, some prefixLen⟩

/-! ## Sections -/

namespace Section

/-- Every address, in ascending order. -/
def addresses (s : Section) : Walk Section where
  counter := { wheels := wheelsAt s.version s.bitCount s.bounds, counting := .product }
  emit t := ofDigits s.version t s.prefixLen

/-- The sections got by fixing the first `count` segments, in ascending order. -/
def fixing (s : Section) (count : Nat) : Walk Section where
  counter :=
    { wheels := (wheelsAt s.version s.bitCount s.bounds).take count, counting := .product }
  emit t := ⟨s.version, t.map Bounds.single ++ s.bounds.drop t.length, s.prefixLen⟩

/-- The blocks of the given prefix length that hold an address of the section. -/
def prefixBlocks (s : Section) (prefixLen : Nat) : Walk Section :=
  let prefixLen := min prefixLen s.bitCount
  { counter := { wheels := wheelsAt s.version prefixLen s.bounds, counting := .product }
    emit := blockOf s.version prefixLen }

/-- The addresses of the section, grouped by their first `prefixLen` bits. -/
def prefixGroups (s : Section) (prefixLen : Nat) : Walk Section :=
  let prefixLen := min prefixLen s.bitCount
  (s.prefixBlocks prefixLen).map fun block =>
    { block with bounds := block.bounds.zipWith Bounds.inter s.bounds }

/-- Number of segments in front of the last one that does not take all values. -/
def runSegmentCount (s : Section) : Nat :=
  (s.bounds.reverse.dropWhile (·.isFull s.version.segmentBits)).length - 1

/-- The longest runs of consecutive addresses, in ascending order: behind the last segment that does
not take all values, every segment does, so that segment may vary and all before it are fixed. -/
def runs (s : Section) : Walk Section :=
  s.fixing s.runSegmentCount

/-- Number of runs. -/
def runCount (s : Section) : Nat :=
  ((s.bounds.take s.runSegmentCount).map Bounds.count).foldr (· * ·) 1

/-- The addresses whose host is not zero. Without host bits, no address is left out. -/
def nonZeroHosts (s : Section) : Walk Section :=
  match s.prefixLen with
  | none => s.addresses
  | some p =>
    if s.bitCount ≤ p then s.addresses
    else
      let zeroHost (t : Tuple) :=
        (t.mapIdx fun index d => d % 2 ^ s.version.hostBits p index == 0).all id
      let all := s.addresses
      { all with counter := { all.counter with rejects := zeroHost } }

/-- All runs as ranges, in ascending order. -/
def runRanges (s : Section) : List AddressRange :=
  let w := s.runs
  (w.counter.counting.tuples w.counter.wheels).map fun t => AddressRange.ofSection (w.emit t)

end Section

/-! ## Addresses -/

namespace Address

/-- A walk over the section of an address, with the zone put back. -/
def walk (a : Address) (w : Section → Walk Section) : Walk Address :=
  (w a.body).map a.wrap

end Address

/-! ## Ranges -/

namespace AddressRange

/-- The two ends of every segment. -/
def ends (r : AddressRange) : List Bounds :=
  (r.version.split r.lower).zipWith Bounds.mk (r.version.split r.upper)

/-- Every address, in ascending order. -/
def addresses (r : AddressRange) : Walk Address where
  counter := { wheels := wheelsAt r.version r.version.bitCount r.ends, counting := .interval }
  emit t := Address.ofSection (Section.ofDigits r.version t none)

/-- The blocks of the given prefix length that hold an address of the range. -/
def prefixBlocks (r : AddressRange) (prefixLen : Nat) : Walk Address :=
  let prefixLen := min prefixLen r.version.bitCount
  { counter := { wheels := wheelsAt r.version prefixLen r.ends, counting := .interval }
    emit := fun t => Address.ofSection (blockOf r.version prefixLen t) }

/-- The range, cut at every boundary between networks of the given prefix length. -/
def prefixPieces (r : AddressRange) (prefixLen : Nat) : Walk AddressRange :=
  (r.prefixBlocks prefixLen).map fun block => (ofSection block.body).clip r

end AddressRange

end IpSpace
