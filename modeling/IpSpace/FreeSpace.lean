import IpSpace.AddressRange.Blocks

/-!
# Free space

The parts of a containing range that a list of used ranges leaves free. Used ranges are clipped to
the container and coalesced; what lies in front of, between and behind them is free.
-/

namespace IpSpace

/-- A free range, also as the fewest prefix blocks. -/
structure Gap where
  range : AddressRange
  blocks : List Section
  deriving DecidableEq, Repr

namespace Gap

/-- The free range from `lower` to `upper`. -/
def ofEnds (version : Version) (lower upper : Nat) : Gap :=
  let range : AddressRange := ⟨version, lower, upper⟩
  ⟨range, range.toBlocks⟩

/-- The gaps from `next` on, in front of, between and behind the ranges of a coalesced list, up to
the end of the container. -/
def beside (container : AddressRange) (next : Nat) : List AddressRange → List Gap
  | [] => if next ≤ container.upper then [ofEnds container.version next container.upper] else []
  | r :: rs =>
    (if next < r.lower then [ofEnds container.version next (r.lower - 1)] else [])
      ++ beside container (r.upper + 1) rs

end Gap

/-- The gaps that the `used` ranges leave in `container`, in ascending order. Ranges of another
version or outside the container play no part. -/
def freeSpace (container : AddressRange) (used : List AddressRange) : List Gap :=
  Gap.beside container container.lower
    (AddressRange.coalesce (used.filterMap fun r => r.inter? container))

end IpSpace
