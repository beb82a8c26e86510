import IpSpace.AddressRange.Basic

/-!
# Coalescing ranges

Any list of ranges can be brought into a normal form with the same addresses: ordered by version and
lower end, and with a gap between any two ranges of one version. Two lists have the same normal form
exactly when they hold the same addresses.

The ranges are sorted and then swept from left to right; a range that touches the one before it is
absorbed, which can only move the upper end of the latter.
-/

namespace IpSpace.AddressRange

/-- Joins `current` with the ranges of a sorted list as long as they touch it, and goes on with the
rest. -/
def sweep (current : AddressRange) : List AddressRange → List AddressRange
  | [] => [current]
  | r :: rs =>
    if current.touches r then sweep { current with upper := max current.upper r.upper } rs
    else current :: sweep r rs

/-- The fewest ranges with the same addresses, in ascending order. -/
def coalesce (ranges : List AddressRange) : List AddressRange :=
  match ranges.mergeSort fun a b => (compare a b).isLE with
  | [] => []
  | r :: rs => sweep r rs

end IpSpace.AddressRange
