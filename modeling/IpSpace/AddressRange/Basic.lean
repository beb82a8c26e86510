import IpSpace.Address

/-!
# Address ranges

All addresses of one version from a lower to an upper one. Unlike a section, a range may begin and
end anywhere; like an interval of numbers, it is closed under intersection, and the union of two
ranges that overlap or touch is a range.
-/

namespace IpSpace

/-- The addresses of one version from `lower` to `upper`, both included. -/
structure AddressRange where
  version : Version
  lower : Nat
  upper : Nat
  deriving DecidableEq, Repr

namespace AddressRange

/-- What it takes to be a range of addresses of its version: it is not empty and stays within the
addresses there are. -/
structure WellFormed (r : AddressRange) : Prop where
  lower_le_upper : r.lower ≤ r.upper
  upper_le_max : r.upper ≤ r.version.maxValue

instance (r : AddressRange) : Decidable r.WellFormed :=
  decidable_of_iff (r.lower ≤ r.upper ∧ r.upper ≤ r.version.maxValue)
    ⟨fun h => ⟨h.1, h.2⟩, fun h => ⟨h.lower_le_upper, h.upper_le_max⟩⟩

/-! ## Building -/

/-- The range from `lower` to `upper`. -/
def ofValues (version : Version) (lower upper : Nat) : Except AddressError AddressRange :=
  if version.maxValue < upper then .error (.valueTooLarge version upper)
  else if upper < lower then .error (.rangeOrder lower upper)
  else .ok ⟨version, lower, upper⟩

/-- The range from the lowest to the highest address of a section. -/
def ofSection (s : Section) : AddressRange :=
  ⟨s.version, s.lowerValue, s.upperValue⟩

/-- The smallest range that holds both addresses, in either order. -/
def ofAddresses (a b : Address) : Except AddressError AddressRange := do
  checkSameVersion a.version b.version
  return ⟨a.version, min a.body.lowerValue b.body.lowerValue,
    max a.body.upperValue b.body.upperValue⟩

/-! ## Parts -/

/-- The lowest address. -/
def first (r : AddressRange) : Address :=
  Address.ofHost ⟨r.version, r.lower⟩

/-- The highest address. -/
def last (r : AddressRange) : Address :=
  Address.ofHost ⟨r.version, r.upper⟩

/-- Whether there is more than one address. -/
def isMultiple (r : AddressRange) : Bool :=
  r.lower != r.upper

/-- Number of addresses. -/
def count (r : AddressRange) : Nat :=
  r.upper - r.lower + 1

/-! ## Comparison -/

/-- Whether the address with the given value lies in the range. -/
def containsValue (r : AddressRange) (value : Nat) : Bool :=
  r.lower ≤ value && value ≤ r.upper

/-- Whether every address of `other` lies in the range. -/
def contains (r other : AddressRange) : Bool :=
  other.version == r.version && r.lower ≤ other.lower && other.upper ≤ r.upper

/-- Whether the two ranges share an address. -/
def overlaps (r other : AddressRange) : Bool :=
  other.version == r.version && r.lower ≤ other.upper && other.lower ≤ r.upper

/-- Whether the two ranges overlap, or one begins right after the other ends. -/
def touches (r other : AddressRange) : Bool :=
  r.overlaps other ||
    (other.version == r.version && (r.upper + 1 == other.lower || other.upper + 1 == r.lower))

/-- Ranges are ordered by version, lower end and upper end. -/
instance : Ord AddressRange where
  compare a b :=
    (compare a.version b.version).then <| (compare a.lower b.lower).then (compare a.upper b.upper)

/-! ## Interval algebra -/

/-- The part of a range that lies in `other`, where the two overlap. -/
def clip (r other : AddressRange) : AddressRange :=
  ⟨r.version, max r.lower other.lower, min r.upper other.upper⟩

/-- The common addresses of two ranges. Where one of the ranges lies in the other, it is that
one. -/
def inter? (r other : AddressRange) : Option AddressRange :=
  if !r.overlaps other then none
  else if r.contains other then some other
  else if other.contains r then some r
  else some (r.clip other)

/-- The smallest range that holds both, with any gap between them filled. Where one of the ranges
lies in the other, it is the other. -/
def hull? (r other : AddressRange) : Option AddressRange :=
  if other.version = r.version then
    match compare r.lower other.lower, compare r.upper other.upper with
    | .gt, .lt | .eq, .lt => some other
    | .lt, .gt | .lt, .eq | .eq, .gt | .eq, .eq => some r
    | .lt, .lt | .gt, .gt | .gt, .eq =>
      some ⟨r.version, min r.lower other.lower, max r.upper other.upper⟩
  else none

/-- The union of two ranges, if it is a range. -/
def union? (r other : AddressRange) : Option AddressRange :=
  if r.touches other then r.hull? other else none

/-- The addresses that are not in `other`: at most two ranges. -/
def difference (r other : AddressRange) : List AddressRange :=
  if r.overlaps other then
    (if r.lower < other.lower then [⟨r.version, r.lower, other.lower - 1⟩] else [])
      ++ (if other.upper < r.upper then [⟨r.version, other.upper + 1, r.upper⟩] else [])
  else [r]

/-! ## Text -/

/-- The characters of the range: its two ends. -/
def chars (r : AddressRange) : List Char :=
  r.first.chars ++ " -> ".toList ++ r.last.chars

/-- The text of the range. -/
def text (r : AddressRange) : String :=
  String.ofList r.chars

end AddressRange

end IpSpace
