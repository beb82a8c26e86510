import IpSpace.AddressRange.Basic

/-!
# Conflicts

Two ranges of a list conflict when they share an address. To find all conflicts, the ranges are
sorted by lower end together with their positions in the list; for each, the ranges after it are
looked at up to the first that begins past its end. Conflicts are listed by shared range, then by
positions.
-/

namespace IpSpace

/-- Two ranges of a list that share addresses, with their positions. -/
structure Conflict where
  firstIndex : Nat
  secondIndex : Nat
  first : AddressRange
  second : AddressRange
  shared : AddressRange
  deriving DecidableEq, Repr

/-- How urgent a notice is. -/
inductive Urgency where
  | info
  | warning
  deriving DecidableEq, Repr

namespace Conflict

/-- The conflict of two ranges with their positions, the earlier one first. -/
def of? (a b : AddressRange × Nat) : Option Conflict :=
  (a.1.inter? b.1).map fun shared =>
    if a.2 ≤ b.2 then ⟨a.2, b.2, a.1, b.1, shared⟩ else ⟨b.2, a.2, b.1, a.1, shared⟩

/-- Conflicts are ordered by shared range, then by the two positions. -/
instance : Ord Conflict where
  compare a b :=
    (compare a.shared b.shared).then <| (compare a.firstIndex b.firstIndex).then
      (compare a.secondIndex b.secondIndex)

/-- The conflicts of each range of a sorted list with those after it. A range past the end of the
first, or of another version, ends the search, as all after it are past the end too. -/
def ofSorted : List (AddressRange × Nat) → List Conflict
  | [] => []
  | a :: rest =>
    (rest.takeWhile fun b => b.1.version == a.1.version && b.1.lower ≤ a.1.upper).filterMap (of? a)
      ++ ofSorted rest

/-- All conflicts of a list. -/
def all (ranges : List AddressRange) : List Conflict :=
  let sorted := ranges.zipIdx.mergeSort fun a b => (compare a.1 b.1).isLE
  (ofSorted sorted).mergeSort fun a b => (compare a b).isLE

/-- The notice about one conflict. -/
def notice (c : Conflict) : String :=
  s!"  #{c.firstIndex} [{c.first.text}] and #{c.secondIndex} [{c.second.text}] share "
    ++ s!"{c.shared.text} ({c.shared.count} addresses)"

/-- The notices about a list of conflicts: that there are none, or how many and which. -/
def notices (conflicts : List Conflict) : List (Urgency × String) :=
  if conflicts.isEmpty then [(.info, "No overlapping ranges found.")]
  else
    (.warning, s!"Found {conflicts.length} overlapping range pair(s):")
      :: conflicts.map fun c => (.warning, c.notice)

end Conflict

end IpSpace
