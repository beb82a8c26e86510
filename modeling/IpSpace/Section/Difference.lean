import IpSpace.Section.Build

/-!
# Intersection and difference of sections

Two sections of one version intersect segment by segment. Their difference is in general no section,
but it is a union of disjoint ones: `differencePieces` splits off, at every segment in turn, the
values in front of and behind the common ones, fixes the segments before it to the common values and
leaves the segments after it as they are.
-/

namespace IpSpace

/-- The values of `a` below and above the values of `b`, where the two ranges overlap. -/
def Bounds.outside (a b : Bounds) : List Bounds :=
  (if a.lower < b.lower then [⟨a.lower, b.lower - 1⟩] else [])
    ++ (if b.upper < a.upper then [⟨b.upper + 1, a.upper⟩] else [])

namespace Section

/-- The common addresses of two sections, if there are any. The prefix length is the longer of the
two, or absent if one section has none. -/
def inter? (s other : Section) : Except AddressError (Option Section) := do
  checkSameVersion s.version other.version
  if !s.overlaps other then return none
  let prefixLen := match s.prefixLen, other.prefixLen with
    | some p, some q => some (max p q)
    | _, _ => none
  return some ⟨s.version, s.bounds.zipWith Bounds.inter other.bounds, prefixLen⟩

/-- Splits the product of the ranges `as` without the product of the ranges `bs` into disjoint
products, where every range of `as` overlaps its partner. -/
def differencePieces : List Bounds → List Bounds → List (List Bounds)
  | a :: as, b :: bs =>
    (a.outside b).map (fun part => part :: as)
      ++ (differencePieces as bs).map (fun rest => a.inter b :: rest)
  | _, _ => []

/-- The prefix length of a piece of a section whose own prefix length is `own`: the smallest at
which the piece is made of whole networks, but not less than `own`. A piece that is made of networks
of single addresses only gets none. -/
def piecePrefixLen (own : Nat) (piece : Section) : Option Nat :=
  let p := piece.minBlockPrefixLen
  if p = piece.bitCount then none else some (max p own)

/-- The addresses of a section that are not in `other`, as disjoint sections. -/
def difference (s other : Section) : Except AddressError (List Section) := do
  checkSameVersion s.version other.version
  if !s.overlaps other then return [s]
  let pieces := (differencePieces s.bounds other.bounds).map fun bounds => ⟨s.version, bounds, none⟩
  match s.prefixLen with
  | none => return pieces
  | some own => return pieces.map fun piece => piece.withPrefixLen (piecePrefixLen own piece)

end Section

end IpSpace
