import Mathlib.Data.List.Pairwise
import Mathlib.Data.List.Perm.Subperm
import Mathlib.Data.Set.Lattice
import Mathlib.Order.BourbakiWitt
import Mathlib.Order.CompletePartialOrder
import Mathlib.Order.Interval.Set.Basic
import Mathlib.Order.Interval.Set.OrdConnected

/-!
# Fewest parts

A set of numbers is to be written as a union of sets of a given kind, such as the prefix blocks or
the sequential sections, with as few of them as possible. The parts of the union may overlap.

A part is *maximal* if no other set of the kind inside the whole meets it without lying in it. Every
list of sets of the kind that makes up the whole needs, for each maximal part, a member that meets
it, and that member serves no other part that is disjoint from it. So a union of pairwise disjoint
maximal parts is the shortest of all (`length_le_of_isMaximal`).

Maximality is found step by step: parts may be cut off the whole one after another
(`IsMaximal.of_diff`), and the whole may be cut at its gaps (`IsMaximal.of_component`).
-/

namespace IpSpace

/-- A set of the kind inside the whole that every set of the kind inside the whole lies in as soon
as it meets it. -/
structure IsMaximal (kind : Set (Set Nat)) (whole part : Set Nat) : Prop where
  mem_kind : part ∈ kind
  subset : part ⊆ whole
  absorbs : ∀ other ∈ kind, other ⊆ whole → (other ∩ part).Nonempty → other ⊆ part

namespace IsMaximal

variable {kind : Set (Set Nat)} {whole front part : Set Nat}

/-- What is maximal behind a maximal part is maximal in the whole: a set that meets both would lie
in the first. -/
theorem of_diff (hfront : IsMaximal kind whole front)
    (hpart : IsMaximal kind (whole \ front) part) :
    IsMaximal kind whole part where
  mem_kind := hpart.mem_kind
  subset x hx := (hpart.subset hx).1
  absorbs := by
    rintro other hkind hsub ⟨x, hx, hxp⟩
    refine hpart.absorbs other hkind (fun y hy => ⟨hsub hy, fun hyf => ?_⟩) ⟨x, hx, hxp⟩
    have hin : other ⊆ front := hfront.absorbs other hkind hsub ⟨y, hy, hyf⟩
    exact (hpart.subset hxp).2 (hin hx)

/-- The whole is maximal if it is of the kind. -/
theorem self (h : whole ∈ kind) : IsMaximal kind whole whole where
  mem_kind := h
  subset := subset_rfl
  absorbs _ _ hsub _ := hsub

/-- What is maximal among more sets is maximal among fewer. -/
theorem mono {kind' : Set (Set Nat)} (hkind : kind' ⊆ kind) (h : IsMaximal kind whole part)
    (hpart : part ∈ kind') : IsMaximal kind' whole part where
  mem_kind := hpart
  subset := h.subset
  absorbs other hother := h.absorbs other (hkind hother)

/-- What is maximal in a subset is maximal in the whole if no set of the kind leads out of the
subset. -/
theorem of_subset {inner : Set Nat} (hsub : inner ⊆ whole)
    (hinner : ∀ other ∈ kind, other ⊆ whole → (other ∩ inner).Nonempty → other ⊆ inner)
    (hpart : IsMaximal kind inner part) : IsMaximal kind whole part where
  mem_kind := hpart.mem_kind
  subset := hpart.subset.trans hsub
  absorbs := by
    rintro other hkind hother ⟨x, hx, hxp⟩
    exact hpart.absorbs other hkind (hinner other hkind hother ⟨x, hx, hpart.subset hxp⟩)
      ⟨x, hx, hxp⟩

/-- What is maximal in an interval is maximal in a larger set that has gaps right before and right
behind the interval, if all sets of the kind are intervals. -/
theorem of_component {lower upper : Nat} (hkind : ∀ other ∈ kind, other.OrdConnected)
    (hsub : Set.Icc lower upper ⊆ whole) (hlower : ∀ x ∈ whole, x + 1 ≠ lower)
    (hupper : upper + 1 ∉ whole) (hpart : IsMaximal kind (Set.Icc lower upper) part) :
    IsMaximal kind whole part := by
  refine of_subset hsub ?_ hpart
  rintro other hk hother ⟨x, hx, hlx, hxu⟩ y hy
  have hconn := hkind other hk
  by_contra hout
  rw [Set.mem_Icc, not_and_or, not_le, not_le] at hout
  rcases hout with hy' | hy'
  · exact hlower (lower - 1) (hother (hconn.out hy hx ⟨by omega, by omega⟩)) (by omega)
  · exact hupper (hother (hconn.out hx hy ⟨by omega, by omega⟩))

end IsMaximal

/-- **Disjoint maximal parts are the fewest.** Any list of sets of the kind that covers the whole,
and no more than the whole, has at least as many members. -/
theorem length_le_of_isMaximal {kind : Set (Set Nat)} {whole : Set Nat}
    {parts others : List (Set Nat)}
    (hparts : ∀ p ∈ parts, IsMaximal kind whole p) (hne : ∀ p ∈ parts, p.Nonempty)
    (hdisj : parts.Pairwise Disjoint) (hothers : ∀ o ∈ others, o ∈ kind)
    (hunion : ∀ x, x ∈ whole ↔ ∃ o ∈ others, x ∈ o) : parts.length ≤ others.length := by
  -- Every part is charged to a member that lies in it and is not empty.
  have hcharge : ∀ p ∈ parts, ∃ o ∈ others, o ⊆ p ∧ o.Nonempty := by
    intro p hp
    obtain ⟨x, hx⟩ := hne p hp
    obtain ⟨o, ho, hxo⟩ := (hunion x).1 ((hparts p hp).subset hx)
    have hsub : o ⊆ whole := fun y hy => (hunion y).2 ⟨o, ho, hy⟩
    exact ⟨o, ho, (hparts p hp).absorbs o (hothers o ho) hsub ⟨x, hxo, hx⟩, x, hxo⟩
  choose! charge hmem hsub hnonempty using hcharge
  have hnodup : (parts.map charge).Nodup := by
    refine List.pairwise_map.2 (hdisj.imp_of_mem fun {p q} hp hq hpq heq => ?_)
    obtain ⟨x, hx⟩ := hnonempty p hp
    exact Set.disjoint_left.1 hpq (hsub p hp hx) (hsub q hq (heq ▸ hx))
  have hsubset : parts.map charge ⊆ others := by
    intro o ho
    obtain ⟨p, hp, rfl⟩ := List.mem_map.1 ho
    exact hmem p hp
  have hlength := (List.subperm_of_subset hnodup hsubset).length_le
  rwa [List.length_map] at hlength

end IpSpace
