import IpSpace.Proofs.Maximal
import IpSpace.Proofs.Tiling
import IpSpace.Proofs.Values

/-!
# Decompositions into sections

Splitting and merging turn a set of addresses into a list of sections of some kind: prefix blocks or
sequential sections. What is asked of such a list is always the same: its members are of the kind,
in ascending order and disjoint, they make up the set, and there is no shorter way to write the set
as a union of sections of the kind (`IsFewest`).

It follows when every member is maximal in the set (`IsFewest.of_isMaximal`). For a single range the
members also follow each other without a gap, which is easier to prove and implies the order and the
union (`IsSplit`).
-/

namespace IpSpace

namespace Section

/-- A section whose addresses are all those from its lowest to its highest. -/
def IsInterval (s : Section) : Prop :=
  s.values = Set.Icc s.lowerValue s.upperValue

/-- The fewest sections of a kind with the given union, in ascending order and without overlap. -/
structure IsFewest (kind : Section → Prop) (whole : Set Nat) (sections : List Section) : Prop where
  of_kind : ∀ s ∈ sections, kind s
  ascending : Ascending sections
  union_eq : union sections = whole
  length_le : ∀ others : List Section, (∀ s ∈ others, kind s) → union others = whole →
    sections.length ≤ others.length

theorem Ascending.disjoint {sections : List Section} (h : Ascending sections) :
    sections.Pairwise fun s t => Disjoint s.values t.values :=
  h.imp fun {_ _} hlt => Set.disjoint_left.2 fun x hs ht => Nat.lt_irrefl x (hlt x hs x ht)

/-- The sets of addresses that sections of a kind hold. -/
def valuesOf (kind : Section → Prop) : Set (Set Nat) :=
  {values | ∃ s, kind s ∧ s.values = values}

variable {kind : Section → Prop}

/-- Sections of a kind are the fewest if each is maximal among the sections of the kind. -/
theorem IsFewest.of_isMaximal {whole : Set Nat} {sections : List Section}
    (hkind : ∀ s ∈ sections, kind s) (hwf : ∀ s ∈ sections, s.WellFormed)
    (hasc : Ascending sections) (hunion : union sections = whole)
    (hmax : ∀ s ∈ sections, IsMaximal (valuesOf kind) whole s.values) :
    IsFewest kind whole sections where
  of_kind := hkind
  ascending := hasc
  union_eq := hunion
  length_le others hothers hother := by
    have hmem : ∀ x, x ∈ whole ↔ ∃ o ∈ others.map Section.values, x ∈ o := by
      intro x
      rw [← hother, mem_union]
      simp only [List.mem_map, exists_exists_and_eq_and]
    have hle := length_le_of_isMaximal (List.forall_mem_map.2 hmax)
      (List.forall_mem_map.2 fun s hs => values_nonempty (hwf s hs))
      (List.pairwise_map.2 hasc.disjoint)
      (List.forall_mem_map.2 fun s hs => ⟨s, hothers s hs, rfl⟩) hmem
    rwa [List.length_map, List.length_map] at hle

/-! ## Splits of a range -/

/-- Sections of a kind that follow each other without a gap from the start to the end of a range,
each of them maximal in it. -/
structure IsSplit (kind : Section → Prop) (r : AddressRange) (sections : List Section) : Prop where
  of_kind : ∀ s ∈ sections, kind s
  tiles : Tiles lowerValue upperValue r.lower sections (r.upper + 1)
  isMaximal : ∀ s ∈ sections, IsMaximal (valuesOf kind) r.values s.values

/-- Sections of a kind have no gaps. -/
structure IsIntervalKind (kind : Section → Prop) : Prop where
  wellFormed : ∀ s, kind s → s.WellFormed
  isInterval : ∀ s, kind s → s.IsInterval

theorem IsIntervalKind.ordConnected (h : IsIntervalKind kind) :
    ∀ values ∈ valuesOf kind, values.OrdConnected := by
  rintro _ ⟨s, hs, rfl⟩
  rw [h.isInterval s hs]
  exact Set.ordConnected_Icc

variable {r : AddressRange} {sections : List Section}

/-- The sections of a split are in ascending order. -/
theorem IsSplit.ascending (hkind : IsIntervalKind kind) (h : IsSplit kind r sections) :
    Ascending sections := by
  refine h.tiles.pairwise.imp_of_mem fun {s t} hs ht hlt x hx y hy => ?_
  have hxu := (values_subset_Icc (hkind.wellFormed s (h.of_kind s hs)) hx).2
  have hyl := (values_subset_Icc (hkind.wellFormed t (h.of_kind t ht)) hy).1
  omega

/-- The sections of a split make up the range. -/
theorem IsSplit.union_eq (hkind : IsIntervalKind kind) (h : IsSplit kind r sections) :
    union sections = r.values := by
  ext x
  rw [AddressRange.mem_values, ← Nat.lt_succ_iff (n := r.upper), h.tiles.mem_iff, mem_union]
  refine exists_congr fun s => and_congr_right fun hs => ?_
  rw [hkind.isInterval s (h.of_kind s hs), Set.mem_Icc]

/-- A split of a range is a shortest one. -/
theorem IsSplit.isFewest (hkind : IsIntervalKind kind) (h : IsSplit kind r sections) :
    IsFewest kind r.values sections :=
  .of_isMaximal h.of_kind (fun s hs => hkind.wellFormed s (h.of_kind s hs)) (h.ascending hkind)
    (h.union_eq hkind) h.isMaximal

end Section

end IpSpace
