import IpSpace.Proofs.Values
import Mathlib.Data.List.Nodup
import Mathlib.Data.List.Pairwise

/-!
# Separated ranges

A list of ranges is separated if each range comes before all ranges after it, with a gap between any
two of one version. The ranges of such a list can be read off the addresses that it covers: they are
the *components*, the intervals of covered addresses that end at a gap on either side
(`Separated.mem_iff_isComponent`). So two separated lists that cover the same addresses are equal
(`Separated.eq_of_covered_eq`).
-/

namespace IpSpace

/-! ## The order of the versions -/

namespace Version

theorem compare_eq_eq {a b : Version} : compare a b = .eq ↔ a = b := by
  revert a b
  rintro (_ | _) (_ | _) <;> decide

theorem compare_self_ne_lt (a : Version) : compare a a ≠ .lt := by
  cases a <;> decide

theorem compare_lt_trans {a b c : Version} (hab : compare a b = .lt) (hbc : compare b c = .lt) :
    compare a c = .lt := by
  revert a b c
  rintro (_ | _) (_ | _) (_ | _) <;> decide

/-- Of two things of one version, the second key decides. -/
theorem of_lt_or_eq {a b : Version} {p : Prop} (h : compare a b = .lt ∨ a = b ∧ p) (heq : a = b) :
    p := by
  rcases h with h | h
  · exact absurd (heq ▸ h) (compare_self_ne_lt _)
  · exact h.2

/-- Comparing by version and then by a second key is transitive if the second key is. -/
theorem lt_or_eq_trans {a b c : Version} {p q r : Prop} (hpqr : p → q → r)
    (hab : compare a b = .lt ∨ a = b ∧ p) (hbc : compare b c = .lt ∨ b = c ∧ q) :
    compare a c = .lt ∨ a = c ∧ r := by
  rcases hab with hab | ⟨rfl, hp⟩
  · rcases hbc with hbc | ⟨rfl, -⟩
    · exact Or.inl (compare_lt_trans hab hbc)
    · exact Or.inl hab
  · rcases hbc with hbc | ⟨rfl, hq⟩
    · exact Or.inl hbc
    · exact Or.inr ⟨rfl, hpqr hp hq⟩

end Version

/-- An interval of members of a set with gaps right before and right behind it. -/
structure IsComponent (whole : Set Nat) (lower upper : Nat) : Prop where
  lower_le_upper : lower ≤ upper
  subset : Set.Icc lower upper ⊆ whole
  gap_below : ∀ x ∈ whole, x + 1 ≠ lower
  gap_above : upper + 1 ∉ whole

/-- A component begins no later than a component that it reaches: there is a gap in front of it. -/
private theorem IsComponent.lower_le {whole : Set Nat} {l u l' u' x : Nat}
    (h : IsComponent whole l u) (h' : IsComponent whole l' u') (hx : l ≤ x) (hx' : x ≤ u') :
    l ≤ l' := by
  by_contra hlt
  exact h.gap_below (l - 1) (h'.subset ⟨by omega, by omega⟩) (by omega)

/-- A component ends no earlier than a component that reaches it: there is a gap behind it. -/
private theorem IsComponent.le_upper {whole : Set Nat} {l u l' u' x : Nat}
    (h : IsComponent whole l u) (h' : IsComponent whole l' u') (hx : x ≤ u) (hx' : l' ≤ x) :
    u' ≤ u := by
  by_contra hlt
  exact h.gap_above (h'.subset ⟨by omega, by omega⟩)

/-- Components that share a member are equal. -/
theorem IsComponent.unique {whole : Set Nat} {l u l' u' x : Nat} (h : IsComponent whole l u)
    (h' : IsComponent whole l' u') (hx : x ∈ Set.Icc l u) (hx' : x ∈ Set.Icc l' u') :
    l = l' ∧ u = u' :=
  ⟨Nat.le_antisymm (h.lower_le h' hx.1 hx'.2) (h'.lower_le h hx'.1 hx.2),
    Nat.le_antisymm (h'.le_upper h hx'.2 hx.1) (h.le_upper h' hx.2 hx'.1)⟩

namespace AddressRange

/-! ## Order and gaps -/

/-- The first range comes before the second: its version does, or both have one version and there is
a gap between the end of the first and the beginning of the second. -/
def Precedes (a b : AddressRange) : Prop :=
  compare a.version b.version = .lt ∨ a.version = b.version ∧ a.upper + 1 < b.lower

/-- Ranges that are not empty, in order, and with a gap between any two of one version. -/
structure Separated (ranges : List AddressRange) : Prop where
  lower_le_upper : ∀ r ∈ ranges, r.lower ≤ r.upper
  pairwise : ranges.Pairwise Precedes

/-- Of two ranges of one version, only the gap decides. -/
theorem Precedes.gap {a b : AddressRange} (h : Precedes a b) (hversion : a.version = b.version) :
    a.upper + 1 < b.lower :=
  Version.of_lt_or_eq h hversion

/-- No two ranges come before each other, unless one of them is empty. -/
theorem Precedes.asymm {a b : AddressRange} (ha : a.lower ≤ a.upper) (hb : b.lower ≤ b.upper)
    (hab : Precedes a b) (hba : Precedes b a) : False :=
  Version.of_lt_or_eq (Version.lt_or_eq_trans (fun _ _ => by omega) hab hba) rfl

namespace Separated

variable {ranges : List AddressRange}

/-- Two ranges of a separated list are the same or one comes before the other. -/
theorem eq_or_precedes (h : Separated ranges) {a b : AddressRange} (ha : a ∈ ranges)
    (hb : b ∈ ranges) : a = b ∨ Precedes a b ∨ Precedes b a := by
  by_cases hab : a = b
  · exact Or.inl hab
  · have hsymm : Std.Symm fun a b => Precedes a b ∨ Precedes b a := ⟨fun _ _ => Or.symm⟩
    have hpair : ranges.Pairwise fun a b => Precedes a b ∨ Precedes b a :=
      h.pairwise.imp fun {_ _} => Or.inl
    exact Or.inr (hpair.forall ha hb hab)

/-- What a separated list covers lies in a given range of it, or past a gap on either side. -/
theorem mem_values_or_gap (h : Separated ranges) {r : AddressRange} (hr : r ∈ ranges) {x : Nat}
    (hx : x ∈ covered ranges r.version) :
    x ∈ r.values ∨ x + 1 < r.lower ∨ r.upper + 1 < x := by
  obtain ⟨s, hs, hversion, hxs⟩ := hx
  rw [mem_values] at hxs
  rcases h.eq_or_precedes hr hs with rfl | hrs | hsr
  · exact Or.inl hxs
  · have := hrs.gap hversion.symm
    exact Or.inr (Or.inr (by omega))
  · have := hsr.gap hversion
    exact Or.inr (Or.inl (by omega))

/-- A range of a separated list is a component of what the list covers. -/
theorem isComponent (h : Separated ranges) {r : AddressRange} (hr : r ∈ ranges) :
    IsComponent (covered ranges r.version) r.lower r.upper where
  lower_le_upper := h.lower_le_upper r hr
  subset x hx := ⟨r, hr, rfl, hx⟩
  gap_below := by
    intro x hx hlower
    have hle := h.lower_le_upper r hr
    have hcases := h.mem_values_or_gap hr hx
    rw [mem_values] at hcases
    omega
  gap_above := by
    intro hx
    have hle := h.lower_le_upper r hr
    have hcases := h.mem_values_or_gap hr hx
    rw [mem_values] at hcases
    omega

/-- The ranges of a separated list are the components of what it covers. -/
theorem mem_iff_isComponent (h : Separated ranges) {r : AddressRange} :
    r ∈ ranges ↔ IsComponent (covered ranges r.version) r.lower r.upper := by
  refine ⟨h.isComponent, fun hr => ?_⟩
  have hlower : r.lower ∈ Set.Icc r.lower r.upper := ⟨Nat.le_refl _, hr.lower_le_upper⟩
  obtain ⟨s, hs, hversion, hmem⟩ := hr.subset hlower
  have hcomponent := h.isComponent hs
  rw [hversion] at hcomponent
  obtain ⟨hl, hu⟩ := hcomponent.unique hr hmem hlower
  have heq : s = r := by
    cases s
    cases r
    simp_all
  exact heq ▸ hs

/-- A separated list has no range twice. -/
theorem nodup (h : Separated ranges) : ranges.Nodup := by
  refine h.pairwise.imp_of_mem fun {a b} ha hb hab heq => ?_
  subst heq
  exact hab.asymm (h.lower_le_upper a ha) (h.lower_le_upper a ha) hab

/-- Separated lists that cover the same addresses are equal. -/
theorem eq_of_covered_eq {others : List AddressRange} (h : Separated ranges)
    (hothers : Separated others)
    (hcovered : ∀ version, covered ranges version = covered others version) : ranges = others := by
  have hperm : ranges.Perm others := by
    rw [List.perm_ext_iff_of_nodup h.nodup hothers.nodup]
    intro r
    rw [h.mem_iff_isComponent, hothers.mem_iff_isComponent, hcovered]
  refine hperm.eq_of_pairwise (fun a b ha hb hab hba => ?_) h.pairwise hothers.pairwise
  exact (hab.asymm (h.lower_le_upper a ha) (hothers.lower_le_upper b hb) hba).elim

end Separated

end AddressRange

end IpSpace
