import IpSpace.Proofs.Separated

/-!
# The orders of versions and ranges

Versions and ranges are compared field by field, so their comparisons are those of linear orders:
transitive, total, and equal on equal things alone. Sorting by such a comparison, or by the
comparison of a key, puts a list in ascending order (`pairwise_mergeSort_key`).
-/

namespace IpSpace

instance : Std.TransOrd Version :=
  inferInstanceAs (Std.TransCmp (compareOn Version.bitCount))

instance : Std.LawfulEqOrd Version where
  eq_of_compare := Version.compare_eq_eq.1

/-- The order of ranges compares versions, then lower ends, then upper ends. -/
theorem AddressRange.compare_eq (a b : AddressRange) :
    compare a b = (compare a.version b.version).then
      ((compare a.lower b.lower).then (compare a.upper b.upper)) :=
  rfl

instance : Std.TransOrd AddressRange :=
  inferInstanceAs (Std.TransCmp (compareLex (compareOn AddressRange.version)
    (compareLex (compareOn AddressRange.lower) (compareOn AddressRange.upper))))

instance : Std.LawfulEqOrd AddressRange where
  eq_of_compare {a b} h := by
    simp only [AddressRange.compare_eq, Ordering.then_eq_eq, Std.LawfulEqOrd.compare_eq_iff_eq] at h
    obtain ⟨hversion, hlower, hupper⟩ := h
    cases a
    cases b
    simp_all

/-- Of two things, one comes first. -/
theorem isLE_compare_total {α : Type} [Ord α] [Std.TransOrd α] (a b : α) :
    ((compare a b).isLE || (compare b a).isLE) = true := by
  have hswap : compare b a = (compare a b).swap := Std.OrientedOrd.eq_swap
  rw [hswap]
  cases compare a b <;> rfl

/-- Sorting by the order of a key puts the keys in ascending order. -/
theorem pairwise_mergeSort_key {α β : Type} [Ord β] [Std.TransOrd β] (key : α → β) (l : List α) :
    (l.mergeSort fun a b => (compare (key a) (key b)).isLE).Pairwise
      fun a b => (compare (key a) (key b)).isLE :=
  List.pairwise_mergeSort (fun _ _ _ => Std.TransCmp.isLE_trans)
    (fun a b => isLE_compare_total (key a) (key b)) l

end IpSpace
