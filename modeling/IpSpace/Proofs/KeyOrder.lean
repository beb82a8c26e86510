import IpSpace.Proofs.Keys
import IpSpace.Proofs.Order

/-!
# The orders of ranges, sections and their keys

Ranges and sections are ordered by the numbers at their ends, keys by their slots one after the
other. The two agree because words are ordered like their digits: along the cut behind the first
digit, comparing two words compares the first digits and then the rests (`Digits.compare_mul_add`),
so the order of words is the lexicographic order of their digits (`Digits.compare_value`). The slots
behind the segments in use are the same in all keys of one version, and do not matter
(`compare_append_right`).

Sections that are compared as equal have the same ends, hence the same bounds, so their order is a
linear one. It is not that of their keys: a key compares the upper end of the first segment before
the lower end of the second. In a section of one address the two ends of each segment are one
number, and such sections are ordered like their keys.
-/

namespace IpSpace

/-! ## Words and their digits -/

namespace Digits

variable {width : Nat} {ds es : List Nat}

/-- Words are compared by what stands in front of a cut, and then by the rests. -/
theorem compare_mul_add {m d e r s : Nat} (hr : r < m) (hs : s < m) :
    compare (d * m + r) (e * m + s) = (compare d e).then (compare r s) := by
  rcases Nat.lt_trichotomy d e with hlt | rfl | hgt
  · have hnext := Nat.mul_le_mul_right m (Nat.succ_le_of_lt hlt)
    rw [Nat.succ_mul] at hnext
    rw [Nat.compare_eq_lt.2 hlt, Ordering.lt_then, Nat.compare_eq_lt]
    omega
  · rw [Nat.compare_eq_eq.2 (rfl : d = d), Ordering.eq_then]
    rcases Nat.lt_trichotomy r s with h | rfl | h
    · rw [Nat.compare_eq_lt.2 h, Nat.compare_eq_lt.2 (Nat.add_lt_add_left h _)]
    · rw [Nat.compare_eq_eq.2 rfl, Nat.compare_eq_eq.2 rfl]
    · rw [Nat.compare_eq_gt.2 h, Nat.compare_eq_gt.2 (Nat.add_lt_add_left h _)]
  · have hnext := Nat.mul_le_mul_right m (Nat.succ_le_of_lt hgt)
    rw [Nat.succ_mul] at hnext
    rw [Nat.compare_eq_gt.2 hgt, Ordering.gt_then, Nat.compare_eq_gt]
    omega

/-- **Words of one length are ordered like their digits.** -/
theorem compare_value (hlen : ds.length = es.length) (hds : Fit width ds) (hes : Fit width es) :
    compare (value width ds) (value width es) = compare ds es := by
  induction ds generalizing es with
  | nil =>
      rw [List.eq_nil_of_length_eq_zero hlen.symm]
      rfl
  | cons d ds ih =>
      cases es with
      | nil => cases hlen
      | cons e es =>
          have hrest : ds.length = es.length := Nat.succ.inj hlen
          rw [fit_cons] at hds hes
          have hvalue := value_lt hes.2
          rw [← hrest] at hvalue
          rw [value, value, ← hrest, compare_mul_add (value_lt hds.2) hvalue,
            ih hrest hds.2 hes.2, List.compare_cons_cons]

end Digits

theorem Version.compare_split {version : Version} {x y : Nat} (hx : x ≤ version.maxValue)
    (hy : y ≤ version.maxValue) :
    compare (version.split x) (version.split y) = compare x y := by
  have hlen : (version.split x).length = (version.split y).length := by simp
  rw [← Digits.compare_value hlen (version.fit_split x) (version.fit_split y)]
  rw [Version.split, Version.split, Digits.value_split (Version.le_maxValue_iff.1 hx),
    Digits.value_split (Version.le_maxValue_iff.1 hy)]

/-! ## Slots -/

/-- What two lists of one length have in common behind them does not matter. -/
theorem compare_append_right {ds es : List Nat} (hlen : ds.length = es.length) (zs : List Nat) :
    compare (ds ++ zs) (es ++ zs) = compare ds es := by
  induction ds generalizing es with
  | nil =>
      rw [List.eq_nil_of_length_eq_zero hlen.symm, Std.ReflOrd.compare_self,
        Std.ReflOrd.compare_self]
  | cons d ds ih =>
      cases es with
      | nil => cases hlen
      | cons e es =>
          rw [List.cons_append, List.cons_append, List.compare_cons_cons, List.compare_cons_cons,
            ih (Nat.succ.inj hlen)]

theorem compare_padKey {ds es : List Nat} (hlen : ds.length = es.length) :
    compare (padKey 0 ds) (padKey 0 es) = compare ds es := by
  rw [padKey, padKey, hlen, compare_append_right hlen]

/-- What comes behind the version decides only between things of one version. -/
theorem Version.compare_then_congr {a b : Version} {x y : Ordering} (h : a = b → x = y) :
    (compare a b).then x = (compare a b).then y := by
  cases hab : compare a b with
  | lt => rfl
  | eq => rw [h (compare_eq_eq.1 hab)]
  | gt => rfl

/-! ## Ranges -/

theorem RangeKey.compare_eq (a b : RangeKey) :
    compare a b = (compare a.version b.version).then
      ((compare a.lower b.lower).then (compare a.upper b.upper)) :=
  rfl

/-- **Ranges are ordered like their keys.** -/
theorem AddressRange.compare_toKey {r s : AddressRange} (hr : r.WellFormed) (hs : s.WellFormed) :
    compare r.toKey s.toKey = compare r s := by
  rw [RangeKey.compare_eq, AddressRange.compare_eq]
  refine Version.compare_then_congr fun (hversion : r.version = s.version) => ?_
  have hends : ∀ x y, x ≤ r.version.maxValue → y ≤ r.version.maxValue →
      compare (padKey 0 (r.version.split x)) (padKey 0 (s.version.split y)) = compare x y := by
    intro x y hx hy
    rw [← hversion, compare_padKey (by simp), Version.compare_split hx hy]
  have hupper : s.upper ≤ r.version.maxValue := hversion ▸ hs.upper_le_max
  rw [toKey, toKey, hends _ _ hr.upper_le_max hupper,
    hends _ _ (Nat.le_trans hr.lower_le_upper hr.upper_le_max)
      (Nat.le_trans hs.lower_le_upper hupper)]

/-- Ranges with one key are the same. -/
theorem AddressRange.toKey_inj {r s : AddressRange} (hr : r.WellFormed) (hs : s.WellFormed) :
    r.toKey = s.toKey ↔ r = s := by
  refine ⟨fun h => ?_, congrArg toKey⟩
  have hread := ofKey_toKey hr
  rw [h, ofKey_toKey hs] at hread
  exact (Except.ok.inj hread).symm

/-! ## Sections -/

namespace Section

variable {s t : Section}

theorem compare_eq (s t : Section) :
    compare s t = (compare s.version t.version).then ((compare s.lowerValue t.lowerValue).then
      ((compare s.upperValue t.upperValue).then (compare s.prefixLen t.prefixLen))) :=
  rfl

instance : Std.TransOrd Section :=
  inferInstanceAs (Std.TransCmp (compareLex (compareOn Section.version)
    (compareLex (compareOn Section.lowerValue)
      (compareLex (compareOn Section.upperValue) (compareOn Section.prefixLen)))))

/-- A section is known by its version, its ends and its prefix length. -/
theorem eq_of_ends_eq (hs : s.WellFormed) (ht : t.WellFormed) (hversion : s.version = t.version)
    (hlower : s.lowerValue = t.lowerValue) (hupper : s.upperValue = t.upperValue)
    (hlen : s.prefixLen = t.prefixLen) : s = t := by
  have hbounds := bounds_eq_of_ends_eq hs ht hversion hlower hupper
  cases s
  cases t
  simp_all

/-- **Only a section itself is compared as equal to it.** -/
theorem compare_eq_eq_iff (hs : s.WellFormed) (ht : t.WellFormed) :
    compare s t = .eq ↔ s = t := by
  constructor
  · intro h
    simp only [compare_eq, Ordering.then_eq_eq, Std.LawfulEqOrd.compare_eq_iff_eq] at h
    obtain ⟨hversion, hlower, hupper, hlen⟩ := h
    exact eq_of_ends_eq hs ht hversion hlower hupper hlen
  · rintro rfl
    exact Std.ReflOrd.compare_self

/-- Sections with one key are the same. -/
theorem toKey_inj (hs : s.WellFormed) (ht : t.WellFormed) : s.toKey = t.toKey ↔ s = t := by
  refine ⟨fun h => ?_, congrArg toKey⟩
  have hread := ofKey_toKey hs
  rw [h, ofKey_toKey ht] at hread
  exact (Except.ok.inj hread).symm

end Section

/-- The slots of a key in one row. -/
def AddressKey.flat (key : AddressKey) : List Nat :=
  key.segments.flatMap fun (lower, upper) => [lower, upper]

theorem AddressKey.compare_eq (a b : AddressKey) :
    compare a b = (compare a.version b.version).then
      ((compare a.flat b.flat).then (compare a.prefixLen b.prefixLen)) :=
  rfl

/-- Numbers that stand twice each are compared like the numbers. -/
theorem compare_flatMap_twice {ds es : List Nat} (hlen : ds.length = es.length) :
    compare (ds.flatMap fun d => [d, d]) (es.flatMap fun e => [e, e]) = compare ds es := by
  induction ds generalizing es with
  | nil =>
      rw [List.eq_nil_of_length_eq_zero hlen.symm]
      rfl
  | cons d ds ih =>
      cases es with
      | nil => cases hlen
      | cons e es =>
          simp only [List.flatMap_cons, List.cons_append, List.nil_append, List.compare_cons_cons]
          rw [ih (Nat.succ.inj hlen), ← Ordering.then_assoc, Ordering.then_self]

namespace Section

variable {s t : Section}

/-- The key of a single address has each of its segments twice, and zeros behind them. -/
theorem flat_toKey (hs : s.WellFormed) (hsingle : s.isMultiple = false) :
    s.toKey.flat = (s.version.split s.lowerValue).flatMap (fun d => [d, d])
      ++ (List.replicate (keySegmentCount - s.version.segmentCount) (0, 0)).flatMap
        fun (lower, upper) => [lower, upper] := by
  have hpairs : ∀ b ∈ s.bounds, [b.lower, b.upper] = [b.lower, b.lower] := by
    intro b hb
    have heq : b.lower = b.upper := by
      simpa [isMultiple, Bounds.isMultiple] using List.any_eq_false.1 hsingle b hb
    rw [heq]
  rw [AddressKey.flat, toKey, padKey, List.flatMap_append, List.flatMap_map, List.length_map,
    hs.length_bounds, split_lowerValue hs, List.flatMap_map]
  congr 1
  exact List.flatMap_congr hpairs

/-- **Single addresses are ordered like their keys.** -/
theorem compare_toKey (hs : s.WellFormed) (ht : t.WellFormed) (hs1 : s.isMultiple = false)
    (ht1 : t.isMultiple = false) : compare s.toKey t.toKey = compare s t := by
  rw [AddressKey.compare_eq, compare_eq]
  refine Version.compare_then_congr fun (hversion : s.version = t.version) => ?_
  have hlower : t.lowerValue ≤ s.version.maxValue := hversion ▸ lowerValue_le_maxValue ht
  have hflat : compare s.toKey.flat t.toKey.flat = compare s.lowerValue t.lowerValue := by
    rw [flat_toKey hs hs1, flat_toKey ht ht1, ← hversion,
      compare_append_right (by simp [List.length_flatMap]), compare_flatMap_twice (by simp),
      Version.compare_split (lowerValue_le_maxValue hs) hlower]
  rw [hflat, ← (isMultiple_eq_false_iff hs).1 hs1, ← (isMultiple_eq_false_iff ht).1 ht1,
    ← Ordering.then_assoc, Ordering.then_self]
  rfl

/-- Sections of several addresses need not be ordered like their keys. -/
example :
    let s : Section := ⟨.v4, [⟨1, 1⟩, ⟨5, 5⟩, ⟨0, 0⟩, ⟨0, 0⟩], none⟩
    let t : Section := ⟨.v4, [⟨1, 2⟩, ⟨0, 0⟩, ⟨0, 0⟩, ⟨0, 0⟩], none⟩
    compare s t = .gt ∧ compare s.toKey t.toKey = .lt := by
  decide

end Section

/-! ## All orders -/

/-- **Orders and keys agree.** Ranges are ordered like their keys. Of two sections, each is compared
as equal to the other exactly if they are the same, and exactly if their keys are; and the order of
sections is linear: antisymmetric, transitive and total, with the opposite outcome the other way
round. Sections of one address each, of any versions and prefix lengths, are ordered like their
keys. -/
theorem compare_toKey_exact (r r' : AddressRange) (s t u : Section) (hr : r.WellFormed)
    (hr' : r'.WellFormed) (hs : s.WellFormed) (ht : t.WellFormed) :
    compare r.toKey r'.toKey = compare r r' ∧
      ((compare s t = .eq ↔ s = t) ∧ (compare s t = .eq ↔ s.toKey = t.toKey)) ∧
      (compare t s = (compare s t).swap ∧
        ((compare s t).isLE → (compare t s).isLE → s = t) ∧
        ((compare s t).isLE → (compare t u).isLE → (compare s u).isLE) ∧
        ((compare s t).isLE ∨ (compare t s).isLE)) ∧
      (s.isMultiple = false → t.isMultiple = false → compare s.toKey t.toKey = compare s t) := by
  have hequal := Section.compare_eq_eq_iff hs ht
  refine ⟨AddressRange.compare_toKey hr hr', ⟨hequal, ?_⟩, ⟨?_, ?_, ?_, ?_⟩,
    Section.compare_toKey hs ht⟩
  · rw [hequal, Section.toKey_inj hs ht]
  · exact Std.OrientedOrd.eq_swap
  · exact fun hst hts => hequal.1 (Std.OrientedCmp.isLE_antisymm hst hts)
  · exact fun hst htu => Std.TransCmp.isLE_trans hst htu
  · exact Bool.or_eq_true_iff.1 (isLE_compare_total s t)

/-- The last IPv4 range comes before an IPv6 range that begins lower, and so do their keys. The
address 10.0.255.1 comes before 10.1.0.0, whose prefix length is shorter, and before whatever comes
behind that. -/
theorem compare_toKey_exact_versions :
    let r : AddressRange := ⟨.v4, 0xfffffffe, 0xffffffff⟩
    let r' : AddressRange := ⟨.v6, 0, 2 ^ 128 - 1⟩
    let s : Section := ⟨.v4, [⟨10, 10⟩, ⟨0, 0⟩, ⟨255, 255⟩, ⟨1, 1⟩], some 32⟩
    let t : Section := ⟨.v4, [⟨10, 10⟩, ⟨1, 1⟩, ⟨0, 0⟩, ⟨0, 0⟩], some 8⟩
    (r.WellFormed ∧ r'.WellFormed ∧ s.WellFormed ∧ t.WellFormed) ∧
      compare r.toKey r'.toKey = .lt ∧ compare s.toKey t.toKey = .lt ∧ s.toKey ≠ t.toKey ∧
      ∀ u, (compare t u).isLE → (compare s u).isLE := by
  intro r r' s t
  have hr : r.WellFormed := by decide
  have hr' : r'.WellFormed := by decide
  have hs : s.WellFormed := ⟨by decide, by decide, by decide, by decide⟩
  have ht : t.WellFormed := ⟨by decide, by decide, by decide, by decide⟩
  obtain ⟨hrange, ⟨-, hkey⟩, -, hsingle⟩ := compare_toKey_exact r r' s t t hr hr' hs ht
  have hst : compare s t = .lt := by decide
  refine ⟨⟨hr, hr', hs, ht⟩, hrange.trans (by decide), ?_, fun heq => ?_, fun u => ?_⟩
  · exact (hsingle (by decide) (by decide)).trans hst
  · rw [← hkey, hst] at heq
    cases heq
  · exact (compare_toKey_exact r r' s t u hr hr' hs ht).2.2.1.2.2.1 (hst ▸ rfl)

end IpSpace
