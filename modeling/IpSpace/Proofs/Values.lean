import IpSpace.AddressRange.Basic
import IpSpace.Proofs.Digits
import Mathlib.Data.List.Forall2
import Mathlib.Order.Interval.Set.Basic

/-!
# Value sets

What a range, a section or a list of them stands for is a set of address values. The theory of the
library is stated about these sets: an operation is right if the values of its result are the ones
that the values of its operands call for.

A section is a product of bounds, one per segment. `box` is the same product for words of any number
of digits; it can be taken apart one digit at a time (`mem_box_cons`), and a well-formed section has
the values of its box (`Section.values_eq_box`).
-/

namespace IpSpace

open Digits (Fit)

/-! ## Bounds -/

namespace Bounds

/-- The values from the lower to the upper end. -/
instance : Membership Nat Bounds where
  mem b d := b.lower ≤ d ∧ d ≤ b.upper

theorem mem_iff {b : Bounds} {d : Nat} : d ∈ b ↔ b.lower ≤ d ∧ d ≤ b.upper :=
  Iff.rfl

@[simp]
theorem mem_single {d e : Nat} : e ∈ single d ↔ e = d := by
  rw [mem_iff]
  simp only [single]
  omega

@[simp]
theorem mem_full {width d : Nat} : d ∈ full width ↔ d < 2 ^ width := by
  have := Nat.two_pow_pos width
  rw [mem_iff]
  simp only [full]
  omega

/-- Bounds of digits: not empty, and no wider than a digit. -/
structure Within (width : Nat) (b : Bounds) : Prop where
  lower_le_upper : b.lower ≤ b.upper
  upper_lt : b.upper < 2 ^ width

theorem Within.lower_mem {width : Nat} {b : Bounds} (h : b.Within width) : b.lower ∈ b :=
  ⟨Nat.le_refl _, h.lower_le_upper⟩

theorem Within.upper_mem {width : Nat} {b : Bounds} (h : b.Within width) : b.upper ∈ b :=
  ⟨h.lower_le_upper, Nat.le_refl _⟩

theorem within_single {width d : Nat} (hd : d < 2 ^ width) : (single d).Within width :=
  ⟨Nat.le_refl _, hd⟩

theorem within_full (width : Nat) : (full width).Within width where
  lower_le_upper := Nat.zero_le _
  upper_lt := Nat.sub_lt (Nat.two_pow_pos width) Nat.one_pos

end Bounds

/-! ## Picking digits -/

/-- One digit within each of the bounds. -/
abbrev Picks (bounds : List Bounds) (digits : List Nat) : Prop :=
  List.Forall₂ (fun b d => d ∈ b) bounds digits

/-- A tuple is picked segment by segment. -/
theorem picks_cons {b : Bounds} {bs : List Bounds} {d : Nat} {ds : List Nat} :
    Picks (b :: bs) (d :: ds) ↔ d ∈ b ∧ Picks bs ds :=
  List.forall₂_cons

/-- Bounds of single values leave no choice. -/
theorem picks_single {digits ds : List Nat} :
    Picks (digits.map Bounds.single) ds ↔ ds = digits := by
  induction digits generalizing ds with
  | nil => simp
  | cons d digits ih =>
      cases ds with
      | nil => simp
      | cons e ds => simp [ih]

/-! ## Boxes -/

/-- The words whose digits, as many as there are bounds, each lie within their bounds. -/
def box (width : Nat) (bounds : List Bounds) : Set Nat :=
  {x | x < 2 ^ (width * bounds.length) ∧ Picks bounds (Digits.split width bounds.length x)}

section Box

variable {width : Nat} {b : Bounds} {bs : List Bounds}

theorem mem_box_nil {x : Nat} : x ∈ box width [] ↔ x = 0 := by
  simp [box, Digits.split]

/-- A word of a box has no more digits than the box. -/
theorem lt_of_mem_box {x : Nat} (hx : x ∈ box width bs) : x < 2 ^ (width * bs.length) :=
  hx.1

/-- A word is in a box if its first digit is in the first bounds and its rest in the box of the
others. -/
theorem mem_box_cons (hb : b.upper < 2 ^ width) {x : Nat} :
    x ∈ box width (b :: bs) ↔
      x / 2 ^ (width * bs.length) ∈ b ∧ x % 2 ^ (width * bs.length) ∈ box width bs := by
  have hrest : x % 2 ^ (width * bs.length) < 2 ^ (width * bs.length) :=
    Nat.mod_lt _ (Nat.two_pow_pos _)
  constructor
  · rintro ⟨hx, h⟩
    rw [List.length_cons] at hx h
    rw [Digits.split_succ hx, picks_cons] at h
    exact ⟨h.1, hrest, h.2⟩
  · rintro ⟨hfirst, -, h⟩
    have hx : x < 2 ^ (width * (bs.length + 1)) := by
      rw [← Digits.div_mul_add_mod x (2 ^ (width * bs.length))]
      exact Digits.mul_add_lt (Nat.lt_of_le_of_lt hfirst.2 hb) hrest
    refine ⟨hx, ?_⟩
    rw [List.length_cons, Digits.split_succ hx, picks_cons]
    exact ⟨hfirst, h⟩

/-- `mem_box_cons` for a word given by its first digit and its rest. -/
theorem mul_add_mem_box_cons (hb : b.upper < 2 ^ width) {d r : Nat}
    (hr : r < 2 ^ (width * bs.length)) :
    d * 2 ^ (width * bs.length) + r ∈ box width (b :: bs) ↔ d ∈ b ∧ r ∈ box width bs := by
  rw [mem_box_cons hb, (Digits.mul_add_div_mod hr).1, (Digits.mul_add_div_mod hr).2]

/-- The box of all bounds holds every word. -/
theorem box_full (n : Nat) :
    box width (List.replicate n (Bounds.full width)) = Set.Iio (2 ^ (width * n)) := by
  ext x
  induction n generalizing x with
  | zero => simp [mem_box_nil]
  | succ n ih =>
      rw [List.replicate_succ, mem_box_cons (Bounds.within_full width).upper_lt,
        List.length_replicate, ih, Bounds.mem_full, Set.mem_Iio, Set.mem_Iio]
      constructor
      · rintro ⟨hfirst, hrest⟩
        rw [← Digits.div_mul_add_mod x (2 ^ (width * n))]
        exact Digits.mul_add_lt hfirst hrest
      · exact fun hx => ⟨Digits.div_lt_of_lt hx, Nat.mod_lt _ (Nat.two_pow_pos _)⟩

/-- The lowest word of a box. -/
def boxLower (width : Nat) (bounds : List Bounds) : Nat :=
  Digits.value width (bounds.map (·.lower))

/-- The highest word of a box. -/
def boxUpper (width : Nat) (bounds : List Bounds) : Nat :=
  Digits.value width (bounds.map (·.upper))

/-- The lowest word begins with the lower end of the first segment. -/
theorem boxLower_cons :
    boxLower width (b :: bs) = b.lower * 2 ^ (width * bs.length) + boxLower width bs := by
  simp [boxLower, Digits.value]

/-- The highest word begins with the upper end of the first segment. -/
theorem boxUpper_cons :
    boxUpper width (b :: bs) = b.upper * 2 ^ (width * bs.length) + boxUpper width bs := by
  simp [boxUpper, Digits.value]

/-- The lower ends make up a word of the box. -/
theorem boxLower_mem (h : ∀ b ∈ bs, b.Within width) : boxLower width bs ∈ box width bs := by
  induction bs with
  | nil => rw [mem_box_nil]; rfl
  | cons b bs ih =>
      rw [List.forall_mem_cons] at h
      rw [boxLower_cons, mul_add_mem_box_cons h.1.upper_lt (ih h.2).1]
      exact ⟨h.1.lower_mem, ih h.2⟩

/-- The upper ends make up a word of the box. -/
theorem boxUpper_mem (h : ∀ b ∈ bs, b.Within width) : boxUpper width bs ∈ box width bs := by
  induction bs with
  | nil => rw [mem_box_nil]; rfl
  | cons b bs ih =>
      rw [List.forall_mem_cons] at h
      rw [boxUpper_cons, mul_add_mem_box_cons h.1.upper_lt (ih h.2).1]
      exact ⟨h.1.upper_mem, ih h.2⟩

/-- A box lies between its lowest and its highest word. -/
theorem box_subset_Icc (h : ∀ b ∈ bs, b.Within width) :
    box width bs ⊆ Set.Icc (boxLower width bs) (boxUpper width bs) := by
  intro x hx
  induction bs generalizing x with
  | nil =>
      rw [mem_box_nil] at hx
      simp [hx, boxLower, boxUpper, Digits.value]
  | cons b bs ih =>
      rw [List.forall_mem_cons] at h
      rw [mem_box_cons h.1.upper_lt] at hx
      obtain ⟨hlower, hupper⟩ := ih h.2 hx.2
      have hdiv := Digits.div_mul_add_mod x (2 ^ (width * bs.length))
      have h1 := Nat.mul_le_mul_right (2 ^ (width * bs.length)) hx.1.1
      have h2 := Nat.mul_le_mul_right (2 ^ (width * bs.length)) hx.1.2
      rw [Set.mem_Icc, boxLower_cons, boxUpper_cons]
      omega

end Box

/-! ## Ranges -/

namespace AddressRange

/-- The values of a range. -/
def values (r : AddressRange) : Set Nat :=
  Set.Icc r.lower r.upper

/-- The values of one version that the ranges of a list cover. -/
def covered (ranges : List AddressRange) (version : Version) : Set Nat :=
  {x | ∃ r ∈ ranges, r.version = version ∧ x ∈ r.values}

theorem mem_values {r : AddressRange} {x : Nat} : x ∈ r.values ↔ r.lower ≤ x ∧ x ≤ r.upper :=
  Iff.rfl

/-- An address is covered if some range of its version has it. -/
theorem mem_covered {ranges : List AddressRange} {version : Version} {x : Nat} :
    x ∈ covered ranges version ↔ ∃ r ∈ ranges, r.version = version ∧ x ∈ r.values :=
  Iff.rfl

theorem covered_nil (version : Version) : covered [] version = ∅ := by
  simp [covered]

theorem mem_covered_cons {r : AddressRange} {rs : List AddressRange} {version : Version} {x : Nat} :
    x ∈ covered (r :: rs) version ↔
      (r.version = version ∧ x ∈ r.values) ∨ x ∈ covered rs version := by
  simp only [mem_covered, List.mem_cons, exists_eq_or_imp]

end AddressRange

/-! ## Sections -/

namespace Section

/-- The values of a section: the addresses each of whose segments lies within its bounds. -/
def values (s : Section) : Set Nat :=
  {x | x ≤ s.version.maxValue ∧ Picks s.bounds (s.version.split x)}

/-- The values of the sections of a list. -/
def union (sections : List Section) : Set Nat :=
  {x | ∃ s ∈ sections, x ∈ s.values}

/-- Every value of a section lies below every value of the sections after it. -/
def Ascending (sections : List Section) : Prop :=
  sections.Pairwise fun s t => ∀ x ∈ s.values, ∀ y ∈ t.values, x < y

/-- An address is in the union if some section has it. -/
theorem mem_union {sections : List Section} {x : Nat} :
    x ∈ union sections ↔ ∃ s ∈ sections, x ∈ s.values :=
  Iff.rfl

variable {s : Section}

/-- The bounds of a well-formed section are bounds of its segments. -/
theorem WellFormed.within (h : s.WellFormed) : ∀ b ∈ s.bounds, b.Within s.version.segmentBits :=
  fun b hb => ⟨h.lower_le_upper b hb, Version.le_segmentMax_iff.1 (h.upper_le_max b hb)⟩

/-- Bounds of segments, one per segment, make a well-formed section. -/
theorem wellFormed_of_within (hlen : s.bounds.length = s.version.segmentCount)
    (hb : ∀ b ∈ s.bounds, b.Within s.version.segmentBits)
    (hp : ∀ p ∈ s.prefixLen, p ≤ s.version.bitCount) : s.WellFormed where
  length_bounds := hlen
  lower_le_upper b h := (hb b h).lower_le_upper
  upper_le_max b h := Version.le_segmentMax_iff.2 (hb b h).upper_lt
  prefixLen_le := hp

/-- Another prefix length within the address makes another section. -/
theorem wellFormed_withPrefixLen (h : s.WellFormed) {prefixLen : Option Nat}
    (hp : ∀ p ∈ prefixLen, p ≤ s.bitCount) : (s.withPrefixLen prefixLen).WellFormed :=
  ⟨h.length_bounds, h.lower_le_upper, h.upper_le_max, hp⟩

/-- The values of a section are the words of its box. -/
theorem values_eq_box (hlen : s.bounds.length = s.version.segmentCount) :
    s.values = box s.version.segmentBits s.bounds := by
  ext x
  rw [values, box, Set.mem_ofPred_eq, Set.mem_ofPred_eq, Version.le_maxValue_iff, Version.split,
    hlen]

/-- The lower ends are digits of an address. -/
theorem fit_lower (h : s.WellFormed) : Fit s.version.segmentBits (s.bounds.map (·.lower)) := by
  intro d hd
  obtain ⟨b, hb, rfl⟩ := List.mem_map.1 hd
  exact Nat.lt_of_le_of_lt (h.within b hb).lower_le_upper (h.within b hb).upper_lt

/-- The upper ends are digits of an address. -/
theorem fit_upper (h : s.WellFormed) : Fit s.version.segmentBits (s.bounds.map (·.upper)) := by
  intro d hd
  obtain ⟨b, hb, rfl⟩ := List.mem_map.1 hd
  exact (h.within b hb).upper_lt

/-- The lowest address of a section is the lowest word of its box. -/
theorem lowerValue_eq (h : s.WellFormed) :
    s.lowerValue = boxLower s.version.segmentBits s.bounds :=
  Version.join_eq_value (by simp [h.length_bounds]) (fit_lower h)

/-- The highest address of a section is the highest word of its box. -/
theorem upperValue_eq (h : s.WellFormed) :
    s.upperValue = boxUpper s.version.segmentBits s.bounds :=
  Version.join_eq_value (by simp [h.length_bounds]) (fit_upper h)

/-- The lowest address of a section is one of its addresses. -/
theorem lowerValue_mem (h : s.WellFormed) : s.lowerValue ∈ s.values := by
  rw [values_eq_box h.length_bounds, lowerValue_eq h]
  exact boxLower_mem h.within

/-- The highest address of a section is one of its addresses. -/
theorem upperValue_mem (h : s.WellFormed) : s.upperValue ∈ s.values := by
  rw [values_eq_box h.length_bounds, upperValue_eq h]
  exact boxUpper_mem h.within

/-- A section lies between its lowest and its highest address. -/
theorem values_subset_Icc (h : s.WellFormed) :
    s.values ⊆ Set.Icc s.lowerValue s.upperValue := by
  rw [values_eq_box h.length_bounds, lowerValue_eq h, upperValue_eq h]
  exact box_subset_Icc h.within

/-- A section is not empty. -/
theorem values_nonempty (h : s.WellFormed) : s.values.Nonempty :=
  ⟨_, lowerValue_mem h⟩

theorem le_maxValue_of_mem_values {x : Nat} (hx : x ∈ s.values) : x ≤ s.version.maxValue :=
  hx.1

theorem lowerValue_le_maxValue (h : s.WellFormed) : s.lowerValue ≤ s.version.maxValue :=
  le_maxValue_of_mem_values (lowerValue_mem h)

theorem upperValue_le_maxValue (h : s.WellFormed) : s.upperValue ≤ s.version.maxValue :=
  le_maxValue_of_mem_values (upperValue_mem h)

/-- A section whose values are an interval begins and ends with it. -/
theorem ends_of_values_eq_Icc (h : s.WellFormed) {lower upper : Nat} (hle : lower ≤ upper)
    (hvalues : s.values = Set.Icc lower upper) : s.lowerValue = lower ∧ s.upperValue = upper := by
  have hl : s.lowerValue ∈ Set.Icc lower upper := hvalues ▸ lowerValue_mem h
  have hu : s.upperValue ∈ Set.Icc lower upper := hvalues ▸ upperValue_mem h
  have hsub : Set.Icc lower upper ⊆ Set.Icc s.lowerValue s.upperValue :=
    hvalues ▸ values_subset_Icc h
  have hlower := (hsub ⟨Nat.le_refl _, hle⟩).1
  have hupper := (hsub ⟨hle, Nat.le_refl _⟩).2
  exact ⟨Nat.le_antisymm hlower hl.1, Nat.le_antisymm hu.2 hupper⟩

/-- From the lowest to the highest address of a section is a range of addresses. -/
theorem wellFormed_ofSection (h : s.WellFormed) : (AddressRange.ofSection s).WellFormed :=
  ⟨(values_subset_Icc h (lowerValue_mem h)).2, upperValue_le_maxValue h⟩

/-! ## What determines a section -/

/-- The segments of the lowest address are the lower ends of the bounds. -/
theorem split_lowerValue (h : s.WellFormed) :
    s.version.split s.lowerValue = s.bounds.map (·.lower) :=
  Version.split_join (by rw [List.length_map, h.length_bounds]) (fit_lower h)

/-- The segments of the highest address are the upper ends of the bounds. -/
theorem split_upperValue (h : s.WellFormed) :
    s.version.split s.upperValue = s.bounds.map (·.upper) :=
  Version.split_join (by rw [List.length_map, h.length_bounds]) (fit_upper h)

/-- Bounds are their lower and their upper ends. -/
theorem eq_zipWith_ends (bounds : List Bounds) :
    bounds = (bounds.map (·.lower)).zipWith Bounds.mk (bounds.map (·.upper)) := by
  rw [List.zipWith_map, List.zipWith_self]
  exact (List.map_id bounds).symm

/-- The bounds of a section are those of its ends. -/
theorem bounds_eq_of_ends_eq {t : Section} (hs : s.WellFormed) (ht : t.WellFormed)
    (hversion : s.version = t.version) (hlower : s.lowerValue = t.lowerValue)
    (hupper : s.upperValue = t.upperValue) : s.bounds = t.bounds := by
  rw [eq_zipWith_ends s.bounds, eq_zipWith_ends t.bounds, ← split_lowerValue hs,
    ← split_upperValue hs, ← split_lowerValue ht, ← split_upperValue ht, hversion, hlower, hupper]

/-- Two sections with the same addresses have the same bounds: those of the lowest and of the
highest address. -/
theorem bounds_eq_of_values_eq {t : Section} (hs : s.WellFormed) (ht : t.WellFormed)
    (hversion : s.version = t.version) (hvalues : s.values = t.values) : s.bounds = t.bounds := by
  have hst := fun x (hx : x ∈ t.values) => values_subset_Icc hs (hvalues ▸ hx)
  have hts := fun x (hx : x ∈ s.values) => values_subset_Icc ht (hvalues ▸ hx)
  have hlower : s.lowerValue = t.lowerValue :=
    Nat.le_antisymm (hst _ (lowerValue_mem ht)).1 (hts _ (lowerValue_mem hs)).1
  have hupper : s.upperValue = t.upperValue :=
    Nat.le_antisymm (hts _ (upperValue_mem hs)).2 (hst _ (upperValue_mem ht)).2
  exact bounds_eq_of_ends_eq hs ht hversion hlower hupper

/-! ## Single addresses -/

/-- The section of a single address, given by its segments. -/
theorem wellFormed_ofDigits {version : Version} {digits : List Nat} {prefixLen : Option Nat}
    (hlen : digits.length = version.segmentCount) (hfit : Fit version.segmentBits digits)
    (hp : ∀ p ∈ prefixLen, p ≤ version.bitCount) :
    (ofDigits version digits prefixLen).WellFormed := by
  refine wellFormed_of_within ?_ ?_ hp
  · exact (List.length_map _).trans hlen
  · intro b hb
    obtain ⟨d, hd, rfl⟩ := List.mem_map.1 hb
    exact Bounds.within_single (hfit d hd)

theorem wellFormed_ofDigits_split (version : Version) (x : Nat) :
    (ofDigits version (version.split x) none).WellFormed :=
  wellFormed_ofDigits (version.length_split x) (version.fit_split x) (by simp)

/-- The lowest address of a section is a section. -/
theorem wellFormed_lower (h : s.WellFormed) : s.lower.WellFormed :=
  wellFormed_ofDigits (by rw [List.length_map, h.length_bounds]) (fit_lower h) h.prefixLen_le

/-- The highest address of a section is a section. -/
theorem wellFormed_upper (h : s.WellFormed) : s.upper.WellFormed :=
  wellFormed_ofDigits (by rw [List.length_map, h.length_bounds]) (fit_upper h) h.prefixLen_le

/-- The section of a single address holds this address alone. -/
theorem values_ofDigits_split {version : Version} {x : Nat} (hx : x ≤ version.maxValue)
    (prefixLen : Option Nat) : (ofDigits version (version.split x) prefixLen).values = {x} := by
  ext y
  rw [Set.mem_singleton_iff]
  constructor
  · rintro ⟨hy, hdigits⟩
    have heq : version.split y = version.split x := picks_single.1 hdigits
    rw [← Version.join_split hx, ← heq]
    exact (Version.join_split hy).symm
  · rintro rfl
    exact ⟨hx, picks_single.2 rfl⟩

/-- The lowest address of a section, by itself. -/
theorem values_lower (h : s.WellFormed) : s.lower.values = {s.lowerValue} := by
  rw [lower, ← split_lowerValue h]
  exact values_ofDigits_split (lowerValue_le_maxValue h) s.prefixLen

/-- The highest address of a section, by itself. -/
theorem values_upper (h : s.WellFormed) : s.upper.values = {s.upperValue} := by
  rw [upper, ← split_upperValue h]
  exact values_ofDigits_split (upperValue_le_maxValue h) s.prefixLen

/-- A section has one value in every segment if its lowest and its highest address are the same. -/
theorem isMultiple_eq_false_iff (h : s.WellFormed) :
    s.isMultiple = false ↔ s.lowerValue = s.upperValue := by
  have hends : s.lowerValue = s.upperValue ↔ s.bounds.map (·.lower) = s.bounds.map (·.upper) := by
    constructor
    · intro heq
      rw [← split_lowerValue h, ← split_upperValue h, heq]
    · intro heq
      rw [lowerValue, upperValue, heq]
  rw [hends, List.map_inj_left, isMultiple, List.any_eq_false]
  simp only [Bounds.isMultiple, bne_iff_ne, ne_eq, not_not]

/-- A section with one value in every segment holds its lowest address alone. -/
theorem values_eq_singleton_iff (h : s.WellFormed) {x : Nat} :
    s.values = {x} ↔ s.isMultiple = false ∧ s.lowerValue = x := by
  rw [isMultiple_eq_false_iff h]
  constructor
  · intro hvalues
    have hlower : s.lowerValue ∈ ({x} : Set Nat) := hvalues ▸ lowerValue_mem h
    have hupper : s.upperValue ∈ ({x} : Set Nat) := hvalues ▸ upperValue_mem h
    exact ⟨hlower.trans hupper.symm, hlower⟩
  · rintro ⟨heq, rfl⟩
    have hsub := values_subset_Icc h
    rw [← heq, Set.Icc_self] at hsub
    exact hsub.antisymm (Set.singleton_subset_iff.2 (lowerValue_mem h))

end Section

end IpSpace
