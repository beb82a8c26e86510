import IpSpace.AddressRange.Coalesce
import IpSpace.Proofs.Order

/-!
# Coalescing yields a normal form

`coalesce` sorts ranges and sweeps over them. One step of the sweep either absorbs the next range
into the current one, where the two together are a range again, or leaves the current one behind for
good, where the next range and so all ranges after it begin past a gap. So the result is separated
and covers what the ranges cover (`swept_sweep`). Separated lists are determined by what they cover,
so coalescing is a normal form: two lists have the same result exactly if they cover the same
addresses.
-/

namespace IpSpace.AddressRange

/-! ## Sorting -/

/-- The order in which a sweep meets ranges: by version, then by lower end. -/
def BeginsBefore (a b : AddressRange) : Prop :=
  compare a.version b.version = .lt ∨ a.version = b.version ∧ a.lower ≤ b.lower

theorem BeginsBefore.refl (a : AddressRange) : BeginsBefore a a :=
  Or.inr ⟨rfl, Nat.le_refl _⟩

theorem BeginsBefore.le {a b : AddressRange} (h : BeginsBefore a b)
    (hversion : a.version = b.version) :
    a.lower ≤ b.lower :=
  Version.of_lt_or_eq h hversion

theorem BeginsBefore.trans {a b c : AddressRange} (hab : BeginsBefore a b)
    (hbc : BeginsBefore b c) :
    BeginsBefore a c :=
  Version.lt_or_eq_trans Nat.le_trans hab hbc

/-- What comes first in the order of ranges begins first. -/
theorem beginsBefore_of_isLE {a b : AddressRange} (h : (compare a b).isLE) : BeginsBefore a b := by
  rw [compare_eq, Ordering.isLE_then_iff_or, Ordering.isLE_then_iff_or, Version.compare_eq_eq,
    Nat.compare_eq_lt, Nat.compare_eq_eq] at h
  rcases h with h | ⟨hversion, h | h⟩
  · exact Or.inl h
  · exact Or.inr ⟨hversion, Nat.le_of_lt h⟩
  · exact Or.inr ⟨hversion, Nat.le_of_eq h.1⟩

/-- Sorting by ranges puts them in the order in which a sweep is to meet them. -/
theorem pairwise_mergeSort_beginsBefore {α : Type} (range : α → AddressRange) (l : List α) :
    (l.mergeSort fun a b => (compare (range a) (range b)).isLE).Pairwise
      fun a b => BeginsBefore (range a) (range b) :=
  (pairwise_mergeSort_key range l).imp beginsBefore_of_isLE

/-! ## Sweeping -/

/-- Ranges touch if they have one version and neither begins past the other with a gap in
between. -/
theorem touches_iff {a b : AddressRange} (ha : a.lower ≤ a.upper) (hb : b.lower ≤ b.upper) :
    a.touches b ↔ b.version = a.version ∧ a.lower ≤ b.upper + 1 ∧ b.lower ≤ a.upper + 1 := by
  simp only [touches, overlaps, Bool.or_eq_true, Bool.and_eq_true, beq_iff_eq, decide_eq_true_eq]
  constructor
  · rintro (⟨⟨hversion, h1⟩, h2⟩ | ⟨hversion, h | h⟩) <;> exact ⟨hversion, by omega, by omega⟩
  · rintro ⟨hversion, h1, h2⟩
    -- Ranges that touch without an overlap are adjacent.
    by_cases hover : a.lower ≤ b.upper ∧ b.lower ≤ a.upper
    · exact Or.inl ⟨⟨hversion, hover.1⟩, hover.2⟩
    · exact Or.inr ⟨hversion, by omega⟩

/-- A range that is absorbed adds its values to the current range, and no others. -/
theorem mem_values_absorb {current r : AddressRange} (hbegins : current.lower ≤ r.lower)
    (hgap : r.lower ≤ current.upper + 1) {x : Nat} :
    x ∈ values { current with upper := max current.upper r.upper } ↔
      x ∈ current.values ∨ x ∈ r.values := by
  simp only [mem_values]
  omega

/-- What a sweep has to do with a range that does not touch the current one: all of the range lies
past a gap. -/
theorem precedes_of_not_touches {current r : AddressRange}
    (hcurrent : current.lower ≤ current.upper)
    (hr : r.lower ≤ r.upper) (hbegins : BeginsBefore current r) (htouch : ¬ current.touches r) :
    Precedes current r := by
  rcases hbegins with hbegins | ⟨hversion, hbegins⟩
  · exact Or.inl hbegins
  · rw [touches_iff hcurrent hr, not_and] at htouch
    have := htouch hversion.symm
    exact Or.inr ⟨hversion, by omega⟩

/-- What comes before a range comes before all that begins after it. -/
theorem Precedes.trans_beginsBefore {a b c : AddressRange} (hab : Precedes a b)
    (hbc : BeginsBefore b c) : Precedes a c :=
  Version.lt_or_eq_trans (by omega) hab hbc

/-- What a sweep from `current` over the ranges of `rest` has to yield. -/
structure Swept (current : AddressRange) (rest result : List AddressRange) : Prop where
  wellFormed : ∀ r ∈ result, r.WellFormed
  pairwise : result.Pairwise Precedes
  mem_covered : ∀ version x, x ∈ covered result version ↔ x ∈ covered (current :: rest) version
  begins : ∀ r ∈ result, BeginsBefore current r

/-- One step of a sweep that absorbs the next range. -/
theorem Swept.absorb {current r : AddressRange} {rest result : List AddressRange}
    (hversion : r.version = current.version) (hbegins : current.lower ≤ r.lower)
    (hgap : r.lower ≤ current.upper + 1)
    (h : Swept { current with upper := max current.upper r.upper } rest result) :
    Swept current (r :: rest) result where
  wellFormed := h.wellFormed
  pairwise := h.pairwise
  mem_covered version x := by
    rw [h.mem_covered, mem_covered_cons, mem_covered_cons, mem_covered_cons, hversion,
      mem_values_absorb hbegins hgap, ← or_assoc, ← and_or_left]
  begins := h.begins

/-- One step of a sweep that leaves the current range behind. -/
theorem Swept.emit {current r : AddressRange} {rest result : List AddressRange}
    (hcurrent : current.WellFormed) (hbegins : BeginsBefore current r)
    (hprecedes : Precedes current r) (h : Swept r rest result) :
    Swept current (r :: rest) (current :: result) where
  wellFormed := List.forall_mem_cons.2 ⟨hcurrent, h.wellFormed⟩
  pairwise := List.pairwise_cons.2
    ⟨fun s hs => hprecedes.trans_beginsBefore (h.begins s hs), h.pairwise⟩
  mem_covered version x := by
    rw [mem_covered_cons, mem_covered_cons, h.mem_covered]
  begins := List.forall_mem_cons.2
    ⟨BeginsBefore.refl current, fun s hs => hbegins.trans (h.begins s hs)⟩

/-- A sweep over sorted ranges yields separated ranges that cover the same addresses. -/
theorem swept_sweep {current : AddressRange} {rest : List AddressRange}
    (hwf : ∀ r ∈ current :: rest, r.WellFormed)
    (hsorted : (current :: rest).Pairwise BeginsBefore) :
    Swept current rest (sweep current rest) := by
  induction rest generalizing current with
  | nil =>
      refine ⟨hwf, List.pairwise_singleton _ _, fun _ _ => Iff.rfl, ?_⟩
      exact List.forall_mem_singleton.2 (BeginsBefore.refl current)
  | cons r rest ih =>
      rw [List.forall_mem_cons] at hwf
      obtain ⟨hcurrent, hrest⟩ := hwf
      rw [List.pairwise_cons] at hsorted
      obtain ⟨hfirst, hsorted⟩ := hsorted
      have hr := hrest r List.mem_cons_self
      have hbegins := hfirst r List.mem_cons_self
      rw [sweep]
      split
      case isTrue htouch =>
        obtain ⟨hversion, -, hgap⟩ :=
          (touches_iff hcurrent.lower_le_upper hr.lower_le_upper).1 htouch
        -- The longer range begins where the current one does, so the rest is still sorted.
        refine Swept.absorb hversion (hbegins.le hversion.symm) hgap (ih ?_ ?_)
        · refine List.forall_mem_cons.2 ⟨⟨?_, ?_⟩, fun s hs => hrest s (List.mem_cons_of_mem _ hs)⟩
          · exact Nat.le_trans hcurrent.lower_le_upper (Nat.le_max_left _ _)
          · exact Nat.max_le.2 ⟨hcurrent.upper_le_max, hversion ▸ hr.upper_le_max⟩
        · exact List.pairwise_cons.2
            ⟨fun s hs => hfirst s (List.mem_cons_of_mem _ hs), (List.pairwise_cons.1 hsorted).2⟩
      case isFalse htouch =>
        have hprecedes :=
          precedes_of_not_touches hcurrent.lower_le_upper hr.lower_le_upper hbegins htouch
        exact Swept.emit hcurrent hbegins hprecedes (ih hrest hsorted)

/-! ## Coalescing -/

/-- Sorting and sweeping yields ranges of addresses that are separated and cover what the ranges
cover. -/
private theorem coalesce_spec {ranges : List AddressRange} (h : ∀ r ∈ ranges, r.WellFormed) :
    (∀ r ∈ coalesce ranges, r.WellFormed) ∧ (coalesce ranges).Pairwise Precedes ∧
      ∀ version x, x ∈ covered (coalesce ranges) version ↔ x ∈ covered ranges version := by
  have hperm := List.mergeSort_perm ranges fun a b => (compare a b).isLE
  have hsorted : (ranges.mergeSort fun a b => (compare a b).isLE).Pairwise BeginsBefore :=
    pairwise_mergeSort_beginsBefore id ranges
  have hcovered : ∀ version x,
      x ∈ covered (ranges.mergeSort fun a b => (compare a b).isLE) version
        ↔ x ∈ covered ranges version := by
    intro version x
    simp only [mem_covered, hperm.mem_iff]
  simp only [← hcovered]
  rw [coalesce]
  split
  case h_1 hnil => simp [hnil]
  case h_2 r rs hcons =>
    rw [hcons] at hperm hsorted ⊢
    have hswept := swept_sweep (fun s hs => h s (hperm.mem_iff.1 hs)) hsorted
    exact ⟨hswept.wellFormed, hswept.pairwise, hswept.mem_covered⟩

section

variable {ranges others : List AddressRange} (h : ∀ r ∈ ranges, r.WellFormed)

include h

/-- Coalescing yields ranges of addresses. -/
theorem wellFormed_of_mem_coalesce : ∀ r ∈ coalesce ranges, r.WellFormed :=
  (coalesce_spec h).1

/-- Coalescing yields separated ranges. -/
theorem separated_coalesce : Separated (coalesce ranges) :=
  ⟨fun r hr => (wellFormed_of_mem_coalesce h r hr).lower_le_upper, (coalesce_spec h).2.1⟩

/-- Coalescing keeps what a list covers. -/
theorem covered_coalesce (version : Version) :
    covered (coalesce ranges) version = covered ranges version :=
  Set.ext ((coalesce_spec h).2.2 version)

/-- Two lists coalesce to the same ranges exactly if they cover the same addresses. -/
theorem coalesce_eq_coalesce_iff (hothers : ∀ r ∈ others, r.WellFormed) :
    coalesce ranges = coalesce others ↔
      ∀ version, covered ranges version = covered others version := by
  constructor
  · intro heq version
    rw [← covered_coalesce h, ← covered_coalesce hothers, heq]
  · intro hcovered
    refine (separated_coalesce h).eq_of_covered_eq (separated_coalesce hothers) fun version => ?_
    rw [covered_coalesce h, covered_coalesce hothers, hcovered]

end

/-- **Coalescing is a normal form.** The result holds ranges of addresses, is sorted by version
and lower end, with a gap between any two ranges of one version, and covers what the ranges cover.
Two lists have the same result exactly if they cover the same addresses of each version; in
particular a result coalesces to itself, and neither the order of the ranges nor how often each
occurs makes a difference. -/
theorem coalesce_normal_form (ranges : List AddressRange) (h : ∀ r ∈ ranges, r.WellFormed) :
    (∀ r ∈ coalesce ranges, r.WellFormed) ∧
    ((coalesce ranges).Pairwise fun a b =>
      compare a.version b.version = .lt ∨ a.version = b.version ∧ a.lower < b.lower) ∧
    ((coalesce ranges).Pairwise fun a b => a.version = b.version → a.upper + 1 < b.lower) ∧
    (∀ version, covered (coalesce ranges) version = covered ranges version) ∧
    (∀ others : List AddressRange, (∀ r ∈ others, r.WellFormed) →
      (coalesce ranges = coalesce others ↔
        ∀ version, covered ranges version = covered others version)) ∧
    coalesce (coalesce ranges) = coalesce ranges ∧
    ∀ others : List AddressRange, (∀ r, r ∈ others ↔ r ∈ ranges) →
      coalesce others = coalesce ranges := by
  have hsep := separated_coalesce h
  refine ⟨wellFormed_of_mem_coalesce h, ?_, hsep.pairwise.imp Precedes.gap, covered_coalesce h,
    fun others => coalesce_eq_coalesce_iff h, ?_, fun others hmem => ?_⟩
  · refine hsep.pairwise.imp_of_mem fun {a b} ha _ hab => hab.imp_right fun hgap => ⟨hgap.1, ?_⟩
    have := hsep.lower_le_upper a ha
    omega
  · exact (coalesce_eq_coalesce_iff (wellFormed_of_mem_coalesce h) h).2 (covered_coalesce h)
  · refine (coalesce_eq_coalesce_iff (fun r hr => h r ((hmem r).1 hr)) h).2 fun version => ?_
    ext x
    simp only [mem_covered, hmem]

/-- A range that is cut right below the highest IPv6 address coalesces to the whole. -/
theorem coalesce_normal_form_highest :
    (∀ r ∈ [⟨.v6, 2 ^ 128 - 1, 2 ^ 128 - 1⟩, ⟨.v6, 0, 2 ^ 128 - 2⟩, ⟨.v4, 0, 0⟩],
      (r : AddressRange).WellFormed) ∧
    coalesce [⟨.v6, 2 ^ 128 - 1, 2 ^ 128 - 1⟩, ⟨.v6, 0, 2 ^ 128 - 2⟩, ⟨.v4, 0, 0⟩]
      = coalesce [⟨.v4, 0, 0⟩, ⟨.v6, 0, 2 ^ 128 - 1⟩] := by
  have h : ∀ r ∈ [⟨.v6, 2 ^ 128 - 1, 2 ^ 128 - 1⟩, ⟨.v6, 0, 2 ^ 128 - 2⟩, ⟨.v4, 0, 0⟩],
      (r : AddressRange).WellFormed := by
    simp only [List.forall_mem_cons]
    exact ⟨⟨by decide, by decide⟩, ⟨by decide, by decide⟩, ⟨by decide, by decide⟩, by simp⟩
  refine ⟨h, ((coalesce_normal_form _ h).2.2.2.2.1 _ ?_).2 fun version => ?_⟩
  · simp only [List.forall_mem_cons]
    exact ⟨⟨by decide, by decide⟩, ⟨by decide, by decide⟩, by simp⟩
  · ext x
    simp only [mem_covered_cons, mem_values, covered_nil]
    cases version with
    | v4 => simp
    | v6 =>
        simp
        omega

end IpSpace.AddressRange
