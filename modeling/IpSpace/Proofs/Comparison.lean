import IpSpace.Proofs.AddressWalks
import IpSpace.Proofs.Covers

/-!
# Sections compared as sets of addresses

A section compares its segments one by one, with their ends alone. This module says which relations
between sets of addresses are decided in that way (`Section.comparison_exact`).

* One section contains another if it holds the lowest and the highest address of the other
(`Section.contains_iff_ends`); by the product structure it then holds everything else of it. * A box
that is an interval is a run: behind a segment with several values, the last word with the lower end
and the first word with the next value lie within the interval, so all digits occur there
(`isRun_of_box_eq_Icc`). Hence the test for sequential sections fails only where there is a gap.
-/

namespace IpSpace

/-! ## Bounds within bounds -/

variable {as bs : List Bounds} {ds : List Nat} {width : Nat}

/-- Bounds hold other ones that are not empty if they hold both ends. -/
theorem Bounds.contains_iff_ends {a b : Bounds} (hb : b.lower ≤ b.upper) :
    a.contains b = true ↔ b.lower ∈ a ∧ b.upper ∈ a := by
  rw [contains, Bool.and_eq_true, decide_eq_true_iff, decide_eq_true_iff, mem_iff, mem_iff]
  omega

/-- Bounds hold other ones segment by segment if their ends can be picked. -/
theorem forall₂_contains_iff (hb : ∀ b ∈ bs, b.lower ≤ b.upper) :
    List.Forall₂ (fun a b => a.contains b = true) as bs ↔
      Picks as (bs.map (·.lower)) ∧ Picks as (bs.map (·.upper)) := by
  induction bs generalizing as with
  | nil => simp
  | cons b bs ih =>
      rw [List.forall_mem_cons] at hb
      cases as with
      | nil => simp
      | cons a as =>
          rw [List.forall₂_cons, List.map_cons, List.map_cons, picks_cons, picks_cons, ih hb.2,
            Bounds.contains_iff_ends hb.1]
          exact and_and_and_comm

/-- What can be picked from bounds can be picked from wider ones. -/
theorem Picks.of_contains (hds : Picks bs ds)
    (h : List.Forall₂ (fun a b => a.contains b = true) as bs) : Picks as ds := by
  induction h generalizing ds with
  | nil => exact hds
  | cons hab _ ih =>
      obtain ⟨d, rest, hd, hrest, rfl⟩ := List.forall₂_cons_left_iff.1 hds
      rw [Bounds.contains, Bool.and_eq_true, decide_eq_true_iff, decide_eq_true_iff] at hab
      refine picks_cons.2 ⟨⟨?_, ?_⟩, ih hrest⟩
      · exact Nat.le_trans hab.1 hd.1
      · exact Nat.le_trans hd.2 hab.2

/-! ## Boxes without gaps -/

/-- **A box that is an interval is a run.** If the first segment has several values, the interval
goes from one of them to the next, and passes through every word of the others on its way. -/
theorem isRun_of_box_eq_Icc (h : ∀ b ∈ bs, b.Within width)
    (hbox : box width bs = Set.Icc (boxLower width bs) (boxUpper width bs)) : IsRun width bs := by
  induction bs with
  | nil => trivial
  | cons b bs ih =>
      rw [List.forall_mem_cons] at h
      obtain ⟨hb, hrest⟩ := h
      have hpos := Nat.two_pow_pos (width * bs.length)
      have hle := hb.lower_le_upper
      have hlower := lt_of_mem_box (boxLower_mem hrest)
      have hupper := lt_of_mem_box (boxUpper_mem hrest)
      -- Membership in the interval decides which words may stand behind a first digit.
      have hmem : ∀ d r, r < 2 ^ (width * bs.length) →
          ((d ∈ b ∧ r ∈ box width bs) ↔
            b.lower * 2 ^ (width * bs.length) + boxLower width bs
                ≤ d * 2 ^ (width * bs.length) + r ∧
              d * 2 ^ (width * bs.length) + r
                ≤ b.upper * 2 ^ (width * bs.length) + boxUpper width bs) := by
        intro d r hr
        rw [← mul_add_mem_box_cons hb.upper_lt hr, hbox, Set.mem_Icc, boxLower_cons, boxUpper_cons]
      refine ⟨hb, ?_⟩
      rcases Nat.lt_or_eq_of_le hle with hlt | heq
      · left
        have hnext := Nat.mul_le_mul_right (2 ^ (width * bs.length)) (Nat.succ_le_of_lt hlt)
        rw [Nat.succ_mul] at hnext
        have hfirst : 0 ∈ box width bs :=
          ((hmem (b.lower + 1) 0 hpos).2 (by rw [Nat.succ_mul]; omega)).2
        have hlast : 2 ^ (width * bs.length) - 1 ∈ box width bs :=
          ((hmem b.lower _ (by omega)).2 (by omega)).2
        have hzero := (box_subset_Icc hrest hfirst).1
        have hmax := (box_subset_Icc hrest hlast).2
        exact eq_full_of_boxEnds hrest (by omega) (by omega)
      · right
        refine ⟨heq, ih hrest ?_⟩
        ext r
        rw [Set.mem_Icc]
        by_cases hr : r < 2 ^ (width * bs.length)
        · have hiff := hmem b.lower r hr
          rw [and_iff_right hb.lower_mem, ← heq] at hiff
          rw [hiff]
          omega
        · constructor
          · exact fun hbox => absurd (lt_of_mem_box hbox) hr
          · intro hends
            omega

namespace Section

variable {s other : Section}

/-! ## The tests of a section -/

theorem contains_iff_forall₂ (hs : s.WellFormed) (ho : other.WellFormed) : s.contains other = true ↔
    s.version = other.version ∧
      List.Forall₂ (fun a b => a.contains b = true) s.bounds other.bounds := by
  rw [contains, Bool.and_eq_true, beq_iff_eq, List.all_eq_true, List.forall₂_iff_zip]
  refine and_congr_right fun hversion => ?_
  rw [hs.length_bounds, ho.length_bounds, hversion, and_iff_right rfl]
  exact ⟨fun hall _ _ hpair => hall _ hpair, fun hall pair hpair => hall hpair⟩

/-- One section contains another of its version if it holds the lowest and the highest address of
that. -/
theorem contains_iff_ends (hs : s.WellFormed) (ho : other.WellFormed) : s.contains other = true ↔
    s.version = other.version ∧ other.lowerValue ∈ s.values ∧ other.upperValue ∈ s.values := by
  rw [contains_iff_forall₂ hs ho]
  refine and_congr_right fun hversion => ?_
  have hlower := hversion ▸ lowerValue_le_maxValue ho
  have hupper := hversion ▸ upperValue_le_maxValue ho
  rw [forall₂_contains_iff ho.lower_le_upper, ← split_lowerValue ho, ← split_upperValue ho,
    ← hversion]
  exact and_congr (and_iff_right hlower).symm (and_iff_right hupper).symm

/-- **One section contains another exactly if it holds all of its addresses.** -/
theorem contains_iff_subset (hs : s.WellFormed) (ho : other.WellFormed) :
    s.contains other = true ↔ s.version = other.version ∧ other.values ⊆ s.values := by
  rw [contains_iff_ends hs ho]
  refine and_congr_right fun hversion => ?_
  constructor
  · rintro ⟨hlower, hupper⟩ x hx
    have hwithin : List.Forall₂ (fun a b => a.contains b = true) s.bounds other.bounds := by
      rw [forall₂_contains_iff ho.lower_le_upper, ← split_lowerValue ho, ← split_upperValue ho,
        ← hversion]
      exact ⟨hlower.2, hupper.2⟩
    obtain ⟨hmax, hpicks⟩ := (mem_values_of_version hversion).1 hx
    exact ⟨hmax, hpicks.of_contains hwithin⟩
  · intro hsubset
    exact ⟨hsubset (lowerValue_mem ho), hsubset (upperValue_mem ho)⟩

/-- **Sections of one version overlap exactly if they share an address.** -/
theorem overlaps_iff_nonempty (hs : s.WellFormed) (ho : other.WellFormed) :
    s.overlaps other = true ↔
      s.version = other.version ∧ (s.values ∩ other.values).Nonempty := by
  constructor
  · intro hover
    have hversion := ((overlaps_iff_meet hs ho).1 hover).1
    rw [overlaps_iff_not_disjoint hs ho hversion, Set.not_disjoint_iff_nonempty_inter] at hover
    exact ⟨hversion, hover⟩
  · rintro ⟨hversion, hshared⟩
    rwa [overlaps_iff_not_disjoint hs ho hversion, Set.not_disjoint_iff_nonempty_inter]

/-- **The test for sequential sections passes exactly those without gaps.** -/
theorem isSequential_iff_isInterval (h : s.WellFormed) : s.isSequential = true ↔ s.IsInterval := by
  refine ⟨isInterval_of_isSequential h, fun hinterval => ?_⟩
  rw [IsInterval, values_eq_box h.length_bounds, lowerValue_eq h, upperValue_eq h] at hinterval
  exact (isSequential_iff h).2 (isRun_of_box_eq_Icc h.within hinterval)

/-- **A section counts its addresses.** -/
theorem ncard_values (h : s.WellFormed) : s.values.ncard = s.count := by
  obtain ⟨xs, -, hxs, hlength⟩ := exists_tuples_addresses h
  rw [hxs.ncard_eq, hlength]

theorem finite_values (h : s.WellFormed) : s.values.Finite :=
  (Set.finite_Icc _ _).subset (values_subset_Icc h)

/-- **Comparing sections compares sets of addresses.** A section contains another one exactly if
both have one version and every address of the other is one of its own, and overlaps it exactly if
both have one version and share an address. It is sequential exactly if it holds every address from
its lowest to its highest. It counts its addresses, of which its lower value is the least and its
upper value the greatest. -/
theorem comparison_exact (s other : Section) (hs : s.WellFormed) (ho : other.WellFormed) :
    (s.contains other = true ↔ s.version = other.version ∧ other.values ⊆ s.values) ∧
    (s.overlaps other = true ↔ s.version = other.version ∧ (s.values ∩ other.values).Nonempty) ∧
    (s.isSequential = true ↔ s.values = Set.Icc s.lowerValue s.upperValue) ∧
    (s.values.Finite ∧ s.values.ncard = s.count) ∧
    IsLeast s.values s.lowerValue ∧ IsGreatest s.values s.upperValue :=
  ⟨contains_iff_subset hs ho, overlaps_iff_nonempty hs ho, isSequential_iff_isInterval hs,
    ⟨finite_values hs, ncard_values hs⟩, isLeast_lowerValue hs, isGreatest_upperValue hs⟩

/-- The section 10.1-2.0-255.0-254 overlaps 10.2-3.7.250-255 and does not contain it. It lacks one
address in 256, so it is not sequential. -/
theorem comparison_exact_gaps :
    let s : Section := ⟨.v4, [⟨10, 10⟩, ⟨1, 2⟩, ⟨0, 255⟩, ⟨0, 254⟩], some 8⟩
    let t : Section := ⟨.v4, [⟨10, 10⟩, ⟨2, 3⟩, ⟨7, 7⟩, ⟨250, 255⟩], none⟩
    s.WellFormed ∧ t.WellFormed ∧ ¬ t.values ⊆ s.values ∧ (s.values ∩ t.values).Nonempty ∧
      s.values ≠ Set.Icc s.lowerValue s.upperValue ∧ s.values.ncard = 130560 ∧
      IsGreatest s.values 167968766 := by
  intro s t
  have hs : s.WellFormed := ⟨rfl, by decide, by decide, by decide⟩
  have ht : t.WellFormed := ⟨rfl, by decide, by decide, by decide⟩
  obtain ⟨hcontains, hoverlaps, hsequential, ⟨-, hcount⟩, -, hgreatest⟩ :=
    comparison_exact s t hs ht
  have hnot : s.contains t = false := by decide
  have hgaps : s.isSequential = false := by decide
  have hvalues : s.count = 130560 ∧ s.upperValue = 167968766 := by decide
  refine ⟨hs, ht, fun hsubset => ?_, (hoverlaps.1 (by decide)).2, fun hinterval => ?_, ?_, ?_⟩
  · exact Bool.false_ne_true (hnot.symm.trans (hcontains.2 ⟨rfl, hsubset⟩))
  · exact Bool.false_ne_true (hgaps.symm.trans (hsequential.2 hinterval))
  · exact hcount.trans hvalues.1
  · exact hvalues.2 ▸ hgreatest

end Section

end IpSpace
