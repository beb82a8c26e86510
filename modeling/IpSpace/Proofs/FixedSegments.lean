import IpSpace.Proofs.Separated
import IpSpace.Proofs.Walks

/-!
# Fixing the first segments

A walk may fix the first segments of a section, one tuple of their values after the other, and keep
the ranges of the other segments. With `rest` for these ranges, the section for a tuple `t` has the
words from `v * m + l` to `v * m + u`, where `v` is the number that `t` writes, `m` the number of
words behind it, and `l` and `u` the ends of the box of `rest`. Tuples in lexicographic order write
numbers in order (`Digits.value_lt_value`), so the sections of a walk are in ascending order and
take the section apart (`Section.ascending_fixed`, `Section.union_fixed`).

Between the sections of two tuples there is a gap unless `rest` takes all words
(`Section.gap_fixed`). The walk over the runs of a section fixes the segments in front of the last
one that does not take all values. So every section that it hands out has no gaps, and there is a
gap between any two: they are the longest runs of consecutive addresses (`Section.runs_exact`).

## Shape of the proof

* `exists_handsOut_fixing`: what the walk hands out, as a list of tuples.
* `upperValue_fixed_lt`, `gap_fixed`: two sections of the list, by their ends.
* `Separated.mem_iff_isComponent`, proved for lists of ranges: separated parts are the longest ones.
-/

namespace IpSpace

open Digits (Fit)

/-! ## Words with given first digits -/

section Words

variable {width : Nat}

/-- The number that digits write, cut at any place. -/
theorem Digits.value_append (ds es : List Nat) :
    value width (ds ++ es) = value width ds * 2 ^ (width * es.length) + value width es := by
  induction ds with
  | nil => simp [value]
  | cons d ds ih =>
      rw [List.cons_append, value, value, ih, List.length_append, Nat.mul_add, Nat.pow_add,
        Nat.add_mul, Nat.mul_assoc, Nat.add_assoc]

/-- **Digits in lexicographic order write numbers in order.** -/
theorem Digits.value_lt_value {ds es : List Nat} (hd : Fit width ds) (hlen : ds.length = es.length)
    (h : ds < es) : value width ds < value width es := by
  induction ds generalizing es with
  | nil =>
      rw [List.eq_nil_of_length_eq_zero hlen.symm] at h
      exact absurd h (lt_irrefl _)
  | cons d ds ih =>
      cases es with
      | nil => cases hlen
      | cons e es =>
          rw [fit_cons] at hd
          have htail : ds.length = es.length := Nat.succ.inj hlen
          have hrest := value_lt hd.2
          rw [htail] at hrest
          rw [value, value, htail]
          rcases List.cons_lt_cons_iff.1 h with hlt | ⟨rfl, hlt⟩
          · have hmul := Nat.mul_le_mul_right (2 ^ (width * es.length)) (Nat.succ_le_of_lt hlt)
            rw [Nat.succ_mul] at hmul
            omega
          · exact Nat.add_lt_add_left (ih hd.2 htail hlt) _

/-- The ends of a box whose first digits are given. -/
theorem boxEnds_fixed (width : Nat) (t : Tuple) (rest : List Bounds) :
    boxLower width (t.map Bounds.single ++ rest)
        = Digits.value width t * 2 ^ (width * rest.length) + boxLower width rest ∧
      boxUpper width (t.map Bounds.single ++ rest)
        = Digits.value width t * 2 ^ (width * rest.length) + boxUpper width rest := by
  have hlower : (t.map Bounds.single).map (·.lower) = t := by
    rw [List.map_map]
    exact List.map_id t
  have hupper : (t.map Bounds.single).map (·.upper) = t := by
    rw [List.map_map]
    exact List.map_id t
  constructor
  · rw [boxLower, boxLower, List.map_append, hlower, Digits.value_append, List.length_map]
  · rw [boxUpper, boxUpper, List.map_append, hupper, Digits.value_append, List.length_map]

/-- Bounds take all digits if their box begins and ends as the box of all words does. -/
theorem eq_full_of_boxEnds {bounds : List Bounds} (h : ∀ b ∈ bounds, b.Within width)
    (hlower : boxLower width bounds = 0)
    (hupper : boxUpper width bounds + 1 = 2 ^ (width * bounds.length)) :
    ∀ c ∈ bounds, c = Bounds.full width := by
  induction bounds with
  | nil => simp
  | cons b bs ih =>
      rw [List.forall_mem_cons] at h
      have hpos := Nat.two_pow_pos (width * bs.length)
      have hrest := lt_of_mem_box (boxUpper_mem h.2)
      rw [boxLower_cons] at hlower
      rw [boxUpper_cons, List.length_cons, Digits.pow_mul_succ] at hupper
      -- The ends of the box determine those of the first segment, and with it those of the rest.
      have hfirst : b.lower = 0 := by
        rcases Nat.mul_eq_zero.1 (Nat.eq_zero_of_add_eq_zero_right hlower) with hzero | hzero
        · exact hzero
        · omega
      have hlast : b.upper + 1 = 2 ^ width := by
        have hle := Nat.mul_le_mul_right (2 ^ (width * bs.length)) (Nat.succ_le_of_lt h.1.upper_lt)
        rw [Nat.succ_mul] at hle
        apply Nat.eq_of_mul_eq_mul_right hpos
        rw [Nat.succ_mul]
        omega
      have hfull : b = Bounds.full width :=
        calc b = ⟨b.lower, b.upper⟩ := rfl
          _ = ⟨0, 2 ^ width - 1⟩ := by rw [hfirst, ← hlast, Nat.add_sub_cancel]
      rw [← hlast, Nat.succ_mul] at hupper
      exact List.forall_mem_cons.2 ⟨hfull, ih h.2 (by omega) (by omega)⟩

/-- There is a gap between the last word of a box and the first word of its next copy, unless the
box holds all words. -/
theorem boxUpper_succ_lt {bounds : List Bounds} (h : ∀ b ∈ bounds, b.Within width)
    (hopen : ∃ c ∈ bounds, c ≠ Bounds.full width) :
    boxUpper width bounds + 1 < 2 ^ (width * bounds.length) + boxLower width bounds := by
  obtain ⟨c, hc, hne⟩ := hopen
  have hupper := lt_of_mem_box (boxUpper_mem h)
  by_contra hle
  exact hne (eq_full_of_boxEnds h (by omega) (by omega) c hc)

end Words

namespace Section

variable {s : Section} {count : Nat} {t u : Tuple}

/-! ## The sections of a walk -/

/-- A walk that fixes the first segments hands out one section for each combination of their values,
in lexicographic order. -/
theorem exists_handsOut_fixing (hs : s.WellFormed) (count : Nat) :
    ∃ ts : List Tuple, (s.fixing count).HandsOut (ts.map s.fixed) ∧ ts.Pairwise (· < ·) ∧
      (∀ t, t ∈ ts ↔ Picks (s.bounds.take count) t) ∧
      ts.length = ((s.bounds.take count).map Bounds.count).foldr (· * ·) 1 := by
  have hready := lower_le_upper_of_mem_wheels_fixing hs count
  have hcounts : (s.fixing count).counter.wheels.map (fun w => w.upper + 1 - w.lower)
      = (s.bounds.take count).map Bounds.count := by
    rw [wheels_fixing hs, List.map_map]
    refine List.map_congr_left fun b hb => ?_
    have hle := hs.lower_le_upper b (List.mem_of_mem_take hb)
    show b.upper + 1 - b.lower = b.upper - b.lower + 1
    omega
  refine ⟨Counting.product.tuples (s.fixing count).counter.wheels, Walk.handsOut_fresh _ _ _,
    Counting.pairwise_tuples (Counting.ready_product hready), fun t => mem_tuples_fixing hs, ?_⟩
  rw [Counting.length_tuples_product hready, hcounts]

/-- The sections for all tuples have the addresses of the section between them. -/
theorem union_fixed {ts : List Tuple} (hts : ∀ t, t ∈ ts ↔ Picks (s.bounds.take count) t) :
    union (ts.map s.fixed) = s.values := by
  ext x
  rw [mem_values_iff_fixed s count, mem_union]
  simp only [List.mem_map, exists_exists_and_eq_and, hts]

/-! ## Order and gaps -/

/-- The lowest and the highest address for a tuple. -/
theorem ends_fixed (hs : s.WellFormed) (ht : Picks (s.bounds.take count) t) :
    let width := s.version.segmentBits
    let rest := s.bounds.drop count
    (s.fixed t).lowerValue = Digits.value width t * 2 ^ (width * rest.length) +
      boxLower width rest ∧
      (s.fixed t).upperValue
        = Digits.value width t * 2 ^ (width * rest.length) + boxUpper width rest := by
  intro width rest
  have hwf := wellFormed_fixed hs ht
  obtain ⟨hlower, hupper⟩ := boxEnds_fixed width t rest
  have hbounds : (s.fixed t).bounds = t.map Bounds.single ++ rest := by
    rw [fixed, drop_length_of_picks ht]
  rw [lowerValue_eq hwf, upperValue_eq hwf, hbounds]
  exact ⟨hlower, hupper⟩

/-- All words that begin with the digits of a tuple come before those that begin with a later
one. -/
theorem value_mul_add_le (hs : s.WellFormed) (ht : Picks (s.bounds.take count) t)
    (hu : Picks (s.bounds.take count) u) (htu : t < u) (words : Nat) :
    Digits.value s.version.segmentBits t * words + words
      ≤ Digits.value s.version.segmentBits u * words := by
  have hlen : t.length = u.length := ht.length_eq.symm.trans hu.length_eq
  have hlt := Digits.value_lt_value (fit_of_picks hs ht) hlen htu
  rw [← Nat.succ_mul]
  exact Nat.mul_le_mul_right words (Nat.succ_le_of_lt hlt)

/-- The section for a tuple ends before the section for a later tuple begins. -/
theorem upperValue_fixed_lt (hs : s.WellFormed) (ht : Picks (s.bounds.take count) t)
    (hu : Picks (s.bounds.take count) u) (htu : t < u) :
    (s.fixed t).upperValue < (s.fixed u).lowerValue := by
  have hrest := lt_of_mem_box (boxUpper_mem fun b hb =>
    hs.within b (List.mem_of_mem_drop (i := count) hb))
  have hnext := value_mul_add_le hs ht hu htu
    (2 ^ (s.version.segmentBits * (s.bounds.drop count).length))
  rw [(ends_fixed hs ht).2, (ends_fixed hs hu).1]
  omega

/-- **The sections of a walk are in ascending order.** -/
theorem ascending_fixed (hs : s.WellFormed) {ts : List Tuple} (hpairwise : ts.Pairwise (· < ·))
    (hts : ∀ t, t ∈ ts ↔ Picks (s.bounds.take count) t) : Ascending (ts.map s.fixed) := by
  refine List.pairwise_map.2 (hpairwise.imp_of_mem fun {t u} ht hu htu x hx y hy => ?_)
  rw [hts] at ht hu
  have hupper := (values_subset_Icc (wellFormed_fixed hs ht) hx).2
  have hlower := (values_subset_Icc (wellFormed_fixed hs hu) hy).1
  have hlt := upperValue_fixed_lt hs ht hu htu
  omega

/-- **There is a gap between the sections for two tuples**, unless the other segments take all
values. -/
theorem gap_fixed (hs : s.WellFormed) (ht : Picks (s.bounds.take count) t)
    (hu : Picks (s.bounds.take count) u) (htu : t < u)
    (hopen : ∃ c ∈ s.bounds.drop count, c ≠ Bounds.full s.version.segmentBits) :
    (s.fixed t).upperValue + 1 < (s.fixed u).lowerValue := by
  have hgap := boxUpper_succ_lt
    (fun b hb => hs.within b (List.mem_of_mem_drop (i := count) hb)) hopen
  have hnext := value_mul_add_le hs ht hu htu
    (2 ^ (s.version.segmentBits * (s.bounds.drop count).length))
  rw [(ends_fixed hs ht).2, (ends_fixed hs hu).1]
  omega

/-! ## Runs -/

/-- If any segment is fixed for the runs, not all segments behind it take all values: it was fixed
because of one of them. -/
theorem exists_ne_full_of_runSegmentCount_pos (hpos : 0 < s.runSegmentCount) :
    ∃ c ∈ s.bounds.drop s.runSegmentCount, c ≠ Bounds.full s.version.segmentBits := by
  by_contra hall
  push Not at hall
  -- All that is dropped would be passed over, so too few segments would be left.
  have hpassed : ∀ c ∈ (s.bounds.drop s.runSegmentCount).reverse,
      c.isFull s.version.segmentBits = true :=
    fun c hc => beq_iff_eq.2 (hall c (List.mem_reverse.1 hc))
  have hleft : s.bounds.reverse.dropWhile (·.isFull s.version.segmentBits)
      = (s.bounds.take s.runSegmentCount).reverse.dropWhile (·.isFull s.version.segmentBits) := by
    conv_lhs => rw [← List.take_append_drop s.runSegmentCount s.bounds, List.reverse_append]
    exact List.dropWhile_append_of_pos hpassed
  have hle := (List.dropWhile_sublist (·.isFull s.version.segmentBits)
    (l := (s.bounds.take s.runSegmentCount).reverse)).length_le
  rw [← hleft, List.length_reverse, List.length_take] at hle
  have hcount : s.runSegmentCount
      = (s.bounds.reverse.dropWhile (·.isFull s.version.segmentBits)).length - 1 := rfl
  omega

/-- The section for a tuple of a run is sequential and has no gaps. -/
theorem run_spec (hs : s.WellFormed) (ht : Picks (s.bounds.take s.runSegmentCount) t) :
    (s.fixed t).WellFormed ∧ (s.fixed t).isSequential = true ∧ (s.fixed t).IsInterval := by
  obtain ⟨hwf, hrun⟩ := fixed_spec hs ht
  exact ⟨hwf, (isSequential_iff hwf).2 hrun, isInterval_of_isRun hwf hrun⟩

/-- The runs of a section, as ranges, have its addresses between them. -/
theorem covered_runs (hs : s.WellFormed) {ts : List Tuple}
    (hts : ∀ t, t ∈ ts ↔ Picks (s.bounds.take s.runSegmentCount) t) :
    AddressRange.covered (ts.map fun t => AddressRange.ofSection (s.fixed t)) s.version
      = s.values := by
  ext x
  rw [← union_fixed hts, mem_union, AddressRange.mem_covered]
  simp only [List.mem_map, exists_exists_and_eq_and]
  refine exists_congr fun t => and_congr_right fun ht => ?_
  obtain ⟨-, -, hinterval⟩ := run_spec hs ((hts t).1 ht)
  rw [hinterval]
  exact and_iff_right rfl

/-- A run ends before the next run begins, with a gap between the two. -/
theorem gap_runs (hs : s.WellFormed) (ht : Picks (s.bounds.take s.runSegmentCount) t)
    (hu : Picks (s.bounds.take s.runSegmentCount) u) (htu : t < u) :
    (s.fixed t).upperValue + 1 < (s.fixed u).lowerValue := by
  apply gap_fixed hs ht hu htu
  apply exists_ne_full_of_runSegmentCount_pos
  -- If no segment is fixed, there is only the empty tuple.
  by_contra hzero
  rw [Nat.eq_zero_of_not_pos hzero, List.take_zero] at ht hu
  rw [List.forall₂_nil_left_iff.1 ht, List.forall₂_nil_left_iff.1 hu] at htu
  exact lt_irrefl _ htu

/-- The runs of a section, as ranges, are separated. -/
theorem separated_runs (hs : s.WellFormed) {ts : List Tuple} (hpairwise : ts.Pairwise (· < ·))
    (hts : ∀ t, t ∈ ts ↔ Picks (s.bounds.take s.runSegmentCount) t) :
    AddressRange.Separated (ts.map fun t => AddressRange.ofSection (s.fixed t)) where
  lower_le_upper := by
    rw [List.forall_mem_map]
    intro t ht
    exact (wellFormed_ofSection (wellFormed_fixed hs ((hts t).1 ht))).lower_le_upper
  pairwise := by
    refine List.pairwise_map.2 (hpairwise.imp_of_mem fun {t u} ht hu htu => Or.inr ⟨rfl, ?_⟩)
    exact gap_runs hs ((hts t).1 ht) ((hts u).1 hu) htu

/-- **The walk over the runs of a section hands out the longest runs of consecutive addresses.**
Every section that it hands out is sequential and has no gaps; they are in ascending order, with a
gap between any two, and take the section apart. So they are exactly the intervals of addresses of
the section that end at a gap on either side. There are as many as are counted. -/
theorem runs_exact (s : Section) (hs : s.WellFormed) :
    ∃ runs : List Section, s.runs.HandsOut runs ∧
      (∀ r ∈ runs, r.WellFormed ∧ r.version = s.version ∧ r.prefixLen = s.prefixLen ∧
        r.isSequential = true ∧ r.IsInterval) ∧
      Ascending runs ∧ union runs = s.values ∧
      (runs.Pairwise fun a b => a.upperValue + 1 < b.lowerValue) ∧
      (∀ lower upper, IsComponent s.values lower upper ↔
        ∃ r ∈ runs, r.lowerValue = lower ∧ r.upperValue = upper) ∧
      runs.length = s.runCount := by
  obtain ⟨ts, hwalk, hpairwise, hts, hlength⟩ := exists_handsOut_fixing hs s.runSegmentCount
  refine ⟨ts.map s.fixed, hwalk, ?_, ascending_fixed hs hpairwise hts, union_fixed hts, ?_, ?_, ?_⟩
  · rw [List.forall_mem_map]
    intro t ht
    obtain ⟨hwf, hsequential, hinterval⟩ := run_spec hs ((hts t).1 ht)
    exact ⟨hwf, rfl, rfl, hsequential, hinterval⟩
  · refine List.pairwise_map.2 (hpairwise.imp_of_mem fun {t u} ht hu htu => ?_)
    exact gap_runs hs ((hts t).1 ht) ((hts u).1 hu) htu
  · intro lower upper
    have hcomponent := (separated_runs hs hpairwise hts).mem_iff_isComponent
      (r := ⟨s.version, lower, upper⟩)
    rw [covered_runs hs hts] at hcomponent
    rw [← hcomponent]
    simp only [List.mem_map, exists_exists_and_eq_and, AddressRange.ofSection,
      AddressRange.mk.injEq]
    exact exists_congr fun t => and_congr_right fun _ => and_iff_right rfl
  · rw [List.length_map, hlength]
    rfl

/-- The addresses 10.0-255.0-254.0-255 have 256 runs, and a network of 256 addresses is missing
between any two that follow each other. -/
theorem runs_exact_carry :
    let s : Section := ⟨.v4, [⟨10, 10⟩, ⟨0, 255⟩, ⟨0, 254⟩, ⟨0, 255⟩], some 8⟩
    s.WellFormed ∧ ∃ runs : List Section, s.runs.HandsOut runs ∧ union runs = s.values ∧
      (runs.Pairwise fun a b => a.upperValue + 1 < b.lowerValue) ∧ runs.length = 256 := by
  intro s
  have hs : s.WellFormed := ⟨rfl, by decide, by decide, by decide⟩
  have hcount : s.runCount = 256 := by decide
  obtain ⟨runs, hwalk, -, -, hunion, hgap, -, hlength⟩ := runs_exact s hs
  exact ⟨hs, runs, hwalk, hunion, hgap, hlength.trans hcount⟩

end Section

end IpSpace
