import IpSpace.Proofs.Decomposition
import IpSpace.Proofs.Enumeration
import IpSpace.AddressRange.Blocks
import Mathlib.Data.List.TakeWhile

/-!
# Sequential sections

A section is sequential if its segments are single values at first, then at most one range, and all
values from there on (`IsRun`). Such a section is an interval of addresses (`IsRun.box_eq_Icc`), and
the test `Section.isSequential` recognises it.

Any section is a union of sequential ones: `Section.runs` fixes the segments in front of the last
one that does not take all values. So `Section.ranges` covers exactly the addresses of the section
(`Section.mem_values_iff_ranges`).
-/

namespace IpSpace

/-! ## Runs of words -/

/-- Bounds of single digits, then of one range, and of all digits behind it. -/
def IsRun (width : Nat) : List Bounds → Prop
  | [] => True
  | b :: bs =>
    b.Within width ∧ ((∀ c ∈ bs, c = Bounds.full width) ∨ b.lower = b.upper ∧ IsRun width bs)

section Runs

variable {width : Nat} {b : Bounds} {bs bounds : List Bounds}

theorem within_of_full (h : ∀ c ∈ bs, c = Bounds.full width) : ∀ c ∈ bs, c.Within width :=
  fun c hc => h c hc ▸ Bounds.within_full width

/-- Bounds of all digits are a run. -/
theorem isRun_of_full (h : ∀ c ∈ bs, c = Bounds.full width) : IsRun width bs := by
  cases bs with
  | nil => trivial
  | cons b bs => exact ⟨within_of_full h b List.mem_cons_self, Or.inl (List.forall_mem_cons.1 h).2⟩

theorem IsRun.within (h : IsRun width bounds) : ∀ b ∈ bounds, b.Within width := by
  induction bounds with
  | nil => simp
  | cons b bs ih =>
      rw [List.forall_mem_cons]
      refine ⟨h.1, ?_⟩
      rcases h.2 with hfull | ⟨-, hrest⟩
      · exact within_of_full hfull
      · exact ih hrest

/-- Bounds of all digits hold every word, from zero on. -/
theorem box_of_full (h : ∀ c ∈ bs, c = Bounds.full width) :
    box width bs = Set.Iio (2 ^ (width * bs.length)) ∧ boxLower width bs = 0 ∧
      boxUpper width bs + 1 = 2 ^ (width * bs.length) := by
  have hpos := Nat.two_pow_pos (width * bs.length)
  have hbox : box width bs = Set.Iio (2 ^ (width * bs.length)) := by
    conv_lhs => rw [List.eq_replicate_length.2 h]
    exact box_full _
  have hsub := box_subset_Icc (within_of_full h)
  have hupper := lt_of_mem_box (boxUpper_mem (within_of_full h))
  rw [hbox] at hsub
  have hfirst := (hsub (Set.mem_Iio.2 hpos)).1
  have hlast := (hsub (Set.mem_Iio.2 (Nat.sub_lt hpos Nat.one_pos))).2
  exact ⟨hbox, by omega, by omega⟩

/-- The words of a run are all those from its lowest to its highest. -/
theorem IsRun.box_eq_Icc (h : IsRun width bounds) :
    box width bounds = Set.Icc (boxLower width bounds) (boxUpper width bounds) := by
  ext x
  induction bounds generalizing x with
  | nil =>
      rw [mem_box_nil, Set.mem_Icc]
      simp only [boxLower, boxUpper, List.map_nil, Digits.value]
      omega
  | cons b bs ih =>
      have hlower := lt_of_mem_box (boxLower_mem (List.forall_mem_cons.1 h.within).2)
      have hupper := lt_of_mem_box (boxUpper_mem (List.forall_mem_cons.1 h.within).2)
      have hmod := Nat.mod_lt x (Nat.two_pow_pos (width * bs.length))
      have hle := h.1.lower_le_upper
      rw [mem_box_cons h.1.upper_lt, Set.mem_Icc, boxLower_cons, boxUpper_cons,
        Digits.le_cons_iff hlower, Digits.cons_ge_iff hupper, Bounds.mem_iff]
      rcases h.2 with hfull | ⟨heq, hrest⟩
      · -- With all digits behind the first one, the rests do not decide anything.
        obtain ⟨hbox, hzero, hmax⟩ := box_of_full hfull
        rw [hbox, Set.mem_Iio]
        omega
      · rw [ih hrest, Set.mem_Icc]
        omega

/-- Looking for a range, and for anything but all digits behind it, finds out whether bounds are a
run. -/
theorem tail_all_isFull_iff (h : ∀ b ∈ bounds, b.Within width) :
    ((bounds.dropWhile fun b => !b.isMultiple).drop 1).all (·.isFull width) = true ↔
      IsRun width bounds := by
  induction bounds with
  | nil => simp [IsRun]
  | cons b bs ih =>
      rw [List.forall_mem_cons] at h
      rw [IsRun, and_iff_right h.1, ← ih h.2, List.dropWhile_cons]
      by_cases hb : b.lower = b.upper
      · rw [if_pos (by simp [Bounds.isMultiple, hb]), and_iff_right hb]
        refine ⟨Or.inr, ?_⟩
        rintro (hfull | hall)
        · refine List.all_eq_true.2 fun c hc => beq_iff_eq.2 (hfull c ?_)
          exact List.dropWhile_subset _ (List.mem_of_mem_drop hc)
        · exact hall
      · rw [if_neg (by simp [Bounds.isMultiple, hb]), List.drop_one, List.tail_cons]
        simp only [List.all_eq_true, Bounds.isFull, beq_iff_eq, hb, false_and, or_false]

end Runs

namespace Section

variable {s : Section}

/-! ## The test -/

/-- The test for sequential sections finds the runs. -/
theorem isSequential_iff (h : s.WellFormed) :
    s.isSequential = true ↔ IsRun s.version.segmentBits s.bounds :=
  tail_all_isFull_iff h.within

/-- A section whose bounds are a run has no gaps. -/
theorem isInterval_of_isRun (h : s.WellFormed) (hrun : IsRun s.version.segmentBits s.bounds) :
    s.IsInterval := by
  rw [IsInterval, values_eq_box h.length_bounds, lowerValue_eq h, upperValue_eq h]
  exact hrun.box_eq_Icc

/-- A sequential section has no gaps. -/
theorem isInterval_of_isSequential (h : s.WellFormed) (hseq : s.isSequential = true) :
    s.IsInterval :=
  isInterval_of_isRun h ((isSequential_iff h).1 hseq)

/-! ## The split into runs -/

theorem wheelCount_bitCount (version : Version) :
    version.wheelCount version.bitCount = version.segmentCount := by
  cases version <;> decide

/-- The full width leaves no host bits. -/
theorem hostBits_bitCount {version : Version} {index : Nat}
    (hindex : index < version.segmentCount) :
    version.hostBits version.bitCount index = 0 := by
  have hwidth := Nat.mul_le_mul_right version.segmentBits (Nat.succ_le_of_lt hindex)
  rw [Nat.succ_mul] at hwidth
  rw [Version.hostBits, Version.bitCount_eq, Nat.mul_comm version.segmentBits]
  omega

/-- An address without host bits has a wheel for every segment, which runs over its values. -/
theorem wheelsAt_bitCount {version : Version} {ends : List Bounds}
    (hlen : ends.length = version.segmentCount) :
    wheelsAt version version.bitCount ends
      = ends.map fun b => ⟨b.lower, b.upper, version.segmentMax⟩ := by
  rw [wheelsAt, wheelCount_bitCount, List.take_of_length_le (by rw [List.length_mapIdx, hlen])]
  refine List.ext_getElem (by simp) fun index hindex _ => ?_
  rw [List.length_mapIdx, hlen] at hindex
  simp [hostBits_bitCount hindex, Bounds.networks]

/-- What is left of a list behind its last member that fails a test passes it. -/
private theorem of_mem_drop_dropWhile {α : Type} {p : α → Bool} {l : List α} {x : α}
    (h : x ∈ l.drop (l.reverse.dropWhile p).length) : p x = true := by
  have hsplit : (l.reverse.dropWhile p).reverse ++ (l.reverse.takeWhile p).reverse = l := by
    rw [← List.reverse_append, List.takeWhile_append_dropWhile, List.reverse_reverse]
  have hdrop : l.drop (l.reverse.dropWhile p).length = (l.reverse.takeWhile p).reverse :=
    calc l.drop (l.reverse.dropWhile p).length
      _ = ((l.reverse.dropWhile p).reverse ++ (l.reverse.takeWhile p).reverse).drop
            (l.reverse.dropWhile p).length := by rw [hsplit]
      _ = (l.reverse.takeWhile p).reverse := List.drop_left' List.length_reverse
  rw [hdrop, List.mem_reverse] at h
  exact List.mem_takeWhile_imp h

/-- Behind the segments that are fixed for a run, and one more, every segment takes all values. -/
theorem drop_runSegmentCount :
    ∀ c ∈ s.bounds.drop (s.runSegmentCount + 1), c = Bounds.full s.version.segmentBits := by
  intro c hc
  refine beq_iff_eq.1 (of_mem_drop_dropWhile
    (p := fun b : Bounds => b.isFull s.version.segmentBits) (l := s.bounds) ?_)
  refine List.drop_subset_drop_left s.bounds ?_ hc
  rw [runSegmentCount]
  omega

/-- The digits for the first segments may be picked first. -/
private theorem picks_iff_exists_take {bounds : List Bounds} {ds : List Nat} (n : Nat) :
    Picks bounds ds ↔
      ∃ t, Picks (bounds.take n) t ∧ Picks (t.map Bounds.single ++ bounds.drop n) ds := by
  induction n generalizing bounds ds with
  | zero => simp
  | succ n ih =>
      cases bounds with
      | nil => simp
      | cons b bs =>
          rw [List.take_succ_cons, List.drop_succ_cons]
          constructor
          · rintro (_ | ⟨hd, hds⟩)
            obtain ⟨t, ht, hrest⟩ := ih.1 hds
            exact ⟨_ :: t, picks_cons.2 ⟨hd, ht⟩, picks_cons.2 ⟨Bounds.mem_single.2 rfl, hrest⟩⟩
          · rintro ⟨_, _ | ⟨hd, ht⟩, hpicks⟩
            cases hpicks with
            | cons he hrest =>
                obtain rfl := Bounds.mem_single.1 he
                exact picks_cons.2 ⟨hd, ih.2 ⟨_, ht, hrest⟩⟩

/-- Fixing the first segments leaves a run if all values follow behind the next segment. -/
private theorem isRun_fixed {width n : Nat} {bounds : List Bounds} {t : Tuple}
    (h : ∀ b ∈ bounds, b.Within width) (hfull : ∀ c ∈ bounds.drop (n + 1), c = Bounds.full width)
    (ht : Picks (bounds.take n) t) : IsRun width (t.map Bounds.single ++ bounds.drop n) := by
  induction n generalizing bounds t with
  | zero =>
      cases ht
      cases bounds with
      | nil => trivial
      | cons b bs => exact ⟨h b List.mem_cons_self, Or.inl hfull⟩
  | succ n ih =>
      cases bounds with
      | nil =>
          cases ht
          trivial
      | cons b bs =>
          cases ht with
          | cons hd ht =>
              rw [List.forall_mem_cons] at h
              exact ⟨Bounds.within_single (Nat.lt_of_le_of_lt hd.2 h.1.upper_lt),
                Or.inr ⟨rfl, ih h.2 hfull ht⟩⟩

/-- The section with the first segments fixed to the values of a tuple. -/
def fixed (s : Section) (t : Tuple) : Section :=
  ⟨s.version, t.map Bounds.single ++ s.bounds.drop t.length, s.prefixLen⟩

/-- Behind a tuple for the first segments come the other segments, also if more segments are to be
fixed than there are. -/
theorem drop_length_of_picks {count : Nat} {t : Tuple} (ht : Picks (s.bounds.take count) t) :
    s.bounds.drop t.length = s.bounds.drop count := by
  rw [List.drop_eq_drop_iff, ← ht.length_eq, List.length_take]
  omega

/-- **Fixing the first segments in every possible way takes a section apart.** -/
theorem mem_values_iff_fixed (s : Section) (count : Nat) {x : Nat} :
    x ∈ s.values ↔ ∃ t, Picks (s.bounds.take count) t ∧ x ∈ (s.fixed t).values := by
  have hfixed : ∀ t, Picks (s.bounds.take count) t →
      (x ∈ (s.fixed t).values ↔ x ≤ s.version.maxValue ∧
        Picks (t.map Bounds.single ++ s.bounds.drop count) (s.version.split x)) := by
    intro t ht
    rw [← drop_length_of_picks ht]
    exact Iff.rfl
  constructor
  · rintro ⟨hx, hpicks⟩
    obtain ⟨t, ht, hrest⟩ := (picks_iff_exists_take count).1 hpicks
    exact ⟨t, ht, (hfixed t ht).2 ⟨hx, hrest⟩⟩
  · rintro ⟨t, ht, hx⟩
    obtain ⟨hmax, hrest⟩ := (hfixed t ht).1 hx
    exact ⟨hmax, (picks_iff_exists_take count).2 ⟨t, ht, hrest⟩⟩

/-- The wheels for the first segments run over their values. -/
theorem wheels_fixing (h : s.WellFormed) (count : Nat) :
    (s.fixing count).counter.wheels
      = (s.bounds.take count).map fun b => ⟨b.lower, b.upper, s.version.segmentMax⟩ := by
  rw [List.map_take, ← wheelsAt_bitCount h.length_bounds]
  rfl

/-- The wheels for the first segments can be counted as a product. -/
theorem lower_le_upper_of_mem_wheels_fixing (h : s.WellFormed) (count : Nat) :
    ∀ w ∈ (s.fixing count).counter.wheels, w.lower ≤ w.upper := by
  rw [wheels_fixing h, List.forall_mem_map]
  exact fun b hb => h.lower_le_upper b (List.mem_of_mem_take hb)

/-- A walk that fixes the first segments takes every value of each of these. -/
theorem mem_tuples_fixing (h : s.WellFormed) {count : Nat} {t : Tuple} :
    t ∈ Counting.product.tuples (s.fixing count).counter.wheels ↔
      Picks (s.bounds.take count) t := by
  rw [Counting.mem_tuples_product (lower_le_upper_of_mem_wheels_fixing h count), wheels_fixing h,
    List.forall₂_map_left_iff]
  exact Iff.rfl

/-- The values for the segments that are fixed are digits. -/
theorem fit_of_picks (h : s.WellFormed) {count : Nat} {t : Tuple}
    (ht : Picks (s.bounds.take count) t) : Digits.Fit s.version.segmentBits t := by
  intro d hd
  obtain ⟨index, hindex, rfl⟩ := List.getElem_of_mem hd
  have hfixed : index < (s.bounds.take count).length := ht.length_eq ▸ hindex
  have hwithin := h.within _ (List.mem_of_mem_take (List.getElem_mem hfixed))
  exact Nat.lt_of_le_of_lt (ht.get hfixed hindex).2 hwithin.upper_lt

/-- Fixing the first segments of a section makes a section. -/
theorem wellFormed_fixed (h : s.WellFormed) {count : Nat} {t : Tuple}
    (ht : Picks (s.bounds.take count) t) : (s.fixed t).WellFormed := by
  have hlen : t.length ≤ s.bounds.length := by
    rw [← ht.length_eq, List.length_take]
    exact Nat.min_le_right _ _
  refine wellFormed_of_within ?_ (fun b hb => ?_) h.prefixLen_le
  · rw [fixed, List.length_append, List.length_map, List.length_drop, ← h.length_bounds]
    omega
  · obtain hb | hb := List.mem_append.1 hb
    · obtain ⟨d, hd, rfl⟩ := List.mem_map.1 hb
      exact Bounds.within_single (fit_of_picks h ht d hd)
    · exact h.within b (List.mem_of_mem_drop hb)

/-- The runs of a section fix its first segments in every possible way. -/
theorem mem_runRanges (h : s.WellFormed) {r : AddressRange} :
    r ∈ s.runRanges ↔ ∃ t, Picks (s.bounds.take s.runSegmentCount) t ∧
      r = AddressRange.ofSection (s.fixed t) := by
  rw [runRanges, List.mem_map]
  refine exists_congr fun t => and_congr (mem_tuples_fixing h) ?_
  exact eq_comm

/-- Fixing the first segments of a section makes a sequential section. -/
theorem fixed_spec (h : s.WellFormed) {t : Tuple}
    (ht : Picks (s.bounds.take s.runSegmentCount) t) :
    (s.fixed t).WellFormed ∧ IsRun s.version.segmentBits (s.fixed t).bounds := by
  refine ⟨wellFormed_fixed h ht, ?_⟩
  rw [fixed, drop_length_of_picks ht]
  exact isRun_fixed h.within drop_runSegmentCount ht

/-- The ranges of a section are ranges of addresses of its version. -/
theorem wellFormed_of_mem_ranges (h : s.WellFormed) {r : AddressRange} (hr : r ∈ s.ranges) :
    r.WellFormed ∧ r.version = s.version := by
  rw [ranges] at hr
  split at hr
  · rw [List.mem_singleton.1 hr]
    exact ⟨wellFormed_ofSection h, rfl⟩
  · obtain ⟨t, ht, rfl⟩ := (mem_runRanges h).1 hr
    exact ⟨wellFormed_ofSection (fixed_spec h ht).1, rfl⟩

/-- **The ranges of a section cover exactly its addresses.** -/
theorem mem_values_iff_ranges (h : s.WellFormed) {x : Nat} :
    x ∈ s.values ↔ ∃ r ∈ s.ranges, x ∈ r.values := by
  rw [ranges]
  split
  · rename_i hseq
    rw [isInterval_of_isSequential h hseq]
    simp only [List.mem_singleton, exists_eq_left]
    exact Iff.rfl
  · have hvalues : ∀ t, Picks (s.bounds.take s.runSegmentCount) t →
        (AddressRange.ofSection (s.fixed t)).values = (s.fixed t).values := by
      intro t ht
      obtain ⟨hwf, hrun⟩ := fixed_spec h ht
      exact (isInterval_of_isRun hwf hrun).symm
    rw [mem_values_iff_fixed s s.runSegmentCount]
    simp only [mem_runRanges h]
    constructor
    · rintro ⟨t, ht, hx⟩
      exact ⟨_, ⟨t, ht, rfl⟩, hvalues t ht ▸ hx⟩
    · rintro ⟨_, ⟨t, ht, rfl⟩, hx⟩
      exact ⟨t, ht, hvalues t ht ▸ hx⟩

end Section

end IpSpace
