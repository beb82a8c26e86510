import IpSpace.Proofs.SectionSpans
import IpSpace.Proofs.Machine.BlockSpans
import IpSpace.Proofs.Machine.RunSpans
import IpSpace.Proofs.Machine.Walks

/-!
# Splitting and covering on the machine

A range is split by its two ends, as numbers into prefix blocks and as segments into sequential
sections. A section or a list of addresses becomes a list of ranges first: that of a sequential
section is one range, that of another one the runs that the machine collects from its walk
(`rangesOf?_eq`). The ranges are coalesced and split one after another (`splitRanges?_eq`).
-/

namespace IpSpace

namespace Machine

/-! ## Ranges -/

namespace Range

/-- The fewest prefix blocks that make up the range. -/
def toBlocks? (r : AddressRange) : Option (List Section) :=
  blocksBetween? r.version r.lower r.upper

/-- The fewest sequential sections that make up the range. -/
def toRuns? (r : AddressRange) : Option (List Section) := do
  runsBetween? r.version (r.version.segmentCount + 1) (← split? r.version r.lower)
    (← split? r.version r.upper)

/-- The smallest prefix block that holds the range. -/
def cover? (r : AddressRange) : Option Section :=
  coverOf? r.version r.lower r.upper

variable {r : AddressRange}

/-- A range is split into prefix blocks. -/
theorem toBlocks?_eq (hr : r.WellFormed) : toBlocks? r = some r.toBlocks :=
  blocksBetween?_eq hr

/-- The ends of a range, with no segment in front. -/
theorem part_split (hr : r.WellFormed) :
    Part r.version [] (r.version.split r.lower) (r.version.split r.upper) where
  front_fit := List.forall_mem_nil _
  lower_fit := r.version.fit_split _
  upper_fit := r.version.fit_split _
  length_eq := (r.version.length_split _).trans (r.version.length_split _).symm
  count_eq := (Nat.zero_add _).trans (r.version.length_split _)
  value_le := by
    have hupper := Version.le_maxValue_iff.1 hr.upper_le_max
    rw [Version.split, Version.split,
      Digits.value_split (Nat.lt_of_le_of_lt hr.lower_le_upper hupper), Digits.value_split hupper]
    exact hr.lower_le_upper

/-- **A range is split into sequential sections**: one level for every segment is deep enough. -/
theorem toRuns?_eq (hr : r.WellFormed) : toRuns? r = some r.toRuns := by
  have hdepth : (r.version.split r.lower).length < r.version.segmentCount + 1 :=
    (r.version.length_split r.lower).symm ▸ Nat.lt_succ_self _
  rw [toRuns?, bind_eq (split?_eq _ _), bind_eq (split?_eq _ _)]
  exact runsBetween?_eq hdepth (part_split hr)

/-- The block that covers a range is put together. -/
theorem cover?_eq (hr : r.WellFormed) : cover? r = some r.cover :=
  coverOf?_eq hr

end Range

/-! ## Ranges of sections -/

/-- The addresses of a section as ranges. -/
def rangesOf? (s : Section) : Option (List AddressRange) := do
  if ← isSequential? s then return [← Range.ofSection? s]
  (← (← runs? s).collect?).mapM Range.ofSection?

/-- The addresses of some sections as coalesced ranges. -/
def sequentialRanges? (sections : List Section) : Option (List AddressRange) := do
  Range.coalesce? (← sections.mapM rangesOf?).flatten

/-- **A section becomes a list of ranges**: one of its own if it is sequential, or those of the runs
that the machine collects. -/
theorem rangesOf?_eq {s : Section} (hs : s.WellFormed) : rangesOf? s = some s.ranges := by
  rw [rangesOf?, bind_eq (isSequential?_eq hs), Section.ranges]
  by_cases hseq : s.isSequential = true
  · rw [if_pos hseq, if_pos hseq]
    exact bind_eq (Range.ofSection?_eq hs)
  · obtain ⟨it, hbuilt, hruns⟩ := runs?_runs hs
    -- The walk over the runs leaves no tuple out, so what is collected are all runs.
    have hall : s.runs.counter.upcoming = s.runs.counter.counting.tuples s.runs.counter.wheels :=
      List.filter_eq_self.2 fun _ _ => rfl
    have hranges : ∀ run ∈ s.runs.counter.upcoming.map s.runs.emit,
        Range.ofSection? run = some (AddressRange.ofSection run) :=
      List.forall_mem_map.2 fun t ht => Range.ofSection?_eq (Section.wellFormed_of_fixing hs ht)
    rw [if_neg hseq, if_neg hseq, Section.runRanges, ← hall, bind_eq hbuilt,
      bind_eq hruns.collect?_eq, mapM_eq_some hranges, List.map_map]
    rfl

/-- The ranges of some sections can be coalesced. -/
theorem sequentialRanges?_eq {sections : List Section} (h : ∀ s ∈ sections, s.WellFormed) :
    sequentialRanges? sections =
      some (AddressRange.coalesce (sections.flatMap Section.ranges)) := by
  rw [sequentialRanges?, bind_eq (mapM_eq_some fun s hs => rangesOf?_eq (h s hs)),
    ← List.flatMap_def]
  refine Range.coalesce?_eq fun r hr => ?_
  obtain ⟨s, hs, hrs⟩ := List.mem_flatMap.1 hr
  exact (Section.wellFormed_of_mem_ranges (h s hs) hrs).1

/-- Splits ranges one after another. -/
def splitRanges? (split? : AddressRange → Option (List Section)) (ranges : List AddressRange) :
    Option (List Section) := do
  return (← ranges.mapM split?).flatten

/-- Ranges that can each be split can be split one after another. -/
theorem splitRanges?_eq {split? : AddressRange → Option (List Section)}
    {split : AddressRange → List Section}
    {ranges : List AddressRange} (h : ∀ r ∈ ranges, split? r = some (split r)) :
    splitRanges? split? ranges = some (ranges.flatMap split) := by
  rw [splitRanges?, bind_eq (mapM_eq_some h), List.flatMap_def]
  rfl

/-! ## Sections -/

/-- The fewest prefix blocks that make up the section. -/
def toBlocks? (s : Section) : Option (List Section) := do
  if ← isSingleBlockOf? s then return [s]
  splitRanges? (fun r => blocksBetween? s.version r.lower r.upper) (← sequentialRanges? [s])

/-- The fewest sequential sections that make up the section. -/
def toRuns? (s : Section) : Option (List Section) := do
  if ← isSequential? s then return [← withPrefix? s none]
  splitRanges? (fun r => Range.toRuns? { r with version := s.version }) (← sequentialRanges? [s])

/-- The smallest prefix block that holds the section. -/
def cover? (s : Section) : Option Section := do
  coverOf? s.version (← lowerValue? s) (← upperValue? s)

section Sections

variable {s : Section} (hs : s.WellFormed)

include hs

theorem sequentialRanges?_singleton :
    sequentialRanges? [s] = some (AddressRange.coalesce s.ranges) := by
  rw [sequentialRanges?_eq (List.forall_mem_singleton.2 hs), List.flatMap_singleton]

/-- The coalesced ranges of a section are of its version. -/
theorem of_mem_coalesce_ranges {r : AddressRange} (hr : r ∈ AddressRange.coalesce s.ranges) :
    r.WellFormed ∧ r.version = s.version := by
  have hall : Address.AllOf s.version [Address.ofSection s] :=
    ⟨List.forall_mem_singleton.2 hs, List.forall_mem_singleton.2 rfl⟩
  apply hall.of_mem_coalesce
  rwa [Address.ranges, List.flatMap_singleton]

/-- **A section is split into prefix blocks.** -/
theorem toBlocks?_eq : toBlocks? s = some s.toBlocks := by
  rw [toBlocks?, bind_eq (isSingleBlockOf?_eq hs), Section.toBlocks]
  by_cases hblock : s.isSingleBlock = true
  · rw [if_pos hblock, if_pos hblock]
    rfl
  · rw [if_neg hblock, if_neg hblock, bind_eq (sequentialRanges?_singleton hs)]
    refine splitRanges?_eq fun r hr => ?_
    obtain ⟨hwf, hversion⟩ := of_mem_coalesce_ranges hs hr
    rw [← hversion]
    exact blocksBetween?_eq hwf

/-- **A section is split into sequential sections.** -/
theorem toRuns?_eq : toRuns? s = some s.toRuns := by
  rw [toRuns?, bind_eq (isSequential?_eq hs), Section.toRuns]
  by_cases hseq : s.isSequential = true
  · rw [if_pos hseq, if_pos hseq]
    exact bind_eq (withPrefix?_eq hs (by simp))
  · rw [if_neg hseq, if_neg hseq, bind_eq (sequentialRanges?_singleton hs)]
    refine splitRanges?_eq fun r hr => ?_
    obtain ⟨hwf, hversion⟩ := of_mem_coalesce_ranges hs hr
    rw [← hversion]
    exact Range.toRuns?_eq hwf

/-- The block that covers a section is put together of its lowest and its highest address. -/
theorem cover?_eq : cover? s = some s.cover := by
  rw [cover?, bind_eq (lowerValue?_eq hs), bind_eq (upperValue?_eq hs)]
  exact coverOf?_eq (Section.wellFormed_ofSection hs)

end Sections

/-! ## Lists of addresses -/

/-- Nothing, or the error of a list that mixes versions. -/
def checkVersions : List Address → Except AddressError Unit
  | [] => .ok ()
  | first :: rest =>
    match (first :: rest).find? (·.version ≠ first.version) with
    | some odd => .error (.sizeMismatch first.version.segmentCount odd.version.segmentCount)
    | none => .ok ()

/-- The union of some addresses, split by ranges. -/
def merge? (split? : AddressRange → Option (List Section)) (addresses : List Address) :
    Option (Except AddressError (List Address)) :=
  after? (checkVersions addresses) fun _ => do
    let sections ← splitRanges? split? (← sequentialRanges? (addresses.map (·.body)))
    return .ok (sections.map Address.ofSection)

/-- The ranges of some addresses are what the check of their versions lets through. -/
theorem mergedRanges_eq_map (addresses : List Address) : Address.mergedRanges addresses
    = (checkVersions addresses).map fun _ =>
      AddressRange.coalesce ((addresses.map (·.body)).flatMap Section.ranges) := by
  cases addresses with
  | nil => simp [Address.mergedRanges, checkVersions, AddressRange.coalesce, Except.map]
  | cons first rest =>
      rw [Address.mergedRanges, checkVersions, List.flatMap_map]
      cases (first :: rest).find? (·.version ≠ first.version) <;> rfl

/-- **A merge never stops if the ranges can be split.** -/
theorem merge?_eq {split? : AddressRange → Option (List Section)}
    {split : AddressRange → List Section}
    (hsplit : ∀ r : AddressRange, r.WellFormed → split? r = some (split r))
    {addresses : List Address} (h : ∀ a ∈ addresses, a.body.WellFormed) : merge? split? addresses
      = some ((Address.mergedRanges addresses).map fun merged =>
        (merged.flatMap split).map Address.ofSection) := by
  have hbodies : ∀ s ∈ addresses.map (·.body), s.WellFormed := List.forall_mem_map.2 h
  have hranges : ∀ r ∈ (addresses.map (·.body)).flatMap Section.ranges, r.WellFormed := by
    intro r hr
    obtain ⟨s, hs, hrs⟩ := List.mem_flatMap.1 hr
    exact (Section.wellFormed_of_mem_ranges (hbodies s hs) hrs).1
  rw [mergedRanges_eq_map, merge?]
  cases checkVersions addresses with
  | error err => rfl
  | ok _ =>
      refine (bind_eq (sequentialRanges?_eq hbodies)).trans
        (bind_eq (splitRanges?_eq fun r hr => ?_))
      exact hsplit r (AddressRange.wellFormed_of_mem_coalesce hranges r hr)

theorem mergeToBlocks?_eq {addresses : List Address} (h : ∀ a ∈ addresses, a.body.WellFormed) :
    merge? Range.toBlocks? addresses = some (Address.mergeToBlocks addresses) := by
  rw [Address.mergeToBlocks_eq_map]
  exact merge?_eq (fun _ => Range.toBlocks?_eq) h

theorem mergeToRuns?_eq {addresses : List Address} (h : ∀ a ∈ addresses, a.body.WellFormed) :
    merge? Range.toRuns? addresses = some (Address.mergeToRuns addresses) := by
  rw [Address.mergeToRuns_eq_map]
  exact merge?_eq (fun _ => Range.toRuns?_eq) h

end Machine

end IpSpace
