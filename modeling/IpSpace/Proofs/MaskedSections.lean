import IpSpace.Proofs.Building
import IpSpace.Proofs.MaskedWords

/-!
# Applying the mask of a section

Applying a mask works segment by segment: each segment is put under the part of the lowest address
of the mask that has its place, and the first segment that does not stay a range ends the operation
with an error (`Section.applyMask_eq`).

What is reported of a single segment is right, and the addresses under the mask are those of a
section exactly if every segment stays a range (`Section.exists_section_iff`). So the operation
yields the section that has these addresses where there is one, and where there is none the error
names the first segment that leaves holes (`Section.appliesMask`).
-/

namespace IpSpace

namespace Section

variable {s mask : Section} {op : BitOp} {index : Nat} {b m : Bounds}

/-! ## Segments and parts of the mask -/

/-- The parts of the lowest address of the mask are the lower ends of its segments. -/
theorem maskedSegments_lowerValue (hmask : mask.WellFormed) (hversion : s.version = mask.version) :
    s.maskedSegments op mask.lowerValue
      = (s.bounds.zip mask.bounds).map fun (b, m) => (op.eval · m.lower) '' b.values := by
  rw [maskedSegments, maskedSets, hversion, split_lowerValue hmask, List.zipWith_map_right,
    List.map_zip_eq_zipWith]
  rfl

/-- What is reported of a segment under its part of the mask is right. -/
theorem describes_of_mem_zip (op : BitOp) (hs : s.WellFormed) (hmask : mask.WellFormed)
    (hversion : s.version = mask.version) (h : (b, m) ∈ s.bounds.zip mask.bounds) :
    (maskBounds s.version.segmentBits op b m.lower).Describes
      ((op.eval · m.lower) '' b.values) := by
  obtain ⟨hb, hm⟩ := List.of_mem_zip h
  have hpart := hmask.within m hm
  rw [← hversion] at hpart
  exact describes_maskBounds op (hs.within b hb) (hpart.lt_of_mem_values hpart.lower_mem)

/-- The segment of `s` at the place `index`, with bounds `b`, is the first that leaves holes under
its part of the mask, which is the lower end of the segment of `mask` with bounds `m`. -/
structure FirstHoles (s : Section) (op : BitOp) (mask : Section) (index : Nat) (b m : Bounds) :
    Prop where
  getElem?_bounds : s.bounds[index]? = some b
  getElem?_mask : mask.bounds[index]? = some m
  not_ordConnected : ¬ ((op.eval · m.lower) '' b.values).OrdConnected
  before : ∀ i < index, ∀ c k, s.bounds[i]? = some c → mask.bounds[i]? = some k →
    ((op.eval · k.lower) '' c.values).OrdConnected

/-! ## Outcomes -/

/-- The first segment that is reported not to be contiguous under its part of the mask, with the
segment of the mask and their place. -/
def reportedHoles? (s : Section) (op : BitOp) (mask : Section) : Option ((Bounds × Bounds) × Nat) :=
  (s.bounds.zip mask.bounds).zipIdx.find? fun ((b, m), _) =>
    !(maskBounds s.version.segmentBits op b m.lower).contiguous

/-- For sections of one version, the operation fails at this segment. -/
theorem applyMask_eq (hversion : s.version = mask.version) (op : BitOp) : s.applyMask op mask =
    match s.reportedHoles? op mask with
    | some ((b, m), index) => .error (.maskOfRange op index b m.lower)
    | none => .ok { s with bounds := (s.bounds.zip mask.bounds).zipIdx.map fun ((b, m), _) =>
        (maskBounds s.version.segmentBits op b m.lower).bounds } := by
  have hsteps := mapM_check_each
    (fun ((b, m), _) => !(maskBounds s.version.segmentBits op b m.lower).contiguous)
    (fun ((b, m), index) => AddressError.maskOfRange op index b m.lower)
    (fun ((b, m), _) => (maskBounds s.version.segmentBits op b m.lower).bounds)
    (s.bounds.zip mask.bounds).zipIdx
  have hcheck : checkSameVersion s.version mask.version = .ok () :=
    checkSameVersion_eq_ok_iff.2 hversion
  -- The operation asks whether a segment is contiguous, and not whether it has holes.
  simp only [Bool.not_eq_true', ← Bool.not_eq_true, ite_not] at hsteps
  rw [applyMask, hcheck, reportedHoles?]
  simp only [bind, Except.bind]
  rw [hsteps]
  generalize List.find? _ (s.bounds.zip mask.bounds).zipIdx = first
  cases first <;> rfl

/-- The operation yields a section with the addresses `whole`, otherwise like `s`, wherever there is
such a section. Where there is none it fails, as incompatible, and the error names the first segment
that leaves holes. -/
structure AppliesMask (s : Section) (op : BitOp) (mask : Section) (whole : Set Nat) : Prop where
  succeeds : (∃ t : Section, t.WellFormed ∧ t.version = s.version ∧ t.values = whole) →
    ∃ r, s.applyMask op mask = .ok r ∧ r.WellFormed ∧ r.version = s.version ∧
      r.prefixLen = s.prefixLen ∧ r.values = whole
  fails : (¬ ∃ t : Section, t.WellFormed ∧ t.version = s.version ∧ t.values = whole) →
    ∃ cause, s.applyMask op mask = .error cause ∧ cause.kind = .incompatible ∧
      ∃ index b m, cause = .maskOfRange op index b m.lower ∧ s.FirstHoles op mask index b m

/-- Where no segment is reported to have holes, the reported bounds are what the segments become. -/
theorem applyMask_of_contiguous (hs : s.WellFormed) (hmask : mask.WellFormed)
    (hversion : s.version = mask.version) (h : s.reportedHoles? op mask = none) :
    ∃ r, s.applyMask op mask = .ok r ∧ r.version = s.version ∧ r.prefixLen = s.prefixLen ∧
      r.values = (op.eval · mask.lowerValue) '' s.values := by
  have hresult := applyMask_eq hversion op
  simp only [h] at hresult
  refine ⟨_, hresult, rfl, rfl, values_eq_image hs ?_ rfl ?_⟩
  · exact hversion ▸ lowerValue_le_maxValue hmask
  · rw [maskedSegments_lowerValue hmask hversion,
      ← List.zipIdx_map_fst 0 (s.bounds.zip mask.bounds)]
    show (List.map _ _).map _ = _
    rw [List.map_map, List.map_map, List.zipIdx_map_fst]
    refine List.map_congr_left fun pair hmem => ?_
    have hcontiguous := List.find?_eq_none.1 h pair hmem
    have hreport := describes_of_mem_zip op hs hmask hversion (List.fst_mem_of_mem_zipIdx hmem)
    exact (hreport.eq_Icc (by simpa using hcontiguous)).symm

/-- The first segment that is reported to have holes is the first that has. -/
theorem firstHoles_of_reportedHoles (hs : s.WellFormed) (hmask : mask.WellFormed)
    (hversion : s.version = mask.version) (h : s.reportedHoles? op mask = some ((b, m), index)) :
    s.FirstHoles op mask index b m := by
  obtain ⟨hbroken, i, hi, hindexed, hbefore⟩ := List.find?_eq_some_iff_getElem.1 h
  rw [List.getElem_zipIdx, Nat.zero_add] at hindexed
  obtain ⟨hpair, rfl⟩ := Prod.mk.inj hindexed
  rw [List.length_zipIdx] at hi
  have hat : (s.bounds.zip mask.bounds)[i]? = some (b, m) := List.getElem?_eq_some_iff.2 ⟨hi, hpair⟩
  obtain ⟨hb, hm⟩ := List.getElem?_zip_eq_some.1 hat
  refine ⟨hb, hm, ?_, ?_⟩
  · exact (describes_of_mem_zip op hs hmask hversion (List.mem_of_getElem? hat)).not_ordConnected
      (by simpa using hbroken)
  · intro j hj c k hc hk
    have hthere : (s.bounds.zip mask.bounds)[j]? = some (c, k) :=
      List.getElem?_zip_eq_some.2 ⟨hc, hk⟩
    have hcontiguous := hbefore j hj
    rw [List.getElem_zipIdx, (List.getElem?_eq_some_iff.1 hthere).2] at hcontiguous
    exact (describes_of_mem_zip op hs hmask hversion (List.mem_of_getElem? hthere)).contiguous_iff.1
      (by simpa using hcontiguous)

/-- A segment with holes rules out that the addresses are those of a section. -/
theorem FirstHoles.not_exists (h : s.FirstHoles op mask index b m) (hs : s.WellFormed)
    (hmask : mask.WellFormed) (hversion : s.version = mask.version) :
    ¬ ∃ t : Section, t.WellFormed ∧ t.version = s.version ∧
      t.values = (op.eval · mask.lowerValue) '' s.values := by
  have hmax : mask.lowerValue ≤ s.version.maxValue :=
    hversion ▸ lowerValue_le_maxValue hmask
  rw [exists_section_iff hs hmax, maskedSegments_lowerValue hmask hversion, List.forall_mem_map]
  intro hall
  have hat := List.getElem?_zip_eq_some (z := (b, m)).2 ⟨h.getElem?_bounds, h.getElem?_mask⟩
  exact h.not_ordConnected (hall (b, m) (List.mem_of_getElem? hat))

theorem appliesMask (hs : s.WellFormed) (hmask : mask.WellFormed)
    (hversion : s.version = mask.version)
    (op : BitOp) : s.AppliesMask op mask ((op.eval · mask.lowerValue) '' s.values) := by
  cases hfind : s.reportedHoles? op mask with
  | none =>
      obtain ⟨r, hr, hrversion, hrlen, hvalues⟩ := applyMask_of_contiguous hs hmask hversion hfind
      have hrwf := wellFormed_of_applyMask hs hmask hr
      exact ⟨fun _ => ⟨r, hr, hrwf, hrversion, hrlen, hvalues⟩,
        fun hno => absurd ⟨r, hrwf, hrversion, hvalues⟩ hno⟩
  | some found =>
      obtain ⟨⟨b, m⟩, index⟩ := found
      have hresult := applyMask_eq hversion op
      simp only [hfind] at hresult
      have hfirst := firstHoles_of_reportedHoles hs hmask hversion hfind
      exact ⟨fun hexists => absurd hexists (hfirst.not_exists hs hmask hversion),
        fun _ => ⟨_, hresult, rfl, index, b, m, rfl, hfirst⟩⟩

/-- **Applying a mask.** For sections of one version, the operations "and" and "or" with the lowest
address of the mask yield the section of the addresses under the mask, with the prefix length of the
section, wherever these are the addresses of a section, and fail as incompatible elsewhere. For
sections of different versions they fail with the two numbers of segments. -/
theorem applyMask_exact (s mask : Section) (hs : s.WellFormed) (hmask : mask.WellFormed) :
    (s.version = mask.version →
      s.AppliesMask .and mask ((· &&& mask.lowerValue) '' s.values) ∧
      s.AppliesMask .or mask ((· ||| mask.lowerValue) '' s.values)) ∧
    (s.version ≠ mask.version → ∀ op, s.applyMask op mask
      = .error (.sizeMismatch s.version.segmentCount mask.version.segmentCount)) := by
  constructor
  · intro hversion
    exact ⟨appliesMask hs hmask hversion .and, appliesMask hs hmask hversion .or⟩
  · intro hversion op
    exact bind_eq_error_iff.2 (.inl (checkSameVersion_eq_error_iff.2 ⟨hversion, rfl⟩))

/-- Under the mask 255.1.3.255, the addresses 10.0-255.4-7.9 are 10.0-1.0-3.9. With that mask set,
the second segment has the odd numbers only, and it is named. -/
theorem applyMask_exact_odd :
    let s : Section := ⟨.v4, [⟨10, 10⟩, ⟨0, 255⟩, ⟨4, 7⟩, ⟨9, 9⟩], some 24⟩
    let mask : Section := ⟨.v4, [⟨255, 255⟩, ⟨1, 1⟩, ⟨3, 3⟩, ⟨255, 255⟩], none⟩
    let kept : Section := ⟨.v4, [⟨10, 10⟩, ⟨0, 1⟩, ⟨0, 3⟩, ⟨9, 9⟩], some 24⟩
    s.WellFormed ∧ mask.WellFormed ∧ s.version = mask.version ∧
      s.applyMask .and mask = .ok kept ∧ kept.values = (· &&& mask.lowerValue) '' s.values ∧
      s.applyMask .or mask = .error (.maskOfRange .or 1 ⟨0, 255⟩ 1) ∧
      ¬ ∃ t : Section, t.WellFormed ∧ t.version = s.version ∧
        t.values = (· ||| mask.lowerValue) '' s.values := by
  intro s mask kept
  have hs : s.WellFormed := ⟨by decide, by decide, by decide, by decide⟩
  have hmask : mask.WellFormed := ⟨by decide, by decide, by decide, by decide⟩
  obtain ⟨hand, hor⟩ := (applyMask_exact s mask hs hmask).1 rfl
  have hkept : s.applyMask .and mask = .ok kept := by decide
  have hodd : s.applyMask .or mask = .error (.maskOfRange .or 1 ⟨0, 255⟩ 1) := by decide
  refine ⟨hs, hmask, rfl, hkept, ?_, hodd, ?_⟩
  · -- The operation has not failed, so there is a section, and it is the one that was returned.
    by_contra hvalues
    by_cases hexists : ∃ t : Section, t.WellFormed ∧ t.version = s.version ∧
        t.values = (· &&& mask.lowerValue) '' s.values
    · obtain ⟨r, hr, -, -, -, hrvalues⟩ := hand.succeeds hexists
      obtain rfl : kept = r := Except.ok.inj (hkept.symm.trans hr)
      exact hvalues hrvalues
    · obtain ⟨cause, hcause, -⟩ := hand.fails hexists
      cases hkept.symm.trans hcause
  · intro hexists
    obtain ⟨r, hr, -⟩ := hor.succeeds hexists
    cases hodd.symm.trans hr

end Section

end IpSpace
