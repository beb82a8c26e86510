import IpSpace.Proofs.Comparison
import IpSpace.Proofs.Machine.Conversions

/-!
# Intersection and difference on the machine

An intersection looks for shortcuts first: a section that contains the other one is not cut. A
difference goes through the segments with the common values of those that it has passed. It steps
one past the upper end of the other section only where its own values go on there, and one below its
lower end only where its own values come before it, so neither step leaves the segment
(`splitSegment?_eq`).

Every piece of a difference has the common values in front, a part of the segment at hand, and the
remaining segments, which are cut off behind that segment. The loop thus finds the pieces that the
library finds by recursion on the segments (`differenceLoop?_eq`).
-/

namespace IpSpace

open AddressError Section

namespace Machine

variable {s other : Section} {a b : Bounds} {as bs found : List Bounds} {index : Nat}

/-! ## Shortcuts -/

/-- Items of one version pass the check. -/
theorem checkSameVersion_of_eq {v w : Version} (h : v = w) : checkSameVersion v w = .ok () :=
  checkSameVersion_eq_ok_iff.2 h

/-- A segment contains another one if the ends of that one are within its own. -/
theorem contains_iff_bounds : a.contains b = true ↔ a.lower ≤ b.lower ∧ b.upper ≤ a.upper := by
  rw [Bounds.contains, Bool.and_eq_true, decide_eq_true_iff, decide_eq_true_iff]

/-- The common values of a segment and one that it contains are those of the latter. -/
theorem inter_eq_right (h : a.contains b = true) : a.inter b = b := by
  obtain ⟨hlower, hupper⟩ := contains_iff_bounds.1 h
  rw [Bounds.inter, Nat.max_eq_right hlower, Nat.min_eq_right hupper]

theorem inter_eq_left (h : b.contains a = true) : a.inter b = a := by
  obtain ⟨hlower, hupper⟩ := contains_iff_bounds.1 h
  rw [Bounds.inter, Nat.max_eq_left hlower, Nat.min_eq_left hupper]

/-- Segments that the others are contained in leave those as they are. -/
theorem zipWith_inter_eq_right (h : List.Forall₂ (fun a b => a.contains b = true) as bs) :
    as.zipWith Bounds.inter bs = bs := by
  induction h with
  | nil => rfl
  | cons hab _ ih => rw [List.zipWith_cons_cons, inter_eq_right hab, ih]

theorem zipWith_inter_eq_left (h : List.Forall₂ (fun b a => b.contains a = true) bs as) :
    as.zipWith Bounds.inter bs = as := by
  induction h with
  | nil => rfl
  | cons hab _ ih => rw [List.zipWith_cons_cons, inter_eq_left hab, ih]

/-- Nothing is left of bounds that others contain. -/
theorem differencePieces_eq_nil (h : List.Forall₂ (fun b a => b.contains a = true) bs as) :
    differencePieces as bs = [] := by
  induction h with
  | nil => rfl
  | cons hab _ ih =>
      obtain ⟨hlower, hupper⟩ := contains_iff_bounds.1 hab
      rw [differencePieces, ih, Bounds.outside, if_neg (Nat.not_lt.2 hlower),
        if_neg (Nat.not_lt.2 hupper)]
      rfl

section Shortcuts

variable (hs : s.WellFormed) (ho : other.WellFormed)

include hs ho

/-- A section overlaps what it contains. -/
theorem overlaps_of_contains (h : s.contains other = true) : s.overlaps other = true := by
  obtain ⟨hversion, hsub⟩ := (contains_iff_subset hs ho).1 h
  rw [overlaps_iff_not_disjoint hs ho hversion]
  intro hdisjoint
  obtain ⟨x, hx⟩ := values_nonempty ho
  exact Set.disjoint_left.1 hdisjoint (hsub hx) hx

/-- A section overlaps what it is contained in. -/
theorem overlaps_of_contained (h : other.contains s = true) : s.overlaps other = true := by
  have hover := overlaps_of_contains ho hs h
  obtain ⟨hversion, -⟩ := (contains_iff_subset ho hs).1 h
  rw [overlaps_iff_not_disjoint ho hs hversion] at hover
  rw [overlaps_iff_not_disjoint hs ho hversion.symm, disjoint_comm]
  exact hover

/-- A single address that a section overlaps is contained in it. -/
theorem contains_of_single (hsingle : s.isMultiple = false) (h : s.overlaps other = true) :
    other.contains s = true := by
  have hversion := ((overlaps_iff_meet hs ho).1 h).1
  rw [overlaps_iff_not_disjoint hs ho hversion, Set.not_disjoint_iff] at h
  obtain ⟨x, hx, hxo⟩ := h
  rw [contains_iff_subset ho hs]
  refine ⟨hversion.symm, fun y hy => ?_⟩
  have hends := (isMultiple_eq_false_iff hs).1 hsingle
  have hIcc := values_subset_Icc hs
  have hx' := hIcc hx
  have hy' := hIcc hy
  rw [hends, Set.Icc_self, Set.mem_singleton_iff] at hx' hy'
  rw [hy', ← hx']
  exact hxo

end Shortcuts

/-! ## Intersection -/

/-- The longer of two prefix lengths, if both are there. -/
def longerPrefix (s other : Section) : Option Nat :=
  match s.prefixLen, other.prefixLen with
  | some p, some q => some (max p q)
  | _, _ => none

/-- The common values of two segments. -/
def interSegment (a b : Bounds) : Bounds :=
  if b.contains a then a else if a.contains b then b else a.inter b

/-- The common addresses of two sections, if there are any. -/
def inter? (s other : Section) : Option (Except AddressError (Option Section)) :=
  after? (checkSameVersion s.version other.version) fun _ => do
    if other.contains s then return .ok (some (← withPrefix? s (longerPrefix s other)))
    if s.contains other then return .ok (some (← withPrefix? other (longerPrefix s other)))
    if !s.overlaps other then return .ok none
    let bounds := s.bounds.zipWith interSegment other.bounds
    return .ok (some (← fromBounds? s.version bounds (longerPrefix s other)))

/-- The prefix length of the common addresses is the longer one of both. -/
theorem longerPrefix_eq (s other : Section) :
    longerPrefix s other = (s.common other).prefixLen := by
  rw [longerPrefix, common]
  rcases s.prefixLen with - | p
  · rfl
  · rcases other.prefixLen with - | q
    · rfl
    · rfl

/-- The shortcuts for segments do not change what is common to them. -/
theorem interSegment_eq (a b : Bounds) : interSegment a b = a.inter b := by
  rw [interSegment]
  split
  case isTrue h => exact (inter_eq_left h).symm
  case isFalse =>
    split
    case isTrue h => exact (inter_eq_right h).symm
    case isFalse => rfl

section Inter

variable (hs : s.WellFormed) (ho : other.WellFormed)

include hs ho

/-- The longer one of two prefix lengths is within the address. -/
theorem longerPrefix_le (hover : s.overlaps other = true) :
    ∀ p ∈ longerPrefix s other, p ≤ s.bitCount :=
  fun p hp => (wellFormed_common hs ho hover).prefixLen_le p (longerPrefix_eq s other ▸ hp)

/-- A section that the other one contains is not cut. -/
theorem inter?_of_contained (h : other.contains s = true) :
    inter? s other = some (.ok (some (s.common other))) := by
  obtain ⟨hversion, hall⟩ := (contains_iff_forall₂ ho hs).1 h
  have hover := overlaps_of_contained hs ho h
  have hsame : s.withPrefixLen (longerPrefix s other) = s.common other := by
    rw [longerPrefix_eq, common, zipWith_inter_eq_left hall]
    rfl
  rw [inter?, checkSameVersion_of_eq hversion.symm, ← hsame]
  exact (if_pos h).trans (bind_eq (withPrefix?_eq hs (longerPrefix_le hs ho hover)))

/-- Neither is the other one, if the section contains it. -/
theorem inter?_of_contains (hnot : ¬ other.contains s = true) (h : s.contains other = true) :
    inter? s other = some (.ok (some (s.common other))) := by
  obtain ⟨hversion, hall⟩ := (contains_iff_forall₂ hs ho).1 h
  have hover := overlaps_of_contains hs ho h
  have hbits : s.bitCount = other.bitCount := congrArg Version.bitCount hversion
  have hsame : other.withPrefixLen (longerPrefix s other) = s.common other := by
    rw [longerPrefix_eq, common, zipWith_inter_eq_right hall, hversion]
    rfl
  rw [inter?, checkSameVersion_of_eq hversion, ← hsame]
  exact (if_neg hnot).trans ((if_pos h).trans (bind_eq (withPrefix?_eq ho
    (hbits ▸ longerPrefix_le hs ho hover))))

/-- Else all segments are cut. -/
theorem inter?_of_overlaps (hcontained : ¬ other.contains s = true)
    (hcontains : ¬ s.contains other = true)
    (hover : s.overlaps other = true) : inter? s other = some (.ok (some (s.common other))) := by
  have hversion := ((overlaps_iff_meet hs ho).1 hover).1
  have hbounds : s.bounds.zipWith interSegment other.bounds = (s.common other).bounds :=
    congrArg (fun f => List.zipWith f s.bounds other.bounds)
      (funext fun a => funext (interSegment_eq a))
  have hbuilt := fromBounds?_eq (wellFormed_common hs ho hover)
  rw [inter?, checkSameVersion_of_eq hversion]
  refine (if_neg hcontained).trans ((if_neg hcontains).trans ((if_neg (by simp [hover])).trans ?_))
  rw [hbounds, longerPrefix_eq]
  exact bind_eq hbuilt

/-- **The shortcuts of an intersection lead to the common addresses as well**, and what is put
together on any of the ways is a section. -/
theorem inter?_eq : inter? s other = some (s.inter? other) := by
  by_cases hversion : s.version = other.version
  · rw [Section.inter?_eq hversion]
    by_cases hcontained : other.contains s = true
    · rw [if_pos (overlaps_of_contained hs ho hcontained)]
      exact inter?_of_contained hs ho hcontained
    by_cases hcontains : s.contains other = true
    · rw [if_pos (overlaps_of_contains hs ho hcontains)]
      exact inter?_of_contains hs ho hcontained hcontains
    by_cases hover : s.overlaps other = true
    · rw [if_pos hover]
      exact inter?_of_overlaps hs ho hcontained hcontains hover
    · rw [if_neg hover, inter?, checkSameVersion_of_eq hversion]
      exact (if_neg hcontained).trans ((if_neg hcontains).trans (if_pos (by simp [hover])))
  · rw [inter?, Section.inter?, checkSameVersion, if_neg hversion]
    rfl

end Inter

/-! ## Difference -/

/-- The parts of a segment in front of and behind the values of its partner, and the common
values. -/
def splitSegment? (a b : Bounds) : Option (List Bounds × Bounds) := do
  if b.lower ≤ a.lower then
    if a.upper ≤ b.upper then return ([], a)
    return ([⟨← add? 32 b.upper 1, a.upper⟩], ⟨a.lower, b.upper⟩)
  let front : Bounds := ⟨a.lower, ← sub? b.lower 1⟩
  if b.upper < a.upper then return ([front, ⟨← add? 32 b.upper 1, a.upper⟩], b)
  return ([front], ⟨b.lower, a.upper⟩)

/-- The common values of the first segments, then a part of the segment with the given number, then
the remaining segments. -/
def diffSection? (s : Section) (found : List Bounds) (index : Nat) (part : Bounds) :
    Option Section := do
  let rest ← from? s.bounds (← add? 64 index 1)
  fromBounds? s.version (found ++ part :: rest) none

/-- Goes through the segments with the common values of those that it has passed. -/
def differenceLoop? (s : Section) :
    List Bounds → List ((Bounds × Bounds) × Nat) → Option (List Section)
  | _, [] => some []
  | found, ((a, b), index) :: rest => do
    let (parts, common) ← splitSegment? a b
    let pieces ← parts.mapM (diffSection? s found index)
    return pieces ++ (← differenceLoop? s (found ++ [common]) rest)

/-- A piece with the smallest prefix length of whole networks, but not less than `own`, unless that
is the full width. -/
def assignPrefix? (own : Nat) (piece : Section) : Option Section := do
  let p ← minBlockOf? piece
  if p = piece.bitCount then return piece
  withPrefix? piece (some (max p own))

/-- The addresses of a section that are not in `other`. -/
def difference? (s other : Section) : Option (Except AddressError (List Section)) :=
  after? (checkSameVersion s.version other.version) fun _ => do
    if !s.isMultiple then return .ok (if other.contains s then [] else [s])
    if !s.overlaps other then return .ok [s]
    let pieces ← differenceLoop? s [] (s.bounds.zip other.bounds).zipIdx
    let _ ← text? s
    let _ ← text? other
    match s.prefixLen with
    | none => return .ok pieces
    | some own => return .ok (← pieces.mapM (assignPrefix? own))

/-- **A step past an end of the other segment stays within a word.** -/
theorem splitSegment?_eq {bits : Nat} (hbits : bits ≤ 16) (ha : a.Within bits)
    (hover : a.overlaps b = true) :
    splitSegment? a b = some (a.outside b, a.inter b) := by
  obtain ⟨hlower, hupper⟩ := Bounds.overlaps_iff.1 hover
  have hroom : a.upper < 2 ^ 32 :=
    Nat.lt_of_lt_of_le ha.upper_lt (Nat.pow_le_pow_right (by decide) (by omega))
  rw [splitSegment?, Bounds.outside, Bounds.inter]
  by_cases hfront : b.lower ≤ a.lower
  · rw [if_pos hfront, if_neg (Nat.not_lt.2 hfront), Nat.max_eq_left hfront]
    by_cases hbehind : a.upper ≤ b.upper
    · rw [if_pos hbehind, if_neg (Nat.not_lt.2 hbehind), Nat.min_eq_left hbehind]
      rfl
    · have hlt : b.upper < a.upper := Nat.lt_of_not_le hbehind
      rw [if_neg hbehind, if_pos hlt, Nat.min_eq_right (Nat.le_of_lt hlt),
        bind_eq (add?_eq (by omega))]
      rfl
  · have hlt : a.lower < b.lower := Nat.lt_of_not_le hfront
    rw [if_neg hfront, if_pos hlt, Nat.max_eq_right (Nat.le_of_lt hlt),
      bind_eq (sub?_eq (by omega))]
    by_cases hbehind : b.upper < a.upper
    · rw [if_pos hbehind, if_pos hbehind, Nat.min_eq_right (Nat.le_of_lt hbehind),
        bind_eq (add?_eq (by omega))]
      rfl
    · rw [if_neg hbehind, if_neg hbehind, Nat.min_eq_left (Nat.le_of_not_lt hbehind)]
      rfl

section Difference

variable (hs : s.WellFormed)

include hs

/-- What is assembled from passed, present and remaining segments is a section. -/
theorem diffSection?_eq {part : Bounds} (hbounds : s.bounds.drop found.length = a :: as)
    (hfound : ∀ c ∈ found, c.Within s.version.segmentBits)
    (hpart : part.Within s.version.segmentBits) :
    diffSection? s found found.length part = some ⟨s.version, found ++ part :: as, none⟩ := by
  have hlen : found.length + (as.length + 1) = s.version.segmentCount := by
    have hdrop := congrArg List.length hbounds
    rw [List.length_drop, List.length_cons, hs.length_bounds] at hdrop
    omega
  have hcount := segmentCount_le s.version
  have hrest : s.bounds.drop (found.length + 1) = as := by
    rw [← List.drop_drop, hbounds]
    rfl
  have hwf : Section.WellFormed ⟨s.version, found ++ part :: as, none⟩ := by
    refine wellFormed_of_within ?_ (fun c hc => ?_) (by simp)
    · rw [List.length_append, List.length_cons, hlen]
    · rcases List.mem_append.1 hc with hc | hc
      · exact hfound c hc
      · rcases List.mem_cons.1 hc with rfl | hc
        · exact hpart
        · exact hs.within c (List.mem_of_mem_drop (hrest ▸ hc))
  rw [diffSection?, bind_eq (add?_eq (by omega)),
    bind_eq (from?_eq (by rw [hs.length_bounds]; omega)), hrest]
  exact fromBounds?_eq hwf

/-- **The loop finds the pieces that the recursion on the segments finds.** -/
theorem differenceLoop?_eq (hmeet : Meet as bs) (hbs : ∀ b ∈ bs, b.Within s.version.segmentBits)
    (hbounds : s.bounds.drop found.length = as)
    (hfound : ∀ c ∈ found, c.Within s.version.segmentBits) :
    differenceLoop? s found ((as.zip bs).zipIdx found.length)
      = some ((differencePieces as bs).map fun rest => ⟨s.version, found ++ rest, none⟩) := by
  induction hmeet generalizing found with
  | nil => rfl
  | @cons a b as bs hab hrest ih =>
      obtain ⟨hb, hbs⟩ := List.forall_mem_cons.1 hbs
      have ha : a.Within s.version.segmentBits :=
        hs.within a (List.mem_of_mem_drop (hbounds ▸ List.mem_cons_self))
      have hinter := Bounds.inter_within ha hb hab
      have hpieces : ∀ part ∈ a.outside b, diffSection? s found found.length part
          = some ⟨s.version, found ++ part :: as, none⟩ := fun part hpart =>
        diffSection?_eq hs hbounds hfound (Bounds.outside_within ha hab part hpart)
      -- The common values of this segment are put behind those of the segments passed before.
      have hdrop : s.bounds.drop (found ++ [a.inter b]).length = as := by
        rw [List.length_append, List.length_singleton, ← List.drop_drop, hbounds]
        rfl
      have hloop := ih hbs hdrop fun c hc => by
        rcases List.mem_append.1 hc with hc | hc
        · exact hfound c hc
        · rw [List.mem_singleton.1 hc]
          exact hinter
      rw [List.length_append, List.length_singleton] at hloop
      rw [List.zip_cons_cons, List.zipIdx_cons, differenceLoop?,
        bind_eq (splitSegment?_eq (segmentBits_le s.version) ha hab)]
      show ((a.outside b).mapM (diffSection? s found found.length) >>= _) = _
      rw [bind_eq (mapM_eq_some hpieces), bind_eq hloop, differencePieces, List.map_append,
        List.map_map, List.map_map]
      simp only [Function.comp_def, List.append_assoc, List.singleton_append]
      rfl

/-- A piece gets its smallest prefix length of whole networks, but none shorter than the given one.
-/
theorem assignPrefix?_eq {own : Nat} (hown : own ≤ s.bitCount) (hnone : s.prefixLen = none) :
    assignPrefix? own s = some (s.withPrefixLen (piecePrefixLen own s)) := by
  rw [assignPrefix?, bind_eq (minBlockOf?_eq hs), piecePrefixLen]
  by_cases hfull : s.minBlockPrefixLen = s.bitCount
  · rw [if_pos hfull, if_pos hfull, withPrefixLen, ← hnone]
    rfl
  · rw [if_neg hfull, if_neg hfull]
    apply withPrefix?_eq hs
    intro p hp
    rw [← Option.some.inj hp]
    exact Nat.max_le.2 ⟨s.minBlockPrefixLen_le, hown⟩

variable (ho : other.WellFormed)

include ho

/-- A single address is left, or taken out as a whole. -/
theorem difference?_of_single (hversion : s.version = other.version)
    (hsingle : s.isMultiple = false) :
    difference? s other = some (s.difference other) := by
  rw [Section.difference_eq hversion, difference?, checkSameVersion_of_eq hversion]
  refine (if_pos (by simp [hsingle])).trans (congrArg (fun pieces => some (Except.ok pieces)) ?_)
  by_cases hover : s.overlaps other = true
  · have hcontains := contains_of_single hs ho hsingle hover
    rw [if_pos hcontains, if_pos hover,
      differencePieces_eq_nil ((contains_iff_forall₂ ho hs).1 hcontains).2]
    rfl
  · rw [if_neg hover, if_neg fun hcontains => hover (overlaps_of_contained hs ho hcontains)]

/-- The pieces get their prefix lengths one by one. -/
theorem mapM_assignPrefix?_eq {own : Nat} (hover : s.overlaps other = true)
    (hp : s.prefixLen = some own) :
    ((differencePieces s.bounds other.bounds).map fun bounds =>
        (⟨s.version, bounds, none⟩ : Section)).mapM (assignPrefix? own)
      = some ((differencePieces s.bounds other.bounds).map s.piece) := by
  rw [List.mapM_map]
  refine mapM_eq_some fun bounds hmem => ?_
  have hpiece : Section.WellFormed ⟨s.version, bounds, none⟩ :=
    wellFormed_withPrefixLen (wellFormed_piece hs ho hover hmem) (by simp)
  rw [Function.comp_apply, assignPrefix?_eq hpiece (hs.prefixLen_le own hp) rfl, piece, hp]
  rfl

/-- Where two sections overlap, the pieces are found segment by segment. -/
theorem difference?_of_overlaps (hmultiple : s.isMultiple = true)
    (hover : s.overlaps other = true) :
    difference? s other = some (s.difference other) := by
  obtain ⟨hversion, hmeet⟩ := (overlaps_iff_meet hs ho).1 hover
  have hloop : differenceLoop? s [] (s.bounds.zip other.bounds).zipIdx
      = some ((differencePieces s.bounds other.bounds).map fun bounds =>
        ⟨s.version, bounds, none⟩) :=
    differenceLoop?_eq hs hmeet (hversion ▸ ho.within) rfl (by simp)
  rw [Section.difference_eq hversion, if_pos hover, difference?, checkSameVersion_of_eq hversion]
  -- Both texts are made for a message that is not needed, and they do not stop the machine either.
  refine (if_neg (by simp [hmultiple])).trans
    ((if_neg (by simp [hover])).trans ((bind_eq hloop).trans
      ((bind_eq (text?_eq hs)).trans ((bind_eq (text?_eq ho)).trans ?_))))
  rcases hp : s.prefixLen with - | own
  · refine congrArg (fun pieces => some (Except.ok pieces)) (List.map_congr_left fun bounds _ => ?_)
    rw [piece, hp]
    rfl
  · exact bind_eq (mapM_assignPrefix?_eq hs ho hover hp)

/-- **A difference never stops.** A section of one address and one that the other does not overlap
are not cut; any other is cut segment by segment. -/
theorem difference?_eq : difference? s other = some (s.difference other) := by
  by_cases hversion : s.version = other.version
  · rcases hmultiple : s.isMultiple with - | -
    · exact difference?_of_single hs ho hversion hmultiple
    by_cases hover : s.overlaps other = true
    · exact difference?_of_overlaps hs ho hmultiple hover
    · rw [Section.difference_eq hversion, if_neg hover, difference?,
        checkSameVersion_of_eq hversion]
      exact (if_neg (by simp [hmultiple])).trans (if_pos (by simp [hover]))
  · rw [difference?, Section.difference, checkSameVersion, if_neg hversion]
    rfl

end Difference

end Machine

end IpSpace
