import IpSpace.Conflict
import IpSpace.Proofs.Coalesce
import IpSpace.Proofs.RangeAlgebra

/-!
# All conflicts, each once

`Conflict.all` sorts the ranges together with their positions and looks, for each range, only as far
as the first one that begins past its end. The plain way is to look at all pairs, in the order of
the list (`Conflict.ofPairs`). The two agree up to order, for two reasons. In a sorted list nothing
is found past the point where the search stops (`ofSorted_eq_ofPairs`). And the conflict of two
ranges does not depend on which of them comes first, so that looking at all pairs finds the same in
every order of the list (`ofPairs_perm`).

For pairs in the order of the list it is plain what is found: one conflict for any two positions
whose ranges meet, and nothing else (`mem_ofPairs_zipIdx`, `pairwise_ofPairs`).
-/

namespace IpSpace.Conflict

open AddressRange (BeginsBefore)

/-! ## All pairs -/

/-- The conflicts of each range of a list with all those after it. -/
def ofPairs : List (AddressRange × Nat) → List Conflict
  | [] => []
  | a :: rest => rest.filterMap (of? a) ++ ofPairs rest

section Pairs

variable {a b : AddressRange × Nat} {l l' : List (AddressRange × Nat)} {c : Conflict}

/-- The conflicts of a list are those of any two of its members, in their order. -/
theorem mem_ofPairs : c ∈ ofPairs l ↔ ∃ a b, [a, b].Sublist l ∧ of? a b = some c := by
  induction l with
  | nil => simp [ofPairs]
  | cons a rest ih =>
      rw [ofPairs, List.mem_append, List.mem_filterMap, ih]
      constructor
      · rintro (⟨b, hb, hc⟩ | ⟨x, y, hxy, hc⟩)
        · exact ⟨a, b, List.cons_sublist_cons.2 (List.singleton_sublist.2 hb), hc⟩
        · exact ⟨x, y, hxy.cons a, hc⟩
      · rintro ⟨x, y, hxy, hc⟩
        rcases List.sublist_cons_iff.1 hxy with hrest | ⟨_, heq, hy⟩
        · exact Or.inr ⟨x, y, hrest, hc⟩
        · obtain ⟨rfl, rfl⟩ := List.cons.inj heq
          exact Or.inl ⟨y, List.singleton_sublist.1 hy, hc⟩

/-- The conflict of two ranges names the earlier one first, whichever of them is given first. -/
theorem of?_comm (hne : a.2 ≠ b.2) : of? a b = of? b a := by
  unfold of?
  rw [AddressRange.inter?_comm]
  by_cases hle : a.2 ≤ b.2
  · have hnot : ¬ b.2 ≤ a.2 := by omega
    simp only [if_pos hle, if_neg hnot]
  · have hge : b.2 ≤ a.2 := by omega
    simp only [if_neg hle, if_pos hge]

/-- Looking at all pairs finds the same conflicts in every order of the list. -/
theorem ofPairs_perm (h : l.Perm l') (hne : l.Pairwise fun a b => a.2 ≠ b.2) :
    (ofPairs l).Perm (ofPairs l') := by
  induction h with
  | nil => exact .refl _
  | cons a hrest ih =>
      exact (hrest.filterMap (of? a)).append (ih (List.pairwise_cons.1 hne).2)
  | swap a b rest =>
      have hba : of? b a = of? a b := of?_comm ((List.pairwise_cons.1 hne).1 a List.mem_cons_self)
      -- Both sides hold what `a` and `b` share, and what each of them shares with the rest.
      have hcons : ∀ x y : AddressRange × Nat, ofPairs (x :: y :: rest)
          = (of? x y).toList ++ (rest.filterMap (of? x) ++ rest.filterMap (of? y))
            ++ ofPairs rest := by
        intro x y
        simp only [ofPairs, List.filterMap_cons]
        cases of? x y <;> simp
      rw [hcons, hcons, hba]
      exact (List.perm_append_comm.append_left _).append_right _
  | trans hmiddle _ ih ih' =>
      have hsymm : ∀ {x y : AddressRange × Nat}, x.2 ≠ y.2 → y.2 ≠ x.2 := Ne.symm
      exact (ih hne).trans (ih' ((hmiddle.pairwise_iff hsymm).1 hne))

end Pairs

/-! ## The search in a sorted list -/

section Search

variable {a b : AddressRange × Nat} {l : List (AddressRange × Nat)}

/-- The test that keeps the search for the conflicts of `a` going. -/
def reaches (a b : AddressRange × Nat) : Bool :=
  b.1.version == a.1.version && b.1.lower ≤ a.1.upper

/-- Where the search for conflicts stops, there is none. -/
theorem of?_eq_none (h : reaches a b = false) : of? a b = none := by
  have hover : a.1.overlaps b.1 = false := by
    unfold reaches at h
    unfold AddressRange.overlaps
    rw [Bool.and_eq_false_iff] at h ⊢
    rcases h with h | h
    · exact Or.inl (by rw [h, Bool.false_and])
    · exact Or.inr h
  simp [of?, AddressRange.inter?, hover]

/-- Past a range that begins past the end of `a`, so do all ranges. -/
theorem reaches_of_beginsBefore {c : AddressRange × Nat} (hab : BeginsBefore a.1 b.1)
    (hbc : BeginsBefore b.1 c.1) (hc : reaches a c = true) : reaches a b = true := by
  simp only [reaches, Bool.and_eq_true, beq_iff_eq, decide_eq_true_eq] at hc ⊢
  obtain ⟨hversion, hlower⟩ := hc
  -- `b` comes between two ranges of one version.
  have heq : b.1.version = a.1.version := by
    rcases hab with hlt | ⟨heq, -⟩
    · rcases hbc with hlt' | ⟨heq', -⟩
      · have hself := Version.compare_lt_trans hlt hlt'
        rw [hversion] at hself
        exact absurd hself (Version.compare_self_ne_lt _)
      · exact heq'.trans hversion
    · exact heq.symm
  exact ⟨heq, Nat.le_trans (hbc.le (heq.trans hversion.symm)) hlower⟩

/-- What the search for the conflicts of `a` does not look at holds none. -/
theorem filterMap_takeWhile (hfirst : ∀ b ∈ l, BeginsBefore a.1 b.1)
    (hsorted : l.Pairwise fun b c => BeginsBefore b.1 c.1) :
    (l.takeWhile (reaches a)).filterMap (of? a) = l.filterMap (of? a) := by
  induction l with
  | nil => rfl
  | cons b rest ih =>
      rw [List.forall_mem_cons] at hfirst
      rw [List.pairwise_cons] at hsorted
      rw [List.takeWhile_cons]
      by_cases hb : reaches a b = true
      · rw [if_pos hb, List.filterMap_cons, List.filterMap_cons, ih hfirst.2 hsorted.2]
      · have hnone : ∀ c ∈ b :: rest, of? a c = none := by
          intro c hc
          apply of?_eq_none
          rw [Bool.eq_false_iff]
          intro hreach
          rcases List.mem_cons.1 hc with rfl | hc
          · exact hb hreach
          · exact hb (reaches_of_beginsBefore hfirst.1 (hsorted.1 c hc) hreach)
        rw [if_neg hb, List.filterMap_nil]
        exact (List.filterMap_eq_nil_iff.2 hnone).symm

/-- **In a sorted list the search misses nothing**: it finds what looking at all pairs finds. -/
theorem ofSorted_eq_ofPairs (hsorted : l.Pairwise fun a b => BeginsBefore a.1 b.1) :
    ofSorted l = ofPairs l := by
  induction l with
  | nil => rfl
  | cons a rest ih =>
      rw [List.pairwise_cons] at hsorted
      unfold ofSorted ofPairs
      rw [ih hsorted.2]
      exact congrArg (· ++ ofPairs rest) (filterMap_takeWhile hsorted.1 hsorted.2)

end Search

/-! ## Conflicts of a list -/

/-- The conflict of two ranges of a list that meet: it has their positions, the earlier one first,
and the values that they share. -/
structure IsOf (ranges : List AddressRange) (c : Conflict) : Prop where
  index_lt : c.firstIndex < c.secondIndex
  first_eq : ranges[c.firstIndex]? = some c.first
  second_eq : ranges[c.secondIndex]? = some c.second
  meets : c.first.Meets c.second
  shared_version : c.shared.version = c.first.version
  shared_values : c.shared.values = c.first.values ∩ c.second.values

/-- The order of a list of conflicts: by what is shared, then by the two positions. -/
def ListedBefore (c d : Conflict) : Prop :=
  compare c.shared d.shared = .lt ∨ c.shared = d.shared ∧
    (c.firstIndex < d.firstIndex ∨ c.firstIndex = d.firstIndex ∧ c.secondIndex < d.secondIndex)

section Lists

variable {a b : AddressRange × Nat} {l : List (AddressRange × Nat)} {ranges : List AddressRange}
  {c d : Conflict}

/-- The positions of a conflict are those of the ranges it is made of. -/
theorem indices_of (hlt : a.2 < b.2) (hc : of? a b = some c) :
    c.firstIndex = a.2 ∧ c.secondIndex = b.2 := by
  unfold of? at hc
  obtain ⟨shared, -, rfl⟩ := Option.map_eq_some_iff.1 hc
  rw [if_pos (Nat.le_of_lt hlt)]
  exact ⟨rfl, rfl⟩

/-- In an indexed list no two positions have more than one conflict. -/
theorem pairwise_ofPairs (h : l.Pairwise fun a b => a.2 < b.2) :
    (ofPairs l).Pairwise fun c d =>
      ¬ (c.firstIndex = d.firstIndex ∧ c.secondIndex = d.secondIndex) := by
  induction l with
  | nil => exact List.Pairwise.nil
  | cons a rest ih =>
      rw [List.pairwise_cons] at h
      obtain ⟨hfirst, hrest⟩ := h
      refine List.pairwise_append.2 ⟨List.pairwise_filterMap.2 ?_, ih hrest, ?_⟩
      · -- Two conflicts of `a` differ in the second position.
        refine hrest.imp_of_mem fun {x y} hx hy hxy c hc d hd hcd => ?_
        have hcx := (indices_of (hfirst x hx) hc).2
        have hdy := (indices_of (hfirst y hy) hd).2
        omega
      · -- A conflict of `a` and one without it differ in the first position.
        rintro c hc d hd ⟨hcd, -⟩
        obtain ⟨x, hx, hc⟩ := List.mem_filterMap.1 hc
        obtain ⟨y, z, hyz, hd⟩ := mem_ofPairs.1 hd
        have hca := (indices_of (hfirst x hx) hc).1
        have hdy := (indices_of (List.pairwise_iff_forall_sublist.1 hrest hyz) hd).1
        have hay := hfirst y (hyz.subset List.mem_cons_self)
        omega

/-- Indexing a list puts the positions in ascending order. -/
theorem pairwise_zipIdx (ranges : List AddressRange) :
    ranges.zipIdx.Pairwise fun a b => a.2 < b.2 := by
  have hpositions : (ranges.zipIdx.map Prod.snd).Pairwise (· < ·) := by
    rw [List.zipIdx_map_snd]
    exact List.pairwise_lt_range'
  exact List.pairwise_map.1 hpositions

/-- Two members of an indexed list, in their order, are two positions, in their order. -/
theorem sublist_zipIdx : [a, b].Sublist ranges.zipIdx ↔
    a.2 < b.2 ∧ ranges[a.2]? = some a.1 ∧ ranges[b.2]? = some b.1 := by
  constructor
  · intro h
    refine ⟨List.pairwise_iff_forall_sublist.1 (pairwise_zipIdx ranges) h, ?_, ?_⟩
    · exact List.mem_zipIdx_iff_getElem?.1 (h.subset List.mem_cons_self)
    · exact List.mem_zipIdx_iff_getElem?.1 (h.subset (List.mem_cons_of_mem a List.mem_cons_self))
  · rintro ⟨hlt, ha, hb⟩
    obtain ⟨hai, ha⟩ := List.getElem?_eq_some_iff.1 ha
    obtain ⟨hbi, hb⟩ := List.getElem?_eq_some_iff.1 hb
    have hpair : [(⟨a.2, by rwa [List.length_zipIdx]⟩ : Fin ranges.zipIdx.length),
        ⟨b.2, by rwa [List.length_zipIdx]⟩].Pairwise (· < ·) :=
      List.pairwise_pair.2 hlt
    have hsub := List.map_getElem_sublist hpair
    simpa [ha, hb] using hsub

/-- Two ranges have a conflict exactly if they meet. -/
theorem of?_eq_some_iff (ha : a.1.WellFormed) (hb : b.1.WellFormed) (hlt : a.2 < b.2) :
    of? a b = some c ↔ a.1.Meets b.1 ∧ c = ⟨a.2, b.2, a.1, b.1, a.1.clip b.1⟩ := by
  unfold of?
  simp only [if_pos (Nat.le_of_lt hlt), Option.map_eq_some_iff,
    AddressRange.inter?_eq_some_iff ha hb]
  constructor
  · rintro ⟨shared, ⟨hmeets, rfl⟩, rfl⟩
    exact ⟨hmeets, rfl⟩
  · rintro ⟨hmeets, rfl⟩
    exact ⟨_, ⟨hmeets, rfl⟩, rfl⟩

/-- What ranges that meet share is known by its version and its values. -/
theorem IsOf.shared_eq (hwf : ∀ r ∈ ranges, r.WellFormed) (h : c.IsOf ranges) :
    c.shared = c.first.clip c.second := by
  have hclip := AddressRange.wellFormed_clip (hwf _ (List.mem_of_getElem? h.first_eq)) h.meets
  refine (AddressRange.eq_of_values_eq hclip.lower_le_upper h.shared_version.symm ?_).symm
  rw [AddressRange.values_clip, h.shared_values]

/-- A list has only one conflict at given positions. -/
theorem IsOf.unique (hwf : ∀ r ∈ ranges, r.WellFormed) (hc : c.IsOf ranges) (hd : d.IsOf ranges)
    (hfirst : c.firstIndex = d.firstIndex) (hsecond : c.secondIndex = d.secondIndex) : c = d := by
  have h1 : c.first = d.first := by
    have := hc.first_eq
    rw [hfirst, hd.first_eq] at this
    exact (Option.some.inj this).symm
  have h2 : c.second = d.second := by
    have := hc.second_eq
    rw [hsecond, hd.second_eq] at this
    exact (Option.some.inj this).symm
  have h3 : c.shared = d.shared := by rw [hc.shared_eq hwf, hd.shared_eq hwf, h1, h2]
  cases c
  cases d
  simp_all

/-- Looking at all pairs of an indexed list finds its conflicts. -/
theorem mem_ofPairs_zipIdx (hwf : ∀ r ∈ ranges, r.WellFormed) :
    c ∈ ofPairs ranges.zipIdx ↔ c.IsOf ranges := by
  rw [mem_ofPairs]
  constructor
  · rintro ⟨a, b, hab, hc⟩
    obtain ⟨hlt, ha, hb⟩ := sublist_zipIdx.1 hab
    have hawf := hwf _ (List.mem_of_getElem? ha)
    have hbwf := hwf _ (List.mem_of_getElem? hb)
    obtain ⟨hmeets, rfl⟩ := (of?_eq_some_iff hawf hbwf hlt).1 hc
    exact ⟨hlt, ha, hb, hmeets, rfl, AddressRange.values_clip _ _⟩
  · intro h
    refine ⟨(c.first, c.firstIndex), (c.second, c.secondIndex), ?_, ?_⟩
    · exact sublist_zipIdx.2 ⟨h.index_lt, h.first_eq, h.second_eq⟩
    · have hawf := hwf _ (List.mem_of_getElem? h.first_eq)
      have hbwf := hwf _ (List.mem_of_getElem? h.second_eq)
      refine (of?_eq_some_iff hawf hbwf h.index_lt).2 ⟨h.meets, ?_⟩
      rw [← h.shared_eq hwf]

end Lists

/-! ## Sorting -/

instance : Std.TransOrd Conflict :=
  inferInstanceAs (Std.TransCmp (compareLex (compareOn shared)
    (compareLex (compareOn firstIndex) (compareOn secondIndex))))

section All

variable {ranges : List AddressRange} {c d : Conflict}

/-- Sorting the ranges and stopping the search early loses no conflict and finds none twice. -/
theorem all_perm (ranges : List AddressRange) : (all ranges).Perm (ofPairs ranges.zipIdx) := by
  have hsorted := AddressRange.pairwise_mergeSort_beginsBefore Prod.fst ranges.zipIdx
  have hperm := List.mergeSort_perm ranges.zipIdx fun a b => (compare a.1 b.1).isLE
  have hne : ranges.zipIdx.Pairwise fun a b => a.2 ≠ b.2 :=
    (pairwise_zipIdx ranges).imp Nat.ne_of_lt
  unfold all
  refine (List.mergeSort_perm _ _).trans ?_
  rw [ofSorted_eq_ofPairs hsorted]
  exact (ofPairs_perm hperm.symm hne).symm

/-- The conflicts that are found are those of the list. -/
theorem mem_all (hwf : ∀ r ∈ ranges, r.WellFormed) : c ∈ all ranges ↔ c.IsOf ranges := by
  rw [(all_perm ranges).mem_iff, mem_ofPairs_zipIdx hwf]

/-- Conflicts at different positions that are in the order of the comparison are so strictly. -/
theorem listedBefore_of_isLE (h : (compare c d).isLE)
    (hne : ¬ (c.firstIndex = d.firstIndex ∧ c.secondIndex = d.secondIndex)) : ListedBefore c d := by
  have hcompare : compare c d = (compare c.shared d.shared).then
      ((compare c.firstIndex d.firstIndex).then (compare c.secondIndex d.secondIndex)) := rfl
  simp only [hcompare, Ordering.isLE_then_iff_or, Std.LawfulEqOrd.compare_eq_iff_eq,
    Nat.compare_eq_lt, Nat.isLE_compare] at h
  rcases h with h | ⟨hshared, h⟩
  · exact Or.inl h
  · exact Or.inr ⟨hshared, by omega⟩

/-- The conflicts are listed in strictly ascending order. -/
theorem pairwise_all (ranges : List AddressRange) : (all ranges).Pairwise ListedBefore := by
  have hsorted : (all ranges).Pairwise fun c d => (compare c d).isLE :=
    pairwise_mergeSort_key id _
  have hne := (all_perm ranges).symm.pairwise (pairwise_ofPairs (pairwise_zipIdx ranges))
    fun {c d} hcd hdc => hcd ⟨hdc.1.symm, hdc.2.symm⟩
  exact hsorted.imp₂ (fun c d => listedBefore_of_isLE) hne

/-- No conflict is listed before itself. -/
theorem ListedBefore.ne (h : ListedBefore c d) : c ≠ d := by
  rintro rfl
  have hself : compare c.shared c.shared = .eq := Std.ReflCmp.compare_self
  rcases h with h | ⟨-, h⟩
  · rw [hself] at h
    cases h
  · omega

end All

/-- **All conflicts are found, each once and in order.** The result holds exactly the conflicts of
the list. Any two positions whose ranges have one version and share a value have exactly one of
them, which lists the ranges at the two positions and the values they share; all other positions
have none. The conflicts are in strictly ascending order by shared range and positions. -/
theorem all_exact_sorted (ranges : List AddressRange) (hwf : ∀ r ∈ ranges, r.WellFormed) :
    (∀ c, c ∈ all ranges ↔ c.IsOf ranges) ∧
    (∀ i j a b, i < j → ranges[i]? = some a → ranges[j]? = some b → a.Meets b →
      (all ranges).countP (fun c => c.firstIndex = i ∧ c.secondIndex = j) = 1) ∧
    (all ranges).Pairwise ListedBefore := by
  refine ⟨fun c => mem_all hwf, ?_, pairwise_all ranges⟩
  intro i j a b hij ha hb hmeets
  have hof : IsOf ranges ⟨i, j, a, b, a.clip b⟩ :=
    ⟨hij, ha, hb, hmeets, rfl, AddressRange.values_clip a b⟩
  have hnodup : (all ranges).Nodup := (pairwise_all ranges).imp ListedBefore.ne
  rw [← List.count_eq_one_of_mem hnodup ((mem_all hwf).2 hof)]
  -- Among the conflicts of the list, the positions single out this one.
  refine List.countP_congr fun c hc => ?_
  rw [decide_eq_true_eq, beq_iff_eq]
  constructor
  · rintro ⟨hfirst, hsecond⟩
    exact ((mem_all hwf).1 hc).unique hwf hof hfirst hsecond
  · rintro rfl
    exact ⟨rfl, rfl⟩

/-- A range encloses two equal ones; an IPv6 range with the same numbers has no conflict. -/
theorem all_exact_sorted_nested :
    let ranges : List AddressRange := [⟨.v6, 10, 20⟩, ⟨.v4, 10, 20⟩, ⟨.v4, 1, 100⟩, ⟨.v4, 10, 20⟩]
    (∀ r ∈ ranges, r.WellFormed) ∧
      (∀ shared, ⟨0, 1, ⟨.v6, 10, 20⟩, ⟨.v4, 10, 20⟩, shared⟩ ∉ all ranges) ∧
      ⟨2, 3, ⟨.v4, 1, 100⟩, ⟨.v4, 10, 20⟩, ⟨.v4, 10, 20⟩⟩ ∈ all ranges ∧
      (all ranges).countP (fun c => c.firstIndex = 1 ∧ c.secondIndex = 3) = 1 := by
  intro ranges
  have hwf : ∀ r ∈ ranges, r.WellFormed := by decide
  obtain ⟨hmem, hcount, -⟩ := all_exact_sorted ranges hwf
  have hshared : (10 : Nat) ∈ AddressRange.values ⟨.v4, 10, 20⟩ := ⟨by decide, by decide⟩
  refine ⟨hwf, ?_,
    (hmem _).2 ⟨by decide, rfl, rfl, ⟨rfl, 10, ⟨by decide, by decide⟩, hshared⟩, rfl, ?_⟩,
    hcount 1 3 _ _ (by decide) rfl rfl ⟨rfl, 10, hshared, hshared⟩⟩
  · intro shared hin
    cases ((hmem _).1 hin).meets.version_eq
  · ext x
    simp only [AddressRange.mem_values, Set.mem_inter_iff]
    omega

end IpSpace.Conflict
