import IpSpace.Proofs.Difference
import IpSpace.Proofs.NetworkHull

/-!
# Prefix lengths of the pieces of a difference

The pieces that a difference cuts out of a section with a prefix length carry lengths of their own.
A piece is made of whole networks from one length on (`Section.isBlockAt_iff_minBlockPrefixLen_le`),
so among the lengths that are not less than the section's own the least one is the larger of the two
(`Section.isLeast_networkLengths`). The piece carries it, unless its networks are single addresses
whatever the length: then it carries none (`Section.carriesNetworkLength_piece`).

What a difference leaves whole keeps its prefix length. These are the sections that do not meet the
second one; a single address outside the second section is one of them.
-/

namespace IpSpace.Section

variable {s other : Section} {own : Nat}

/-! ## Lengths of networks -/

/-- The lengths from `own` on at which a section is made of whole networks. -/
def networkLengths (own : Nat) (s : Section) : Set Nat :=
  {q | own ≤ q ∧ q ≤ s.bitCount ∧ s.version.ClosedAt q s.values}

/-- **The least such length is the larger of `own` and the least one of all.** -/
theorem isLeast_networkLengths (hs : s.WellFormed) (hown : own ≤ s.bitCount) :
    IsLeast (s.networkLengths own) (max s.minBlockPrefixLen own) := by
  have hmem : ∀ q, q ∈ s.networkLengths own ↔
      own ≤ q ∧ q ≤ s.bitCount ∧ s.minBlockPrefixLen ≤ q := by
    intro q
    refine and_congr_right fun _ => and_congr_right fun hq => ?_
    rw [← isBlockAt_iff_closedAt hs hq, isBlockAt_iff_minBlockPrefixLen_le hs]
  constructor
  · rw [hmem]
    exact ⟨Nat.le_max_right _ _, Nat.max_le.2 ⟨s.minBlockPrefixLen_le, hown⟩, Nat.le_max_left _ _⟩
  · intro q hq
    obtain ⟨hle, -, hmin⟩ := (hmem q).1 hq
    exact Nat.max_le.2 ⟨hmin, hle⟩

/-- At the full length networks are single addresses. A section is made of no larger ones exactly if
this is the least length at which it is made of networks. -/
theorem minBlockPrefixLen_eq_bitCount_iff (hs : s.WellFormed) :
    s.minBlockPrefixLen = s.bitCount ↔ ∀ q < s.bitCount, ¬ s.version.ClosedAt q s.values := by
  have hclosed : ∀ q < s.bitCount, (¬ s.version.ClosedAt q s.values ↔ q < s.minBlockPrefixLen) := by
    intro q hq
    rw [← isBlockAt_iff_closedAt hs (Nat.le_of_lt hq), isBlockAt_iff_minBlockPrefixLen_le hs,
      Nat.not_le]
  constructor
  · intro heq q hq
    rw [hclosed q hq, heq]
    exact hq
  · intro hnever
    by_contra hne
    have hlt := Nat.lt_of_le_of_ne s.minBlockPrefixLen_le hne
    exact Nat.lt_irrefl _ ((hclosed _ hlt).1 (hnever _ hlt))

/-! ## Pieces -/

/-- What the prefix length of a piece has to be if it is cut out of a section with the prefix length
`own`: the least length from `own` on at which the piece is made of whole networks, or none if these
are single addresses whatever the length. -/
structure CarriesNetworkLength (own : Nat) (piece : Section) : Prop where
  eq_none_iff : piece.prefixLen = none ↔
    ∀ q < piece.bitCount, ¬ piece.version.ClosedAt q piece.values
  isLeast : ∀ p ∈ piece.prefixLen, IsLeast (piece.networkLengths own) p

/-- **A piece of a section with a prefix length carries the least one there is for it.** -/
theorem carriesNetworkLength_piece {bounds : List Bounds} (hs : s.WellFormed)
    (hpiece : (s.piece bounds).WellFormed) (hown : s.prefixLen = some own) :
    CarriesNetworkLength own (s.piece bounds) := by
  have hprefixLen : (s.piece bounds).prefixLen = piecePrefixLen own (s.piece bounds) := by
    rw [piece, hown]
    rfl
  constructor
  · rw [← minBlockPrefixLen_eq_bitCount_iff hpiece, hprefixLen, piecePrefixLen]
    simp only [ite_eq_left_iff, reduceCtorEq, imp_false, not_not]
  · intro p hp
    rw [hprefixLen, piecePrefixLen] at hp
    split at hp
    · cases hp
    · cases hp
      exact isLeast_networkLengths hpiece (hs.prefixLen_le own hown)

theorem prefixLen_piece_of_none (hown : s.prefixLen = none) (bounds : List Bounds) :
    (s.piece bounds).prefixLen = none := by
  rw [piece, hown]
  rfl

/-! ## What a difference leaves whole -/

/-- A single address that is not in a set does not meet it. -/
theorem disjoint_of_values_eq_singleton {whole : Set Nat} {x : Nat} (hx : s.values = {x})
    (hout : ¬ s.values ⊆ whole) : Disjoint s.values whole := by
  rw [hx, Set.singleton_subset_iff] at hout
  rw [hx, Set.disjoint_singleton_left]
  exact hout

/-- Nothing is cut where there is no common address. -/
theorem difference_of_disjoint (hs : s.WellFormed) (ho : other.WellFormed)
    (hversion : s.version = other.version) (hdisjoint : Disjoint s.values other.values) :
    s.difference other = .ok [s] := by
  have hover : ¬ s.overlaps other = true := by
    rw [overlaps_iff_not_disjoint hs ho hversion, not_not]
    exact hdisjoint
  rw [difference_eq hversion, if_neg hover]

theorem difference_of_not_disjoint (hs : s.WellFormed) (ho : other.WellFormed)
    (hversion : s.version = other.version) (hmeet : ¬ Disjoint s.values other.values) :
    s.difference other = .ok ((differencePieces s.bounds other.bounds).map s.piece) := by
  rw [difference_eq hversion, if_pos ((overlaps_iff_not_disjoint hs ho hversion).2 hmeet)]

/-! ## All pieces of a difference -/

/-- **The prefix lengths of the pieces of a difference.** If a section with a prefix length meets
the second section, each piece carries the least length, from that one on, at which it is made of
whole networks; a piece that is made of them at no length but the full one carries none. The pieces
of a section without a prefix length carry none. A section that does not meet the second one is left
as it is, with its prefix length, and so is a single address that is not in the second one. -/
theorem difference_prefixLens_exact (s other : Section) (hs : s.WellFormed) (ho : other.WellFormed)
    (hversion : s.version = other.version) :
    ∃ pieces, s.difference other = .ok pieces ∧ union pieces = s.values \ other.values ∧
      (∀ own, s.prefixLen = some own → ¬ Disjoint s.values other.values →
        ∀ piece ∈ pieces, CarriesNetworkLength own piece) ∧
      (s.prefixLen = none → ∀ piece ∈ pieces, piece.prefixLen = none) ∧
      (Disjoint s.values other.values ∨ (∃ x, s.values = {x}) ∧ ¬ s.values ⊆ other.values →
        pieces = [s]) := by
  by_cases hdisjoint : Disjoint s.values other.values
  · refine ⟨[s], difference_of_disjoint hs ho hversion hdisjoint, ?_, ?_, ?_, fun _ => rfl⟩
    · rw [hdisjoint.sdiff_eq_left]
      ext x
      simp [mem_union]
    · exact fun _ _ hmeet => absurd hdisjoint hmeet
    · exact fun hnone => List.forall_mem_singleton.2 hnone
  · -- Where they overlap, the pieces are cut out segment by segment.
    have hover := (overlaps_iff_not_disjoint hs ho hversion).2 hdisjoint
    refine ⟨_, difference_of_not_disjoint hs ho hversion hdisjoint, ?_, ?_, ?_, ?_⟩
    · ext x
      exact mem_union_pieces hs ho hover
    · intro own hown _ p hp
      obtain ⟨bounds, hbounds, rfl⟩ := List.mem_map.1 hp
      exact carriesNetworkLength_piece hs (wellFormed_piece hs ho hover hbounds) hown
    · intro hnone p hp
      obtain ⟨bounds, -, rfl⟩ := List.mem_map.1 hp
      exact prefixLen_piece_of_none hnone bounds
    · rintro (hnot | ⟨⟨x, hx⟩, hout⟩)
      · exact absurd hnot hdisjoint
      · exact absurd (disjoint_of_values_eq_singleton hx hout) hdisjoint

/-- Taking 10.0.128-255.7 away from 10.0.0-255.0-255 of length 20 leaves three pieces. The first is
made of networks from length 17 on and carries the length 20, the second is made of single addresses
at every length but the full one, and the third is made of networks from length 29 on. -/
theorem difference_prefixLens_exact_cut :
    let s : Section := ⟨.v4, [.single 10, .single 0, ⟨0, 255⟩, ⟨0, 255⟩], some 20⟩
    let other : Section := ⟨.v4, [.single 10, .single 0, ⟨128, 255⟩, .single 7], none⟩
    let front : Section := ⟨.v4, [.single 10, .single 0, ⟨0, 127⟩, ⟨0, 255⟩], some 20⟩
    let below : Section := ⟨.v4, [.single 10, .single 0, ⟨128, 255⟩, ⟨0, 6⟩], none⟩
    let above : Section := ⟨.v4, [.single 10, .single 0, ⟨128, 255⟩, ⟨8, 255⟩], some 29⟩
    s.WellFormed ∧ other.WellFormed ∧ s.version = other.version ∧
      s.difference other = .ok [front, below, above] ∧ IsLeast (front.networkLengths 20) 20 ∧
      (∀ q < 32, ¬ Version.v4.ClosedAt q below.values) ∧ IsLeast (above.networkLengths 20) 29 := by
  intro s other front below above
  have hs : s.WellFormed := ⟨rfl, by decide, by decide, by decide⟩
  have ho : other.WellFormed := ⟨rfl, by decide, by decide, by decide⟩
  obtain ⟨pieces, hpieces, -, hcarries, -, -⟩ := difference_prefixLens_exact s other hs ho rfl
  have hmeet : ¬ Disjoint s.values other.values :=
    (overlaps_iff_not_disjoint hs ho rfl).1 (by decide)
  have hlist : s.difference other = .ok [front, below, above] := by decide
  obtain rfl := Except.ok.inj (hlist.symm.trans hpieces)
  have hall := hcarries 20 rfl hmeet
  refine ⟨hs, ho, rfl, hlist, ?_, ?_, ?_⟩
  · exact (hall front (by simp)).isLeast 20 rfl
  · exact (hall below (by simp)).eq_none_iff.1 rfl
  · exact (hall above (by simp)).isLeast 29 rfl

end IpSpace.Section
