import IpSpace.AddressRange.Blocks
import IpSpace.Proofs.Maximal
import IpSpace.Proofs.Tiling

/-!
# Splitting a range into aligned blocks

`blockSpans` takes the largest block from the front, then the largest from the back, until nothing
is left. Two aligned blocks that meet are nested (`alignedBlock_subset`), so the largest block at
either end of a range is maximal in it: a larger block would have to begin, or end, with the range
as well. What is left between the two blocks is again a range, and what is maximal there is maximal
in the whole. So all the blocks are maximal, and they tile the range
(`isMaximal_of_mem_blockSpans`, `tiles_blockSpans`).
-/

namespace IpSpace

namespace Bits

/-- The zero bits at the low end are the powers of two that divide. -/
theorem le_trailingZeros_iff {bound h value : Nat} :
    h ≤ trailingZeros bound value ↔ h ≤ bound ∧ 2 ^ h ∣ value := by
  induction bound generalizing h value with
  | zero =>
      rw [trailingZeros, Nat.le_zero]
      refine ⟨?_, And.left⟩
      rintro rfl
      simp
  | succ bound ih =>
      cases h with
      | zero => simp
      | succ h =>
          rw [trailingZeros]
          split
          case isTrue heven =>
            obtain ⟨half, rfl⟩ := Nat.dvd_of_mod_eq_zero heven
            rw [Nat.mul_div_cancel_left half (by omega), Nat.succ_le_succ_iff, ih,
              Nat.succ_le_succ_iff, Nat.pow_succ', Nat.mul_dvd_mul_iff_left (by omega)]
          case isFalse hodd =>
            have hnot : ¬ 2 ^ (h + 1) ∣ value := by
              intro hdvd
              rw [Nat.pow_succ'] at hdvd
              exact hodd (Nat.mod_eq_zero_of_dvd (Nat.dvd_trans (Nat.dvd_mul_right 2 _) hdvd))
            simp [hnot]

/-- The one bits at the low end are the powers of two that divide the successor. -/
theorem le_trailingOnes_iff {bound h value : Nat} :
    h ≤ trailingOnes bound value ↔ h ≤ bound ∧ 2 ^ h ∣ value + 1 :=
  le_trailingZeros_iff

end Bits

/-! ## Aligned blocks -/

/-- The `2 ^ h` numbers whose bits above the low `h` ones make up `k`. -/
def alignedBlock (h k : Nat) : Set Nat :=
  {x | x / 2 ^ h = k}

/-- The aligned blocks of words of `width` bits, of any size. -/
def alignedBlocks (width : Nat) : Set (Set Nat) :=
  {block | ∃ h ≤ width, ∃ k, block = alignedBlock h k}

/-- A block has the numbers with the same quotient. -/
theorem mem_alignedBlock {h k x : Nat} : x ∈ alignedBlock h k ↔ x / 2 ^ h = k :=
  Iff.rfl

/-- A block has no gaps. -/
theorem alignedBlock_eq_Icc (h k : Nat) :
    alignedBlock h k = Set.Icc (k * 2 ^ h) (k * 2 ^ h + (2 ^ h - 1)) := by
  ext x
  have hpos := Nat.two_pow_pos h
  rw [mem_alignedBlock, Set.mem_Icc, Nat.div_eq_iff hpos]
  omega

/-- Of two aligned blocks that meet, the one with fewer numbers lies in the other. -/
theorem alignedBlock_subset {h k h' k' : Nat} (hle : h ≤ h')
    (hmeet : (alignedBlock h k ∩ alignedBlock h' k').Nonempty) :
    alignedBlock h k ⊆ alignedBlock h' k' := by
  obtain ⟨x, rfl, rfl⟩ := hmeet
  intro y hy
  rw [mem_alignedBlock] at hy ⊢
  rw [← Nat.add_sub_of_le hle, Nat.pow_add, ← Nat.div_div_eq_div_mul, ← Nat.div_div_eq_div_mul, hy]

namespace BlockSpan

/-- The numbers of the block. -/
def values (b : BlockSpan) : Set Nat :=
  Set.Icc b.start b.stop

/-- The block is aligned, and not larger than a word of `width` bits allows. -/
structure Aligned (width : Nat) (b : BlockSpan) : Prop where
  hostBits_le : b.hostBits ≤ width
  dvd_start : 2 ^ b.hostBits ∣ b.start

variable {width lower upper : Nat} {b : BlockSpan}

theorem start_le_stop (b : BlockSpan) : b.start ≤ b.stop :=
  Nat.le_add_right _ _

/-- The values of an aligned span are one block. -/
theorem Aligned.values_eq (h : b.Aligned width) :
    b.values = alignedBlock b.hostBits (b.start / 2 ^ b.hostBits) := by
  rw [values, stop, alignedBlock_eq_Icc, Nat.div_mul_cancel h.dvd_start]

theorem Aligned.mem_alignedBlocks (h : b.Aligned width) : b.values ∈ alignedBlocks width :=
  ⟨_, h.hostBits_le, _, h.values_eq⟩

/-- An aligned block is maximal if no larger aligned block around it fits into the whole. -/
theorem Aligned.isMaximal {whole : Set Nat} (hb : b.Aligned width) (hsub : b.values ⊆ whole)
    (hlargest : ∀ h ≤ width, ∀ k, alignedBlock h k ⊆ whole → b.values ⊆ alignedBlock h k →
      h ≤ b.hostBits) :
    IsMaximal (alignedBlocks width) whole b.values where
  mem_kind := hb.mem_alignedBlocks
  subset := hsub
  absorbs := by
    rintro other ⟨h, hh, k, rfl⟩ hother hmeet
    rw [hb.values_eq] at hmeet
    -- A larger block that meets this one would hold it.
    have hle : h ≤ b.hostBits := by
      by_contra hlt
      rw [Set.inter_comm] at hmeet
      have hinside := alignedBlock_subset (by omega) hmeet
      rw [← hb.values_eq] at hinside
      exact hlt (hlargest h hh k hother hinside)
    rw [hb.values_eq]
    exact alignedBlock_subset hle hmeet

/-! ## The block at the front -/

/-- The first block is aligned. -/
theorem aligned_first (width lower upper : Nat) : (first width lower upper).Aligned width :=
  have h := Bits.le_trailingZeros_iff.1
    (Nat.min_le_right (upper - lower + 1).log2 (Bits.trailingZeros width lower))
  ⟨h.1, h.2⟩

/-- The size of the block at either end is at most the size of the range. -/
theorem pow_min_log2_le (lower upper bits : Nat) :
    2 ^ min (upper - lower + 1).log2 bits ≤ upper - lower + 1 :=
  (Nat.le_log2 (by omega)).1 (Nat.min_le_left _ _)

/-- The first block ends within the range. -/
theorem stop_first_le (h : lower ≤ upper) : (first width lower upper).stop ≤ upper := by
  have := pow_min_log2_le lower upper (Bits.trailingZeros width lower)
  simp only [stop, first]
  omega

/-- The block at the front is maximal: a larger one would begin with the range as well. -/
theorem isMaximal_first (h : lower ≤ upper) :
    IsMaximal (alignedBlocks width) (Set.Icc lower upper) (first width lower upper).values := by
  refine (aligned_first width lower upper).isMaximal
    (Set.Icc_subset_Icc (Nat.le_refl _) (stop_first_le h)) fun h' hh' k hsub hin => ?_
  have hlower : lower ∈ alignedBlock h' k :=
    hin ⟨Nat.le_refl _, start_le_stop (first width lower upper)⟩
  have hpos := Nat.two_pow_pos h'
  rw [alignedBlock_eq_Icc] at hlower hsub
  have hfirst : lower ≤ k * 2 ^ h' := (hsub ⟨Nat.le_refl _, Nat.le_add_right _ _⟩).1
  have hlast : k * 2 ^ h' + (2 ^ h' - 1) ≤ upper := (hsub ⟨Nat.le_add_right _ _, Nat.le_refl _⟩).2
  -- The other block holds the start of the range and does not reach below it.
  have hstart : lower = k * 2 ^ h' := Nat.le_antisymm hfirst hlower.1
  refine Nat.le_min.2 ⟨(Nat.le_log2 (by omega)).2 (by omega), ?_⟩
  exact Bits.le_trailingZeros_iff.2 ⟨hh', hstart ▸ Nat.dvd_mul_left _ _⟩

/-- What is left of a range behind the block at its front. -/
theorem diff_first (width lower upper : Nat) :
    Set.Icc lower upper \ (first width lower upper).values
      = Set.Icc ((first width lower upper).stop + 1) upper := by
  have hle := start_le_stop (first width lower upper)
  ext x
  simp only [Set.mem_sdiff, values, Set.mem_Icc]
  simp only [first] at hle ⊢
  omega

/-! ## The block at the back -/

/-- The last block ends where the range does. -/
theorem stop_last (h : lower ≤ upper) : (last width lower upper).stop = upper := by
  have := pow_min_log2_le lower upper (Bits.trailingOnes width upper)
  simp only [stop, last]
  omega

/-- The last block begins within the range. -/
theorem le_start_last (h : lower ≤ upper) : lower ≤ (last width lower upper).start := by
  have := pow_min_log2_le lower upper (Bits.trailingOnes width upper)
  simp only [last]
  omega

theorem aligned_last (width lower upper : Nat) : (last width lower upper).Aligned width := by
  obtain ⟨hle, hdvd⟩ :=
    Bits.le_trailingOnes_iff.1
      (Nat.min_le_right (upper - lower + 1).log2 (Bits.trailingOnes width upper))
  refine ⟨hle, ?_⟩
  have hsize := pow_min_log2_le lower upper (Bits.trailingOnes width upper)
  have hpos := Nat.two_pow_pos (min (upper - lower + 1).log2 (Bits.trailingOnes width upper))
  have hstart : (last width lower upper).start
      = upper + 1 - 2 ^ min (upper - lower + 1).log2 (Bits.trailingOnes width upper) := by
    simp only [last]
    omega
  rw [hstart]
  exact Nat.dvd_sub hdvd (Nat.dvd_refl _)

/-- What is left of a range in front of the block at its back, if anything. -/
theorem diff_last (h : lower ≤ upper) (hlt : lower < (last width lower upper).start) :
    Set.Icc lower upper \ (last width lower upper).values
      = Set.Icc lower ((last width lower upper).start - 1) := by
  have hstop : (last width lower upper).stop = upper := stop_last h
  have hle := start_le_stop (last width lower upper)
  ext x
  simp only [Set.mem_sdiff, values, Set.mem_Icc]
  omega

/-- The block at the back is maximal: a larger one would end with the range as well. -/
theorem isMaximal_last (h : lower ≤ upper) :
    IsMaximal (alignedBlocks width) (Set.Icc lower upper) (last width lower upper).values := by
  have hstop : (last width lower upper).stop = upper := stop_last h
  refine (aligned_last width lower upper).isMaximal
    (Set.Icc_subset_Icc (le_start_last h) (Nat.le_of_eq hstop)) fun h' hh' k hsub hin => ?_
  have hupper : upper ∈ alignedBlock h' k :=
    hin ⟨(start_le_stop (last width lower upper)).trans_eq hstop, Nat.le_of_eq hstop.symm⟩
  have hpos := Nat.two_pow_pos h'
  rw [alignedBlock_eq_Icc] at hupper hsub
  have hfirst : lower ≤ k * 2 ^ h' := (hsub ⟨Nat.le_refl _, Nat.le_add_right _ _⟩).1
  have hlast : k * 2 ^ h' + (2 ^ h' - 1) ≤ upper := (hsub ⟨Nat.le_add_right _ _, Nat.le_refl _⟩).2
  have hend : upper + 1 = (k + 1) * 2 ^ h' := by
    have := hupper.2
    rw [Nat.succ_mul]
    omega
  refine Nat.le_min.2 ⟨(Nat.le_log2 (by omega)).2 (by omega), ?_⟩
  exact Bits.le_trailingOnes_iff.2 ⟨hh', hend ▸ Nat.dvd_mul_left _ _⟩

end BlockSpan

/-! ## All blocks -/

/-- The blocks of a range tile it. -/
theorem tiles_blockSpans {width lower upper : Nat} (h : lower ≤ upper) :
    Tiles BlockSpan.start BlockSpan.stop lower (blockSpans width lower upper) (upper + 1) := by
  fun_induction blockSpans width lower upper with
  | case1 lower upper front hmore back hgap ih =>
      have hback : back.stop = upper := BlockSpan.stop_last hmore
      have hmiddle := ih (by omega)
      rw [Nat.sub_add_cancel (by omega)] at hmiddle
      refine ⟨rfl, front.start_le_stop, hmiddle.append ?_⟩
      rw [← hback]
      exact Tiles.single back.start_le_stop
  | case2 lower upper front hmore back hgap =>
      -- The two blocks meet in the middle.
      have hback : back.stop = upper := BlockSpan.stop_last hmore
      have hstart : front.stop + 1 ≤ back.start := BlockSpan.le_start_last hmore
      refine ⟨rfl, front.start_le_stop, ?_⟩
      rw [show front.stop + 1 = back.start by omega, ← hback]
      exact Tiles.single back.start_le_stop
  | case3 lower upper front hmore =>
      have hfront : front.stop ≤ upper := BlockSpan.stop_first_le h
      rw [show upper = front.stop by omega]
      exact Tiles.single front.start_le_stop

/-- The blocks of a range are aligned. -/
theorem aligned_of_mem_blockSpans {width lower upper : Nat} {b : BlockSpan}
    (hb : b ∈ blockSpans width lower upper) : b.Aligned width := by
  fun_induction blockSpans width lower upper with
  | case1 lower upper front hmore back hgap ih =>
      simp only [List.mem_cons, List.mem_append, List.not_mem_nil, or_false] at hb
      rcases hb with rfl | hb | rfl
      · exact BlockSpan.aligned_first _ _ _
      · exact ih hb
      · exact BlockSpan.aligned_last _ _ _
  | case2 lower upper front hmore back hgap =>
      simp only [List.mem_cons, List.not_mem_nil, or_false] at hb
      rcases hb with rfl | rfl
      · exact BlockSpan.aligned_first _ _ _
      · exact BlockSpan.aligned_last _ _ _
  | case3 lower upper front hmore =>
      rw [List.mem_singleton.1 hb]
      exact BlockSpan.aligned_first _ _ _

/-- The blocks of a range are maximal in it. -/
theorem isMaximal_of_mem_blockSpans {width lower upper : Nat} (h : lower ≤ upper) {b : BlockSpan}
    (hb : b ∈ blockSpans width lower upper) :
    IsMaximal (alignedBlocks width) (Set.Icc lower upper) b.values := by
  fun_induction blockSpans width lower upper with
  | case1 lower upper front hmore back hgap ih =>
      have hfront : IsMaximal (alignedBlocks width) (Set.Icc lower upper) front.values :=
        BlockSpan.isMaximal_first h
      have hback : IsMaximal (alignedBlocks width) (Set.Icc (front.stop + 1) upper) back.values :=
        BlockSpan.isMaximal_last hmore
      simp only [List.mem_cons, List.mem_append, List.not_mem_nil, or_false] at hb
      rcases hb with rfl | hb | rfl
      · exact hfront
      · -- A block from the middle: both outer blocks are cut off before it is taken.
        refine hfront.of_diff ?_
        rw [BlockSpan.diff_first]
        refine hback.of_diff ?_
        rw [BlockSpan.diff_last hmore hgap]
        exact ih (by omega) hb
      · refine hfront.of_diff ?_
        rwa [BlockSpan.diff_first]
  | case2 lower upper front hmore back hgap =>
      have hfront : IsMaximal (alignedBlocks width) (Set.Icc lower upper) front.values :=
        BlockSpan.isMaximal_first h
      simp only [List.mem_cons, List.not_mem_nil, or_false] at hb
      rcases hb with rfl | rfl
      · exact hfront
      · refine hfront.of_diff ?_
        rw [BlockSpan.diff_first]
        exact BlockSpan.isMaximal_last hmore
  | case3 lower upper front hmore =>
      rw [List.mem_singleton.1 hb]
      exact BlockSpan.isMaximal_first h

end IpSpace
