import IpSpace.Proofs.AlignedBlocks
import Mathlib.Tactic.Ring

/-!
# How many blocks make up a range

No list of aligned blocks that tiles a range is shorter than that of `blockSpans`, so any other list
bounds its length (`length_blockSpans_le`). One is found by cutting a block that holds the range in
half, over and over. As long as the range lies in one half, there is nothing to count. Once it
reaches into both, what it has of the lower half ends with that half, and takes at most one block of
each smaller size (`Splits.back`); what it has of the upper half begins with it, and takes no more
either (`Splits.front`). So words of `n` bits take at most `n - 1` blocks on either side of the cut,
unless the two halves are whole and make up one block (`Splits.across`).
-/

namespace IpSpace

/-- The numbers from `lower` on up to, and without, `bound` are tiled by at most `count` aligned
blocks of words of `width` bits. -/
def Splits (width count lower bound : Nat) : Prop :=
  ∃ blocks : List BlockSpan, (∀ b ∈ blocks, b.Aligned width) ∧
    Tiles BlockSpan.start BlockSpan.stop lower blocks bound ∧ blocks.length ≤ count

namespace Splits

variable {width count count' lower middle bound m k : Nat}

theorem mono (h : Splits width count lower bound) (hle : count ≤ count') :
    Splits width count' lower bound := by
  obtain ⟨blocks, haligned, htiles, hlen⟩ := h
  exact ⟨blocks, haligned, htiles, Nat.le_trans hlen hle⟩

theorem append (h : Splits width count lower middle) (h' : Splits width count' middle bound) :
    Splits width (count + count') lower bound := by
  obtain ⟨blocks, haligned, htiles, hlen⟩ := h
  obtain ⟨blocks', haligned', htiles', hlen'⟩ := h'
  refine ⟨blocks ++ blocks', List.forall_mem_append.2 ⟨haligned, haligned'⟩,
    htiles.append htiles', ?_⟩
  rw [List.length_append]
  omega

theorem empty (width lower : Nat) : Splits width 0 lower lower :=
  ⟨[], List.forall_mem_nil _, rfl, Nat.le_refl _⟩

/-- A block by itself. -/
theorem block (hm : m ≤ width) (k : Nat) : Splits width 1 (k * 2 ^ m) ((k + 1) * 2 ^ m) := by
  refine ⟨[⟨k * 2 ^ m, m⟩], List.forall_mem_singleton.2 ⟨hm, Nat.dvd_mul_left _ _⟩, ?_,
    Nat.le_refl _⟩
  have hstop : (k + 1) * 2 ^ m = BlockSpan.stop ⟨k * 2 ^ m, m⟩ + 1 := by
    rw [Nat.succ_mul, BlockSpan.stop, Nat.add_assoc, Nat.sub_add_cancel (Nat.two_pow_pos m)]
  rw [hstop]
  exact Tiles.single (BlockSpan.start_le_stop _)

/-- A block begins with its lower half and ends with its upper half. -/
theorem halves (m k : Nat) : k * 2 ^ (m + 1) = 2 * k * 2 ^ m ∧
    (k + 1) * 2 ^ (m + 1) = (2 * k + 1 + 1) * 2 ^ m := by
  constructor <;> ring

/-- **A range that begins with a block and is less than the block takes at most one block of each
smaller size.** -/
theorem front (hm : m ≤ width) (hle : k * 2 ^ m ≤ bound) (hlt : bound < (k + 1) * 2 ^ m) :
    Splits width m (k * 2 ^ m) bound := by
  induction m generalizing k with
  | zero =>
      rw [Nat.pow_zero, Nat.mul_one] at hle hlt ⊢
      rw [Nat.le_antisymm hle (Nat.le_of_lt_succ hlt)]
      exact empty width bound
  | succ m ih =>
      obtain ⟨hstart, hstop⟩ := halves m k
      rw [hstart] at hle ⊢
      rw [hstop] at hlt
      rcases Nat.lt_or_ge bound ((2 * k + 1) * 2 ^ m) with hhalf | hhalf
      · exact (ih (by omega) hle hhalf).mono (Nat.le_succ m)
      · -- The lower half is one block, and the rest begins with the upper half.
        have hlower := block (Nat.le_of_succ_le hm) (2 * k)
        exact (hlower.append (ih (by omega) hhalf hlt)).mono (Nat.le_of_eq (Nat.add_comm 1 m))

/-- **A range that ends with a block and is less than the block takes at most one block of each
smaller size.** -/
theorem back (hm : m ≤ width) (hlt : k * 2 ^ m < lower) (hle : lower ≤ (k + 1) * 2 ^ m) :
    Splits width m lower ((k + 1) * 2 ^ m) := by
  induction m generalizing k with
  | zero =>
      rw [Nat.pow_zero, Nat.mul_one] at hle hlt ⊢
      rw [Nat.le_antisymm hle hlt]
      exact empty width (k + 1)
  | succ m ih =>
      obtain ⟨hstart, hstop⟩ := halves m k
      rw [hstart] at hlt
      rw [hstop] at hle ⊢
      rcases Nat.lt_or_ge ((2 * k + 1) * 2 ^ m) lower with hhalf | hhalf
      · exact (ih (by omega) hhalf hle).mono (Nat.le_succ m)
      · -- The upper half is one block, and the rest ends with the lower half.
        have hupper := block (Nat.le_of_succ_le hm) (2 * k + 1)
        exact (ih (by omega) hlt hhalf).append hupper

/-- What a range has of the upper half, if it reaches into it, is all of it or begins with it. -/
theorem front_le (hm : m ≤ width) (hle : k * 2 ^ m ≤ bound) (hbound : bound ≤ (k + 1) * 2 ^ m) :
    Splits width (max 1 m) (k * 2 ^ m) bound := by
  rcases Nat.lt_or_eq_of_le hbound with hlt | rfl
  · exact (front hm hle hlt).mono (Nat.le_max_right 1 m)
  · exact (block hm k).mono (Nat.le_max_left 1 m)

/-- What a range has of the lower half, if it reaches beyond, is all of it or ends with it. -/
theorem back_le (hm : m ≤ width) (hlower : k * 2 ^ m ≤ lower) (hle : lower ≤ (k + 1) * 2 ^ m) :
    Splits width (max 1 m) lower ((k + 1) * 2 ^ m) := by
  rcases Nat.lt_or_eq_of_le hlower with hlt | rfl
  · exact (back hm hlt hle).mono (Nat.le_max_right 1 m)
  · exact (block hm k).mono (Nat.le_max_left 1 m)

/-- A range that reaches into both halves of a block is the whole block, or less than one of
them. -/
theorem across (hm : m + 1 ≤ width) (hlower : 2 * k * 2 ^ m ≤ lower)
    (hcross : lower < (2 * k + 1) * 2 ^ m) (hupper : (2 * k + 1) * 2 ^ m < bound)
    (hbound : bound ≤ (2 * k + 1 + 1) * 2 ^ m) : Splits width (max 1 (2 * m)) lower bound := by
  have hm' : m ≤ width := Nat.le_of_succ_le hm
  by_cases hends : lower = 2 * k * 2 ^ m ∧ bound = (2 * k + 1 + 1) * 2 ^ m
  · have hwhole := block hm k
    rw [(halves m k).1, (halves m k).2, ← hends.1, ← hends.2] at hwhole
    exact hwhole.mono (Nat.le_max_left _ _)
  · have hcut := (back_le hm' hlower (Nat.le_of_lt hcross)).append
      (front_le hm' (Nat.le_of_lt hupper) hbound)
    have hpos : m ≠ 0 := by
      rintro rfl
      omega
    exact hcut.mono (by omega)

/-- **A range within a block of `2 ^ m` numbers takes at most `2 * m - 2` blocks**, or a single
one. -/
theorem within (hm : m ≤ width) (hlower : k * 2 ^ m ≤ lower) (hle : lower < bound)
    (hbound : bound ≤ (k + 1) * 2 ^ m) : Splits width (max 1 (2 * m - 2)) lower bound := by
  induction m generalizing k with
  | zero =>
      have hwhole := block hm k
      rw [Nat.pow_zero, Nat.mul_one, Nat.mul_one] at hwhole
      rw [Nat.pow_zero, Nat.mul_one] at hlower hbound
      rwa [show lower = k by omega, show bound = k + 1 by omega]
  | succ m ih =>
      have hmore : max 1 (2 * m - 2) ≤ max 1 (2 * (m + 1) - 2) := by omega
      have hm' : m ≤ width := Nat.le_of_succ_le hm
      rw [(halves m k).1] at hlower
      rw [(halves m k).2] at hbound
      rcases Nat.lt_or_ge ((2 * k + 1) * 2 ^ m) bound with hupper | hupper
      · rcases Nat.lt_or_ge lower ((2 * k + 1) * 2 ^ m) with hcross | hcross
        · exact across hm hlower hcross hupper hbound
        · exact (ih hm' hcross hbound).mono hmore
      · exact (ih hm' hlower hupper).mono hmore

end Splits

/-- **No tiling by aligned blocks is shorter.** -/
theorem length_blockSpans_le_of_splits {width count lower upper : Nat} (hle : lower ≤ upper)
    (h : Splits width count lower (upper + 1)) : (blockSpans width lower upper).length ≤ count := by
  obtain ⟨others, haligned, hothers, hlen⟩ := h
  have hdisjoint : (blockSpans width lower upper).Pairwise fun a b =>
      Disjoint a.values b.values := by
    refine (tiles_blockSpans hle).pairwise.imp fun {a b} hlt => Set.disjoint_left.2
      fun x hx hx' => ?_
    exact Nat.lt_irrefl x (Nat.lt_of_le_of_lt hx.2 (Nat.lt_of_lt_of_le hlt hx'.1))
  have hunion : ∀ x, x ∈ Set.Icc lower upper ↔ ∃ o ∈ others.map BlockSpan.values, x ∈ o := by
    intro x
    simp only [List.mem_map, exists_exists_and_eq_and]
    rw [Set.mem_Icc, ← Nat.lt_succ_iff (n := upper), hothers.mem_iff]
    exact Iff.rfl
  have hfewest := length_le_of_isMaximal
    (List.forall_mem_map.2 fun b hb => isMaximal_of_mem_blockSpans hle hb)
    (List.forall_mem_map.2 fun b _ => ⟨b.start, Nat.le_refl _, b.start_le_stop⟩)
    (List.pairwise_map.2 hdisjoint)
    (List.forall_mem_map.2 fun b hb => (haligned b hb).mem_alignedBlocks) hunion
  rw [List.length_map, List.length_map] at hfewest
  exact Nat.le_trans hfewest hlen

/-- **A range of words of `width` bits is made up of at most `2 * width - 2` blocks.** -/
theorem length_blockSpans_le {width lower upper : Nat} (hwidth : 2 ≤ width) (hle : lower ≤ upper)
    (hupper : upper < 2 ^ width) : (blockSpans width lower upper).length ≤ 2 * width - 2 := by
  have hsplits : Splits width (max 1 (2 * width - 2)) lower (upper + 1) :=
    Splits.within (k := 0) (Nat.le_refl width) (by omega) (Nat.lt_succ_of_le hle) (by omega)
  exact length_blockSpans_le_of_splits hle (hsplits.mono (by omega))

end IpSpace
