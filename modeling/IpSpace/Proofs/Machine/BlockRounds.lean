import IpSpace.Proofs.BlockCounts
import IpSpace.Proofs.Machine.BlockSpans

/-!
# Rounds of taking blocks

Every round that leaves something of a range has taken two blocks of it, one from either end
(`takeBoth?_eq_inl`). So the rounds can be counted by the blocks, of which there are at most two for
each bit of an address but the first (`length_blockSpans_le`). What is left after a round is again a
range, so every round begins with something to take from, and so does its second half; and no step
of a round gets out of the words.
-/

namespace IpSpace

namespace Machine

namespace BlockLoop

/-- The ranges that a round takes a block of: all that is left at its front, and what is left behind
that block, unless nothing is, at its back. -/
inductive TakesFrom (width : Nat) (s : BlockLoop) : (lower upper : Nat) → Prop
  | front : TakesFrom width s s.lower s.upper
  | back {first : Nat × Nat} {stop : Nat}
      (hfirst : takeFirst? width s.lower s.upper = some (first, stop))
      (hmore : stop ≠ s.upper) : TakesFrom width s (stop + 1) s.upper

variable {width lower upper n : Nat} {s next : BlockLoop}

/-- **What a round has done that leaves something**: it has taken a block from either end. -/
theorem takeBoth?_eq_inl (h : s.takeBoth? width = some (.inl next)) : ∃ first stop last,
    takeFirst? width s.lower s.upper = some (first, stop) ∧
      takeLast? width (stop + 1) s.upper = some last ∧
      next = ⟨s.front ++ [first], s.back ++ [last], stop + 1, last.1 - 1⟩ := by
  unfold takeBoth? at h
  obtain ⟨⟨first, stop⟩, hfirst, h⟩ := Option.bind_eq_some_iff.1 h
  dsimp only at h
  split at h
  case isTrue => cases h
  obtain ⟨l, hl, h⟩ := Option.bind_eq_some_iff.1 h
  obtain ⟨last, hlast, h⟩ := Option.bind_eq_some_iff.1 h
  split at h
  case isTrue => cases h
  obtain ⟨u, hu, h⟩ := Option.bind_eq_some_iff.1 h
  cases h
  obtain ⟨-, hl⟩ := Option.ite_none_right_eq_some.1 hl
  obtain ⟨-, hu⟩ := Option.ite_none_right_eq_some.1 hu
  cases hl
  cases hu
  exact ⟨first, stop, last, hfirst, hlast, rfl⟩

section Run

variable (hwidth : width ≤ 128) (hle : lower ≤ upper) (hupper : upper < 2 ^ width)

include hwidth hle hupper

/-- **After `n` rounds, `n` blocks have been taken from either end**, and what is left is a range
that makes up all blocks with them. -/
theorem makesUp_of_rounds (h : Rounds (takeBoth? width) ⟨[], [], lower, upper⟩ n s) :
    s.MakesUp width ((blockSpans width lower upper).map (entry width)) ∧
      s.front.length = n ∧ s.back.length = n := by
  refine h.keeps (fun n s => s.MakesUp width ((blockSpans width lower upper).map (entry width)) ∧
    s.front.length = n ∧ s.back.length = n) ?_ ?_
  · exact ⟨⟨hle, hupper, by simp⟩, rfl, rfl⟩
  · rintro n s next ⟨hmakes, hfront, hback⟩ hround
    obtain ⟨blocks, hdone, -⟩ | ⟨t, ht, -, hkept⟩ := takeBoth?_spec hwidth s hmakes
    · rw [hround] at hdone
      cases hdone
    · rw [hround] at ht
      cases ht
      obtain ⟨first, stop, last, -, -, rfl⟩ := takeBoth?_eq_inl hround
      refine ⟨hkept, ?_, ?_⟩
      · rw [List.length_append, hfront, List.length_singleton]
      · rw [List.length_append, hback, List.length_singleton]

/-- There are two blocks for every round, and one at least to go on with. -/
theorem two_mul_rounds_lt (h : Rounds (takeBoth? width) ⟨[], [], lower, upper⟩ n s) :
    2 * n < (blockSpans width lower upper).length := by
  obtain ⟨hmakes, hfront, hback⟩ := makesUp_of_rounds hwidth hle hupper h
  have hrest : 0 < (blockSpans width s.lower s.upper).length := by
    rw [List.length_pos_iff]
    intro hnone
    have htiles : Tiles BlockSpan.start BlockSpan.stop s.lower (blockSpans width s.lower s.upper)
        (s.upper + 1) := tiles_blockSpans hmakes.lower_le
    rw [hnone] at htiles
    have hends : s.lower = s.upper + 1 := htiles
    have hsle := hmakes.lower_le
    omega
  have hall := congrArg List.length hmakes.eq_all
  simp only [List.length_append, List.length_map, List.length_reverse, hfront, hback] at hall
  omega

/-- **A round takes blocks of ranges that are not empty, and every step of it is carried out.** -/
theorem carriesOut_of_rounds (h : Rounds (takeBoth? width) ⟨[], [], lower, upper⟩ n s) :
    (∀ l u, s.TakesFrom width l u → l ≤ u ∧ u < 2 ^ width) ∧ s.takeBoth? width ≠ none := by
  obtain ⟨hmakes, -, -⟩ := makesUp_of_rounds hwidth hle hupper h
  have hword : s.upper < 2 ^ 128 :=
    Nat.lt_of_lt_of_le hmakes.upper_lt (Nat.pow_le_pow_right (by decide) hwidth)
  constructor
  · rintro l u (_ | ⟨hfirst, hmore⟩)
    · exact ⟨hmakes.lower_le, hmakes.upper_lt⟩
    · -- The block at the front ends within the range, so there is something behind it.
      rw [takeFirst?_eq hwidth hmakes.lower_le hword] at hfirst
      cases hfirst
      exact ⟨Nat.lt_of_le_of_ne (BlockSpan.stop_first_le hmakes.lower_le) hmore, hmakes.upper_lt⟩
  · obtain ⟨blocks, hround, -⟩ | ⟨next, hround, -, -⟩ := takeBoth?_spec hwidth s hmakes
    · simp [hround]
    · simp [hround]

end Run

end BlockLoop

/-- An address has at least two bits. -/
theorem two_le_bitCount (version : Version) : 2 ≤ version.bitCount := by
  cases version <;> decide

/-- **Taking the blocks of a range comes to an end and stays within the words.** It yields the
blocks of the range, at most two for each bit of an address but the first, after fewer rounds than
an address has bits. Throughout, a block is taken of a range of addresses that is not empty, and no
sum, difference, shift or prefix length on the way gets out of its word. -/
theorem prefixBlockBounds?_exact (r : AddressRange) (hr : r.WellFormed) :
    let width := r.version.bitCount
    (prefixBlockBounds? width r.lower r.upper
        = some ((blockSpans width r.lower r.upper).map (BlockLoop.entry width)) ∧
      (blockSpans width r.lower r.upper).length ≤ 2 * width - 2) ∧
    ∀ n s, Rounds (BlockLoop.takeBoth? width) ⟨[], [], r.lower, r.upper⟩ n s → n + 2 ≤ width ∧
      (∀ l u, s.TakesFrom width l u → l ≤ u ∧ u ≤ r.version.maxValue) ∧
        s.takeBoth? width ≠ none := by
  intro width
  have hwidth : width ≤ 128 := bitCount_le r.version
  have hle := hr.lower_le_upper
  have hmax : ∀ {x}, x ≤ r.version.maxValue ↔ x < 2 ^ width := by
    intro x
    rw [Version.le_maxValue_iff, ← Version.bitCount_eq]
  have hupper : r.upper < 2 ^ width := hmax.1 hr.upper_le_max
  have hcount : (blockSpans width r.lower r.upper).length ≤ 2 * width - 2 :=
    length_blockSpans_le (two_le_bitCount r.version) hle hupper
  refine ⟨⟨prefixBlockBounds?_eq hwidth hle hupper, hcount⟩, fun n s hrounds => ?_⟩
  have htwo := BlockLoop.two_mul_rounds_lt hwidth hle hupper hrounds
  obtain ⟨hfrom, hcarried⟩ := BlockLoop.carriesOut_of_rounds hwidth hle hupper hrounds
  refine ⟨by omega, fun l u h => ?_, hcarried⟩
  rw [hmax]
  exact hfrom l u h

/-- All IPv6 addresses but the first and the last are made up of 254 blocks, and no fewer. After the
first round the addresses from 2 on are left. All of them at once are a single block. -/
theorem prefixBlockBounds?_exact_edges :
    (⟨.v6, 1, 2 ^ 128 - 2⟩ : AddressRange).WellFormed ∧
      (⟨.v6, 0, 2 ^ 128 - 1⟩ : AddressRange).WellFormed ∧
    (blockSpans 128 1 (2 ^ 128 - 2)).length = 254 ∧
    (prefixBlockBounds? 128 1 (2 ^ 128 - 2)).map List.length = some 254 ∧
    prefixBlockBounds? 128 0 (2 ^ 128 - 1) = some [(0, 0)] ∧
    BlockLoop.takeBoth? 128 ⟨[(1, 128)], [(2 ^ 128 - 2, 128)], 2, 2 ^ 128 - 3⟩ ≠ none := by
  have hinner : (⟨.v6, 1, 2 ^ 128 - 2⟩ : AddressRange).WellFormed := by decide
  have hall : (⟨.v6, 0, 2 ^ 128 - 1⟩ : AddressRange).WellFormed := by decide
  have hcount : (blockSpans 128 1 (2 ^ 128 - 2)).length = 254 := by decide +kernel
  have hsingle : blockSpans 128 0 (2 ^ 128 - 1) = [⟨0, 128⟩] := by decide +kernel
  have hblocks : prefixBlockBounds? 128 1 (2 ^ 128 - 2)
      = some ((blockSpans 128 1 (2 ^ 128 - 2)).map (BlockLoop.entry 128)) :=
    (prefixBlockBounds?_exact _ hinner).1.1
  have hblock : prefixBlockBounds? 128 0 (2 ^ 128 - 1)
      = some ((blockSpans 128 0 (2 ^ 128 - 1)).map (BlockLoop.entry 128)) :=
    (prefixBlockBounds?_exact _ hall).1.1
  refine ⟨hinner, hall, hcount, ?_, ?_, ?_⟩
  · rw [hblocks, Option.map_some, List.length_map, hcount]
  · rw [hblock, hsingle]
    rfl
  · exact ((prefixBlockBounds?_exact _ hinner).2 1 _ (.succ .zero rfl)).2.2

end Machine

end IpSpace
