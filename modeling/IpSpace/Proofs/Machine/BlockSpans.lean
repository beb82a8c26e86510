import IpSpace.Proofs.Covers
import IpSpace.Proofs.Machine.Sections

/-!
# Prefix blocks of a range on the machine

The machine takes the blocks of a range alternately from its two ends, in a loop with two lists of
blocks, until nothing is left between them. The library does the same by recursion, with a block at
the front and one at the back in every round, so what stands in the lists and the blocks of what is
left are always the blocks of the range (`BlockLoop.MakesUp`).

The size of a range plus one may not fit into a word, so that case is told apart before
(`roomBits?_eq`). What is left after a block from either end begins and ends within the range, so no
sum and no difference gets out of it. A block that is taken is aligned, so its ends are those of a
section with its prefix length (`blockSection?_eq`), and so is the cover of two addresses
(`coverOf?_eq`).
-/

namespace IpSpace

namespace Machine

/-! ## Sizes of blocks -/

/-- The number of the highest one of a word, which must not be zero. -/
def ilog2? (a : Nat) : Option Nat :=
  if a = 0 then none else some a.log2

/-- How many host bits a block within a range may have, given the distance between the ends. -/
def roomBits? (size : Nat) : Option Nat :=
  if size = 2 ^ 128 - 1 then some 128 else do ilog2? (← add? 128 size 1)

/-- The host bits of the largest block that begins or ends with a range. -/
def blockBits? (width lower upper : Nat) (fromLower : Bool) : Option Nat := do
  let fits ← roomBits? (← sub? upper lower)
  let aligned := if fromLower then Bits.trailingZeros 128 lower else Bits.trailingOnes 128 upper
  return min (min fits aligned) width

/-- The distance between the ends of a block. -/
def hostSpan? (bits : Nat) : Option Nat :=
  if 128 ≤ bits then some (2 ^ 128 - 1) else do sub? (← shiftLeft? 128 1 bits) 1

/-- The prefix length of a block. -/
def spanPrefixLen? (width bits : Nat) : Option Nat :=
  sub? width (truncate 8 bits)

section Sizes

variable {width lower upper bits : Nat}

/-- **The size of a range is never added up past a word.** -/
theorem roomBits?_eq (h : bits < 2 ^ 128) : roomBits? bits = some (bits + 1).log2 := by
  rw [roomBits?]
  by_cases hmax : bits = 2 ^ 128 - 1
  · rw [if_pos hmax, hmax, Nat.sub_add_cancel (Nat.two_pow_pos 128), Nat.log2_two_pow]
  · rw [if_neg hmax, bind_eq (add?_eq (by omega))]
    exact if_neg (Nat.succ_ne_zero bits)

/-- The zeros counted in the widest word are no more than those of the address. -/
theorem min_room (hwidth : width ≤ 128) (fits x : Nat) :
    min (min fits (Bits.trailingZeros 128 x)) width = min fits (Bits.trailingZeros width x) := by
  rw [Nat.min_assoc, min_trailingZeros hwidth]

/-- The largest block at the front has as many host bits as in the library. -/
theorem blockBits?_first (hwidth : width ≤ 128) (hle : lower ≤ upper) (hupper : upper < 2 ^ 128) :
    blockBits? width lower upper true = some (BlockSpan.first width lower upper).hostBits := by
  rw [blockBits?, bind_eq (sub?_eq hle), bind_eq (roomBits?_eq (by omega))]
  exact congrArg some (min_room hwidth _ _)

theorem blockBits?_last (hwidth : width ≤ 128) (hle : lower ≤ upper) (hupper : upper < 2 ^ 128) :
    blockBits? width lower upper false = some (BlockSpan.last width lower upper).hostBits := by
  rw [blockBits?, bind_eq (sub?_eq hle), bind_eq (roomBits?_eq (by omega))]
  exact congrArg some (min_room hwidth _ _)

/-- The distance between the ends of a block is found without a shift as wide as the word. -/
theorem hostSpan?_eq (h : bits ≤ 128) : hostSpan? bits = some (2 ^ bits - 1) := by
  rw [hostSpan?]
  rcases Nat.lt_or_eq_of_le h with hlt | rfl
  · rw [if_neg (Nat.not_le_of_lt hlt), bind_eq (shiftLeft?_one hlt)]
    exact sub?_eq (Nat.two_pow_pos bits)
  · rfl

/-- The prefix length of a block is what its host bits leave of the address. -/
theorem spanPrefixLen?_eq (hwidth : width ≤ 128) (h : bits ≤ width) :
    spanPrefixLen? width bits = some (width - bits) := by
  rw [spanPrefixLen?, truncate_eq (by omega)]
  exact sub?_eq h

end Sizes

/-! ## Taking blocks -/

/-- The blocks taken from the front and from the back, each with its first address and its prefix
length, and the ends of what is left. -/
structure BlockLoop where
  front : List (Nat × Nat)
  back : List (Nat × Nat)
  lower : Nat
  upper : Nat

namespace BlockLoop

/-- The largest block at the front, and the last address of it. -/
def takeFirst? (width lower upper : Nat) : Option ((Nat × Nat) × Nat) := do
  let bits ← blockBits? width lower upper true
  let stop ← add? 128 lower (← hostSpan? bits)
  return ((lower, ← spanPrefixLen? width bits), stop)

/-- The largest block at the back. -/
def takeLast? (width lower upper : Nat) : Option (Nat × Nat) := do
  let bits ← blockBits? width lower upper false
  let start ← sub? upper (← hostSpan? bits)
  return (start, ← spanPrefixLen? width bits)

/-- Takes a block from the front, and one from the back if something is left. -/
def takeBoth? (width : Nat) (s : BlockLoop) : Option (BlockLoop ⊕ List (Nat × Nat)) := do
  let (first, stop) ← takeFirst? width s.lower s.upper
  let front := s.front ++ [first]
  if stop = s.upper then return .inr (front ++ s.back.reverse)
  let lower ← add? 128 stop 1
  let last ← takeLast? width lower s.upper
  let back := s.back ++ [last]
  if last.1 = lower then return .inr (front ++ back.reverse)
  return .inl { front, back, lower, upper := ← sub? last.1 1 }

/-- The first address and the prefix length of a block. -/
def entry (width : Nat) (b : BlockSpan) : Nat × Nat :=
  (b.start, width - b.hostBits)

/-- The blocks taken and those of what is left are the given ones. -/
structure MakesUp (width : Nat) (all : List (Nat × Nat)) (s : BlockLoop) : Prop where
  lower_le : s.lower ≤ s.upper
  upper_lt : s.upper < 2 ^ width
  eq_all : s.front ++ (blockSpans width s.lower s.upper).map (entry width) ++ s.back.reverse = all

section Rounds

variable {width lower upper : Nat}

/-- A block at the front ends within the range. -/
theorem takeFirst?_eq (hwidth : width ≤ 128) (hle : lower ≤ upper) (hupper : upper < 2 ^ 128) :
    takeFirst? width lower upper = some (entry width (BlockSpan.first width lower upper),
      (BlockSpan.first width lower upper).stop) := by
  have hbits := (BlockSpan.aligned_first width lower upper).hostBits_le
  have hstop : lower + (2 ^ (BlockSpan.first width lower upper).hostBits - 1) ≤ upper :=
    BlockSpan.stop_first_le hle
  rw [takeFirst?, bind_eq (blockBits?_first hwidth hle hupper), bind_eq (hostSpan?_eq (by omega)),
    bind_eq (add?_eq (by omega)), bind_eq (spanPrefixLen?_eq hwidth hbits)]
  rfl

/-- A block at the back begins within the range. -/
theorem takeLast?_eq (hwidth : width ≤ 128) (hle : lower ≤ upper) (hupper : upper < 2 ^ 128) :
    takeLast? width lower upper = some (entry width (BlockSpan.last width lower upper)) := by
  have hbits := (BlockSpan.aligned_last width lower upper).hostBits_le
  have hstart : 2 ^ (BlockSpan.last width lower upper).hostBits ≤ upper - lower + 1 :=
    BlockSpan.pow_min_log2_le lower upper _
  rw [takeLast?, bind_eq (blockBits?_last hwidth hle hupper), bind_eq (hostSpan?_eq (by omega)),
    bind_eq (sub?_eq (by omega)), bind_eq (spanPrefixLen?_eq hwidth hbits)]
  rfl

section Cases

variable {front back : List (Nat × Nat)} (hwidth : width ≤ 128) (hle : lower ≤ upper)
  (hupper : upper < 2 ^ 128)

include hwidth hle hupper

/-- A block at the front may be all of the range. -/
theorem takeBoth?_whole (h : (BlockSpan.first width lower upper).stop = upper) :
    takeBoth? width ⟨front, back, lower, upper⟩
        = some (.inr (front ++ [entry width (BlockSpan.first width lower upper)] ++ back.reverse)) ∧
      blockSpans width lower upper = [BlockSpan.first width lower upper] := by
  constructor
  · exact (bind_eq (takeFirst?_eq hwidth hle hupper)).trans (if_pos h)
  · rw [blockSpans, dif_neg (Nat.not_lt_of_ge (Nat.le_of_eq h.symm))]

/-- A block at the front and one at the back may be all of the range. -/
theorem takeBoth?_two (hmore : (BlockSpan.first width lower upper).stop + 1 ≤ upper)
    (h : (BlockSpan.last width ((BlockSpan.first width lower upper).stop + 1) upper).start
      = (BlockSpan.first width lower upper).stop + 1) :
    takeBoth? width ⟨front, back, lower, upper⟩
        = some (.inr (front ++ [entry width (BlockSpan.first width lower upper)]
          ++ (back ++ [entry width (BlockSpan.last width
            ((BlockSpan.first width lower upper).stop + 1) upper)]).reverse)) ∧
      blockSpans width lower upper = [BlockSpan.first width lower upper,
        BlockSpan.last width ((BlockSpan.first width lower upper).stop + 1) upper] := by
  constructor
  · exact (bind_eq (takeFirst?_eq hwidth hle hupper)).trans ((if_neg (Nat.ne_of_lt hmore)).trans
      ((bind_eq (add?_eq (Nat.lt_of_le_of_lt hmore hupper))).trans
        ((bind_eq (takeLast?_eq hwidth hmore hupper)).trans (if_pos h))))
  · rw [blockSpans, dif_pos (Nat.lt_of_succ_le hmore)]
    exact if_neg (Nat.not_lt_of_ge (Nat.le_of_eq h))

/-- Else there is something between them. -/
theorem takeBoth?_gap (hmore : (BlockSpan.first width lower upper).stop + 1 ≤ upper)
    (h : (BlockSpan.first width lower upper).stop + 1
      < (BlockSpan.last width ((BlockSpan.first width lower upper).stop + 1) upper).start) :
    takeBoth? width ⟨front, back, lower, upper⟩
        = some (.inl ⟨front ++ [entry width (BlockSpan.first width lower upper)],
          back ++ [entry width
            (BlockSpan.last width ((BlockSpan.first width lower upper).stop + 1) upper)],
          (BlockSpan.first width lower upper).stop + 1,
          (BlockSpan.last width ((BlockSpan.first width lower upper).stop + 1) upper).start - 1⟩) ∧
      blockSpans width lower upper = BlockSpan.first width lower upper ::
        (blockSpans width ((BlockSpan.first width lower upper).stop + 1)
            ((BlockSpan.last width ((BlockSpan.first width lower upper).stop + 1) upper).start - 1)
          ++ [BlockSpan.last width ((BlockSpan.first width lower upper).stop + 1) upper]) := by
  have hpos :
      1 ≤ (BlockSpan.last width ((BlockSpan.first width lower upper).stop + 1) upper).start :=
    Nat.le_trans (Nat.le_add_left 1 _) (Nat.le_of_lt h)
  constructor
  · exact (bind_eq (takeFirst?_eq hwidth hle hupper)).trans ((if_neg (Nat.ne_of_lt hmore)).trans
      ((bind_eq (add?_eq (Nat.lt_of_le_of_lt hmore hupper))).trans
        ((bind_eq (takeLast?_eq hwidth hmore hupper)).trans ((if_neg (Nat.ne_of_gt h)).trans
          (bind_eq (sub?_eq hpos))))))
  · rw [blockSpans, dif_pos (Nat.lt_of_succ_le hmore)]
    exact if_pos h

end Cases

/-- **A round takes blocks of the range, and leaves less of it.** -/
theorem takeBoth?_spec (hwidth : width ≤ 128) {all : List (Nat × Nat)} (s : BlockLoop)
    (h : s.MakesUp width all) : (∃ blocks, s.takeBoth? width = some (.inr blocks) ∧ blocks = all) ∨
      ∃ next, s.takeBoth? width = some (.inl next) ∧ next.upper - next.lower < s.upper - s.lower ∧
        next.MakesUp width all := by
  obtain ⟨front, back, lower, upper⟩ := s
  obtain ⟨hle, hlt, rfl⟩ := h
  dsimp only at hle hlt ⊢
  have hupper : upper < 2 ^ 128 := Nat.lt_of_lt_of_le hlt (Nat.pow_le_pow_right (by decide) hwidth)
  have hin : lower ≤ (BlockSpan.first width lower upper).stop :=
    BlockSpan.start_le_stop (BlockSpan.first width lower upper)
  have hstop : (BlockSpan.first width lower upper).stop ≤ upper := BlockSpan.stop_first_le hle
  -- One block may be all there is, or two, or something is left between them.
  by_cases hwhole : (BlockSpan.first width lower upper).stop = upper
  · obtain ⟨htaken, hspans⟩ := takeBoth?_whole hwidth hle hupper hwhole
    exact Or.inl ⟨_, htaken, by rw [hspans]; rfl⟩
  have hmore : (BlockSpan.first width lower upper).stop + 1 ≤ upper := by omega
  have hstart : (BlockSpan.first width lower upper).stop + 1
      ≤ (BlockSpan.last width ((BlockSpan.first width lower upper).stop + 1) upper).start :=
    BlockSpan.le_start_last hmore
  have hend : (BlockSpan.last width ((BlockSpan.first width lower upper).stop + 1) upper).start ≤
      upper :=
    (BlockSpan.start_le_stop _).trans_eq (BlockSpan.stop_last hmore)
  rcases hstart.eq_or_lt with htwo | hgap
  · obtain ⟨htaken, hspans⟩ := takeBoth?_two hwidth hle hupper hmore htwo.symm
    exact Or.inl ⟨_, htaken, by simp [hspans]⟩
  · obtain ⟨htaken, hspans⟩ := takeBoth?_gap hwidth hle hupper hmore hgap
    refine Or.inr ⟨_, htaken, ?_, Nat.le_sub_one_of_lt hgap, ?_, by simp [hspans]⟩
    · show (BlockSpan.last width ((BlockSpan.first width lower upper).stop + 1) upper).start - 1
        - ((BlockSpan.first width lower upper).stop + 1) < upper - lower
      omega
    · show (BlockSpan.last width ((BlockSpan.first width lower upper).stop + 1) upper).start - 1
        < 2 ^ width
      omega

end Rounds

end BlockLoop

/-- The fewest blocks that make up a range, each with its first address and its prefix length. -/
def prefixBlockBounds? (width lower upper : Nat) : Option (List (Nat × Nat)) :=
  loop? (fun s => s.upper - s.lower) (BlockLoop.takeBoth? width) ⟨[], [], lower, upper⟩

/-- **The loop takes the blocks of the range**, in their order. -/
theorem prefixBlockBounds?_eq {width lower upper : Nat} (hwidth : width ≤ 128) (hle : lower ≤ upper)
    (hupper : upper < 2 ^ width) : prefixBlockBounds? width lower upper
      = some ((blockSpans width lower upper).map (BlockLoop.entry width)) := by
  have hstart : BlockLoop.MakesUp width ((blockSpans width lower upper).map (BlockLoop.entry width))
      ⟨[], [], lower, upper⟩ := ⟨hle, hupper, by simp⟩
  obtain ⟨blocks, hloop, hblocks⟩ :=
    loop?_spec
      (BlockLoop.MakesUp width ((blockSpans width lower upper).map (BlockLoop.entry width)))
      (· = (blockSpans width lower upper).map (BlockLoop.entry width))
      (BlockLoop.takeBoth?_spec hwidth) hstart
  exact hblocks ▸ hloop

/-! ## Sections of blocks -/

/-- The section of the addresses from `start` on that have the same first `p` bits. -/
def blockSection? (version : Version) (start p : Nat) : Option Section := do
  fromValueBounds? version start (start ||| (← hostMask? version p)) (some p)

/-- The sections of the blocks that make up a range. -/
def blocksBetween? (version : Version) (lower upper : Nat) : Option (List Section) := do
  (← prefixBlockBounds? version.bitCount lower upper).mapM fun (start, p) =>
    blockSection? version start p

/-- How many bits there are from the first one in which two addresses differ. -/
def differingBits? (lower upper : Nat) : Option Nat :=
  let differing := lower ^^^ upper
  if differing = 0 then some 0 else sub? 128 (leadingZeros 128 differing)

/-- The smallest prefix block that holds both addresses. -/
def coverOf? (version : Version) (lower upper : Nat) : Option Section := do
  let p ← spanPrefixLen? version.bitCount (← differingBits? lower upper)
  blockSection? version (lower &&& (← networkMask? version p)) p

section Sections

variable {version : Version} {lower upper : Nat}

/-- A section is put together again of its lowest and its highest address. -/
theorem fromValueBounds?_eq {s : Section} (hs : s.WellFormed) :
    fromValueBounds? s.version s.lowerValue s.upperValue s.prefixLen = some s := by
  rw [fromValueBounds?, bind_eq (split?_eq _ _), bind_eq (split?_eq _ _),
    Section.split_lowerValue hs, Section.split_upperValue hs, ← Section.eq_zipWith_ends]
  exact fromBounds?_eq hs

/-- The last address of an aligned block has all host bits set. -/
theorem or_hostMask {b : BlockSpan} (h : b.Aligned version.bitCount) :
    b.start ||| version.hostMask (version.bitCount - b.hostBits) = b.stop := by
  obtain ⟨k, hk⟩ := h.dvd_start
  have hlt : 2 ^ b.hostBits - 1 < 2 ^ b.hostBits := Nat.sub_lt (Nat.two_pow_pos _) Nat.one_pos
  rw [Version.hostMask, Nat.sub_sub_self h.hostBits_le, BlockSpan.stop, hk,
    Nat.two_pow_add_eq_or_of_lt hlt]

/-- **The ends of an aligned block are those of its section.** -/
theorem blockSection?_eq {b : BlockSpan} (h : b.Aligned version.bitCount)
    (hstart : b.start ≤ version.maxValue) :
    blockSection? version b.start (version.bitCount - b.hostBits) = some (b.toSection version) := by
  have hwf := (BlockSpan.isPrefixBlock_toSection h hstart).wellFormed
  obtain ⟨hlower, hupper⟩ :=
    Section.ends_of_values_eq_Icc hwf b.start_le_stop (BlockSpan.values_toSection h hstart)
  have hbuilt := fromValueBounds?_eq hwf
  rw [hlower, hupper] at hbuilt
  rw [blockSection?, bind_eq (hostMask?_eq version _), or_hostMask h]
  exact hbuilt

/-- **A range is split into prefix blocks**: all blocks that the loop takes are sections. -/
theorem blocksBetween?_eq {r : AddressRange} (hr : r.WellFormed) :
    blocksBetween? r.version r.lower r.upper = some r.toBlocks := by
  have hupper : r.upper < 2 ^ r.version.bitCount := by
    rw [Version.bitCount_eq]
    exact Version.le_maxValue_iff.1 hr.upper_le_max
  rw [blocksBetween?, bind_eq (prefixBlockBounds?_eq (bitCount_le _) hr.lower_le_upper hupper),
    List.mapM_map]
  refine mapM_eq_some fun b hb => ?_
  obtain ⟨halign, hstart⟩ := AddressRange.aligned_of_mem hr hb
  exact blockSection?_eq halign hstart

/-- The bits from the first one in which two addresses differ are the host bits of their cover. -/
theorem differingBits?_eq (h : lower ^^^ upper < 2 ^ 128) :
    differingBits? lower upper = some (coverSpan lower upper).hostBits := by
  rw [differingBits?, coverSpan]
  by_cases hdiffer : lower ^^^ upper = 0
  · rw [if_pos hdiffer, if_pos (Nat.xor_eq_zero_iff.1 hdiffer)]
  · have hlog := (Nat.log2_lt hdiffer).2 h
    rw [if_neg hdiffer, if_neg (mt Nat.xor_eq_zero_iff.2 hdiffer), leadingZeros, if_neg hdiffer,
      sub?_eq (by omega)]
    refine congrArg some ?_
    show 128 - (128 - 1 - (lower ^^^ upper).log2) = (lower ^^^ upper).log2 + 1
    omega

/-- **The smallest block that holds a range is put together.** -/
theorem coverOf?_eq {r : AddressRange} (hr : r.WellFormed) :
    coverOf? r.version r.lower r.upper = some r.cover := by
  have hupper : r.upper < 2 ^ r.version.bitCount := by
    rw [Version.bitCount_eq]
    exact Version.le_maxValue_iff.1 hr.upper_le_max
  have hlower := Nat.lt_of_le_of_lt hr.lower_le_upper hupper
  have halign := BlockSpan.aligned_coverSpan hlower hupper
  have hword : r.lower ^^^ r.upper < 2 ^ 128 :=
    Nat.lt_of_lt_of_le (Nat.xor_lt_two_pow hlower hupper)
    (Nat.pow_le_pow_right (by decide) (bitCount_le r.version))
  have hbits := differingBits?_eq hword
  have hstart : (coverSpan r.lower r.upper).start ≤ r.version.maxValue :=
    Nat.le_trans (Nat.div_mul_le_self _ _) (Nat.le_trans hr.lower_le_upper hr.upper_le_max)
  rw [coverOf?, bind_eq hbits, bind_eq (spanPrefixLen?_eq (bitCount_le _) halign.hostBits_le),
    bind_eq (networkMask?_eq _ _)]
  have hmask :
      r.lower &&& r.version.networkMask (r.version.bitCount - (coverSpan r.lower r.upper).hostBits)
        = (coverSpan r.lower r.upper).start := by
    rw [Version.networkMask, Version.hostMask, Nat.sub_sub_self halign.hostBits_le]
    exact Bits.and_networkMask hlower halign.hostBits_le
  rw [hmask]
  exact blockSection?_eq halign hstart

end Sections

end Machine

end IpSpace
