import IpSpace.Proofs.AlignedBlocks
import IpSpace.Proofs.NetworkTests

/-!
# Which addresses are masks

A network mask has ones in front of its boundary and zeros behind it, a host mask the other way
round (`Section.Mask.eq_word_iff`). Its segments are known from the prefix length: those in front of
the boundary have no host bits, those behind it nothing else, and the one that holds it has what is
left (`Section.Mask.segments_succ`).

The scan of a section goes through the segments in this order. Its step says how a mask with one
more segment in front arises: from a mask with a segment without host bits, or from host bits only
with a segment that has some (`Section.Mask.prefixLen?_cons_eq_some_iff`). By induction on the
segments the scan finds the prefix length of every mask and accepts nothing else
(`Section.Mask.prefixLen?_eq_some_iff`).
-/

namespace IpSpace

namespace Section.Mask

variable {mask : Mask} {width h p value : Nat} {rest digits : List Nat}

/-! ## One segment -/

/-- A segment of a mask is known by its host bits: they are the zeros, or the ones, at its low
end. -/
theorem hostBits_segment (mask : Mask) (hh : h ≤ width) :
    mask.hostBits width (mask.segment width h) = h := by
  have hdvd : ∀ j, 2 ^ j ∣ 2 ^ h ↔ j ≤ h := fun j => Nat.pow_dvd_pow_iff_le_right (by decide)
  have hpos := Nat.two_pow_pos h
  have hle : 2 ^ h ≤ 2 ^ width := Nat.pow_le_pow_right (by decide) hh
  refine eq_of_forall_le_iff fun j => ?_
  cases mask with
  | network =>
    have hsegment : network.segment width h = 2 ^ width - 2 ^ h := by
      simp only [segment]
      omega
    rw [hostBits, hsegment, Bits.le_trailingZeros_iff]
    constructor
    · rintro ⟨hj, hsub⟩
      exact (hdvd j).1 ((Nat.dvd_sub_iff_right hle (Nat.pow_dvd_pow 2 hj)).1 hsub)
    · intro hj
      have hwidth := Nat.le_trans hj hh
      exact ⟨hwidth, Nat.dvd_sub (Nat.pow_dvd_pow 2 hwidth) ((hdvd j).2 hj)⟩
  | host =>
    have hsegment : host.segment width h + 1 = 2 ^ h := Nat.sub_add_cancel hpos
    rw [hostBits, Bits.le_trailingOnes_iff, hsegment, hdvd]
    omega

theorem hostBits_le (mask : Mask) (width value : Nat) : mask.hostBits width value ≤ width := by
  cases mask with
  | network => exact (Bits.le_trailingZeros_iff.1 (Nat.le_refl _)).1
  | host => exact (Bits.le_trailingOnes_iff.1 (Nat.le_refl _)).1

/-- A segment with host bits is none without. -/
theorem segment_ne_segment_zero (mask : Mask) (hpos : 0 < h) (hh : h ≤ width) :
    mask.segment width h ≠ mask.segment width 0 := by
  intro heq
  have hzero := hostBits_segment mask (Nat.zero_le width)
  rw [← heq, hostBits_segment mask hh] at hzero
  omega

/-! ## All segments -/

/-- The segments of a mask of prefix length `p`, in an address of `count` segments. -/
def segments (mask : Mask) (width p count : Nat) : List Nat :=
  (List.range count).map fun index => mask.segment width (width - (p - index * width))

/-- The first segment takes its part of the prefix length, and the others share the rest. -/
theorem segments_succ (mask : Mask) (width p count : Nat) :
    mask.segments width p (count + 1)
      = mask.segment width (width - p) :: mask.segments width (p - width) count := by
  simp only [segments, List.range_succ_eq_map, List.map_cons, List.map_map, Nat.zero_mul,
    Nat.sub_zero]
  refine congrArg (_ :: ·) (List.map_congr_left fun index _ => ?_)
  rw [Function.comp_apply, Nat.succ_mul, Nat.add_comm, Nat.sub_sub]

/-- Behind the boundary there are host bits only. -/
theorem segments_zero (mask : Mask) (width count : Nat) :
    mask.segments width 0 count = List.replicate count (mask.segment width width) := by
  simp only [segments, Nat.zero_sub, Nat.sub_zero, List.map_const', List.length_range]

/-! ## The scan -/

/-- **One step of the scan.** A mask with one more segment in front begins with a segment without
host bits, or with the only one that holds a boundary. -/
theorem prefixLen?_cons_eq_some_iff : mask.prefixLen? width (value :: rest) = some p ↔
    (value = mask.segment width 0 ∧ ∃ q, mask.prefixLen? width rest = some q ∧ width + q = p) ∨
    ∃ h, 0 < h ∧ h ≤ width ∧ value = mask.segment width h ∧
      rest = List.replicate rest.length (mask.segment width width) ∧ width - h = p := by
  rw [prefixLen?]
  by_cases hfront : value = mask.segment width 0
  · rw [if_pos hfront, Option.map_eq_some_iff]
    constructor
    · exact fun hrest => Or.inl ⟨hfront, hrest⟩
    · rintro (⟨-, hrest⟩ | ⟨h, hpos, hh, rfl, -⟩)
      · exact hrest
      · exact absurd hfront (segment_ne_segment_zero mask hpos hh)
  · have hall : (rest.all (· == mask.segment width width)) = true ↔
        rest = List.replicate rest.length (mask.segment width width) := by
      rw [List.eq_replicate_iff, List.all_eq_true]
      simp only [beq_iff_eq, true_and]
    rw [if_neg hfront, Option.ite_none_right_eq_some, hall, Option.some.injEq]
    constructor
    · rintro ⟨⟨hvalue, hrest⟩, hp⟩
      -- Without host bits the segment would be one in front of the boundary.
      refine Or.inr ⟨_, ?_, mask.hostBits_le width value, hvalue, hrest, hp⟩
      rw [Nat.pos_iff_ne_zero]
      intro hzero
      rw [hzero] at hvalue
      exact hfront hvalue
    · rintro (⟨hzero, -⟩ | ⟨h, hpos, hh, rfl, hrest, hp⟩)
      · exact absurd hzero hfront
      · rw [hostBits_segment mask hh]
        exact ⟨⟨rfl, hrest⟩, hp⟩

/-- **The scan finds the prefix length of a mask, and accepts only masks.** -/
theorem prefixLen?_eq_some_iff : mask.prefixLen? width digits = some p ↔
    p ≤ width * digits.length ∧ digits = mask.segments width p digits.length := by
  induction digits generalizing p with
  | nil =>
    rw [prefixLen?, Option.some.injEq, List.length_nil, Nat.mul_zero, Nat.le_zero]
    simp only [segments, List.range_zero, List.map_nil, and_true, eq_comm]
  | cons value rest ih =>
    rw [prefixLen?_cons_eq_some_iff, List.length_cons, segments_succ, List.cons.injEq, Nat.mul_succ]
    constructor
    · rintro (⟨rfl, q, hq, rfl⟩ | ⟨h, hpos, hh, rfl, hrest, rfl⟩)
      · obtain ⟨hle, hrest⟩ := ih.1 hq
        rw [Nat.sub_eq_zero_of_le (Nat.le_add_right width q), Nat.add_sub_cancel_left]
        exact ⟨by omega, rfl, hrest⟩
      · rw [Nat.sub_sub_self hh, Nat.sub_eq_zero_of_le (Nat.sub_le width h), segments_zero]
        exact ⟨by omega, rfl, hrest⟩
    · rintro ⟨hle, hvalue, hrest⟩
      by_cases hp : width ≤ p
      · -- The boundary lies behind the first segment.
        rw [Nat.sub_eq_zero_of_le hp] at hvalue
        exact Or.inl ⟨hvalue, p - width, ih.2 ⟨by omega, hrest⟩, by omega⟩
      · rw [Nat.sub_eq_zero_of_le (Nat.le_of_not_le hp), segments_zero] at hrest
        exact Or.inr ⟨width - p, by omega, by omega, hvalue, hrest, by omega⟩

/-! ## Masks as addresses -/

/-- The mask of prefix length `p` as an address. -/
def word (mask : Mask) (version : Version) (p : Nat) : Nat :=
  match mask with
  | network => version.networkMask p
  | host => version.hostMask p

variable {version : Version}

theorem word_le_maxValue (mask : Mask) (version : Version) (p : Nat) :
    mask.word version p ≤ version.maxValue := by
  cases mask with
  | network => exact Nat.sub_le _ _
  | host => exact Nat.le_sub_one_of_lt (version.hostMask_lt p)

/-- The segments of this address. -/
theorem split_word (mask : Mask) (version : Version) (p : Nat) :
    version.split (mask.word version p) =
      mask.segments version.segmentBits p version.segmentCount := by
  cases mask with
  | network => exact version.split_networkMask p
  | host => exact version.split_hostMask p

/-- The bit of a mask in front of its boundary. -/
def leading : Mask → Bool
  | network => true
  | host => false

/-- The word `x` of `width` bits has `p` bits `bit` in front, and the other bit everywhere behind
them. -/
def Begins (width p : Nat) (bit : Bool) (x : Nat) : Prop :=
  ∀ index < width, x.testBit (width - 1 - index) = if index < p then bit else !bit

/-- Bits in front and behind make a word known. -/
theorem Begins.unique {bit : Bool} {x y : Nat} (hx : Begins width p bit x)
    (hy : Begins width p bit y) (hxlt : x < 2 ^ width) (hylt : y < 2 ^ width) : x = y := by
  apply Nat.eq_of_testBit_eq
  intro i
  by_cases hi : i < width
  · have hindex : width - 1 - (width - 1 - i) = i := by omega
    have hlt : width - 1 - i < width := by omega
    rw [← hindex, hx _ hlt, hy _ hlt]
  · have hle : 2 ^ width ≤ 2 ^ i := Nat.pow_le_pow_right (by decide) (Nat.le_of_not_lt hi)
    rw [Nat.testBit_eq_false_of_lt (Nat.lt_of_lt_of_le hxlt hle),
      Nat.testBit_eq_false_of_lt (Nat.lt_of_lt_of_le hylt hle)]

theorem begins_word (mask : Mask) (version : Version) (p : Nat) :
    Begins version.bitCount p mask.leading (mask.word version p) := by
  intro index hindex
  have hhost : (version.hostMask p).testBit (version.bitCount - 1 - index) =
      !decide (index < p) := by
    rw [Version.hostMask, Nat.testBit_two_pow_sub_one, ← decide_not]
    exact decide_eq_decide.2 (by omega)
  cases mask with
  | network =>
    have hmax : (2 ^ version.bitCount - 1).testBit (version.bitCount - 1 - index) = true := by
      rw [Nat.testBit_two_pow_sub_one]
      exact decide_eq_true (by omega)
    rw [word, Version.networkMask, Version.maxValue, ← Bits.xor_max (version.hostMask_lt p),
      Nat.testBit_xor, hmax, hhost]
    by_cases hp : index < p <;> simp [hp, leading]
  | host =>
    rw [word, hhost]
    by_cases hp : index < p <;> simp [hp, leading]

/-- **A word is the mask of a prefix length if its bits are.** -/
theorem eq_word_iff {x : Nat} (hx : x ≤ version.maxValue) :
    x = mask.word version p ↔ Begins version.bitCount p mask.leading x := by
  have hlt : ∀ y ≤ version.maxValue, y < 2 ^ version.bitCount := by
    intro y hy
    rw [version.bitCount_eq]
    exact Version.le_maxValue_iff.1 hy
  constructor
  · rintro rfl
    exact begins_word mask version p
  · intro hbegins
    exact hbegins.unique (begins_word mask version p) (hlt x hx)
      (hlt _ (word_le_maxValue mask version p))

end Section.Mask

namespace Section

variable {s : Section} {mask : Mask} {p : Nat}

/-! ## Sections -/

/-- **The scan of a section finds the mask that is its only address.** -/
theorem maskPrefixLen?_eq_some_iff (hs : s.WellFormed) : s.maskPrefixLen? mask = some p ↔
    p ≤ s.bitCount ∧ s.values = {mask.word s.version p} := by
  have hlen : (s.bounds.map (·.lower)).length = s.version.segmentCount := by
    rw [List.length_map, hs.length_bounds]
  have hword := mask.word_le_maxValue s.version p
  rw [maskPrefixLen?, Option.ite_none_left_eq_some, Bool.not_eq_true, Mask.prefixLen?_eq_some_iff,
    hlen, ← Version.bitCount_eq, ← split_lowerValue hs, ← Mask.split_word,
    Version.split_inj (lowerValue_le_maxValue hs) hword, values_eq_singleton_iff hs]
  exact and_left_comm

/-- **Which sections are masks.** The scan of a section has a result exactly if the section is a
single address that is a mask, and it is then the prefix length of this mask: so many bits of one
kind in front, and only bits of the other kind behind them. In every other case there is no
result. -/
theorem maskLengths_exact (s : Section) (hs : s.WellFormed) (mask : Mask) :
    (∀ p, s.maskPrefixLen? mask = some p ↔
      p ≤ s.bitCount ∧ s.values = {mask.word s.version p}) ∧
    (∀ p, s.maskPrefixLen? mask = some p ↔
      p ≤ s.bitCount ∧ ∃ x, s.values = {x} ∧ Mask.Begins s.bitCount p mask.leading x) ∧
    (s.maskPrefixLen? mask = none ↔
      ∀ p ≤ s.bitCount, s.values ≠ {mask.word s.version p}) := by
  refine ⟨fun p => maskPrefixLen?_eq_some_iff hs, fun p => ?_, ?_⟩
  · rw [maskPrefixLen?_eq_some_iff hs]
    refine and_congr_right fun _ => ⟨fun hvalues => ⟨_, hvalues, mask.begins_word s.version p⟩, ?_⟩
    rintro ⟨x, hvalues, hbegins⟩
    have hx : x ≤ s.version.maxValue :=
      le_maxValue_of_mem_values (hvalues.symm ▸ Set.mem_singleton x)
    rw [hvalues, (Mask.eq_word_iff hx).2 hbegins]
  · rw [Option.eq_none_iff_forall_ne_some]
    constructor
    · intro hnone p hp hvalues
      exact hnone p ((maskPrefixLen?_eq_some_iff hs).2 ⟨hp, hvalues⟩)
    · intro hnever p hsome
      obtain ⟨hp, hvalues⟩ := (maskPrefixLen?_eq_some_iff hs).1 hsome
      exact hnever p hp hvalues

/-- The address ffff:ffff:ffff:ffff:ffff:ffff:f000:0 is the network mask of length 100. The address
255.255.253.0 is none, as a bit is missing in its third segment. -/
theorem maskLengths_exact_inside :
    let network : Section :=
      ⟨.v6, List.replicate 6 (.single 0xffff) ++ [.single 0xf000, .single 0], none⟩
    let broken : Section := ⟨.v4, [.single 255, .single 255, .single 253, .single 0], some 24⟩
    network.WellFormed ∧ broken.WellFormed ∧ network.values = {Version.v6.networkMask 100} ∧
      (∀ x, network.values = {x} → Mask.Begins 128 100 true x) ∧
      ∀ p ≤ 32, broken.values ≠ {Version.v4.networkMask p} := by
  intro network broken
  have hnetwork : network.WellFormed := ⟨rfl, by decide, by decide, by decide⟩
  have hbroken : broken.WellFormed := ⟨rfl, by decide, by decide, by decide⟩
  obtain ⟨hvalue, hbits, -⟩ := maskLengths_exact network hnetwork .network
  obtain ⟨-, -, hnone⟩ := maskLengths_exact broken hbroken .network
  have hlength : network.maskPrefixLen? .network = some 100 := by decide
  obtain ⟨-, x, hx, hbegins⟩ := (hbits 100).1 hlength
  refine ⟨hnetwork, hbroken, ((hvalue 100).1 hlength).2, fun y hy => ?_, hnone.1 (by decide)⟩
  obtain rfl := Set.singleton_injective (hx.symm.trans hy)
  exact hbegins

end Section

end IpSpace
