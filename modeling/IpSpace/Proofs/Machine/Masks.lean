import IpSpace.Proofs.Machine.Words

/-!
# Masks on the machine

Addresses are words of 128 bits, and segments words of 32 bits, of which at most 16 are in use.
Cutting an address into segments and putting it together shifts by fewer bits than an address has
(`split?_eq`, `join?_eq`), and so does a mask (`hostMask?_eq`, `networkMask?_eq`).

The masks of a segment stand in a table with one entry for every prefix length of the segment. A
look into the table stops the machine exactly if the prefix length is past the width of the segment
(`segmentNetworkMask?_eq`, `segmentNetworkMask?_eq_none_iff`).

Masking a range of values subtracts numbers that follow from the highest bit in which the ends
differ. The lower end has that bit clear and the upper end has it set, so no difference is below
zero (`maskRange?_eq`).
-/

namespace IpSpace

namespace Machine

variable {version : Version} {bits h p value lower upper mask max : Nat}

/-! ## Addresses -/

/-- The address whose last `hostBits` bits are one. -/
def hostMaskBits? (version : Version) (hostBits : Nat) : Option Nat :=
  if hostBits = 0 then some 0
  else do shiftRight? 128 version.maxValue (← sub? version.bitCount hostBits)

/-- The host mask of a prefix length. -/
def hostMask? (version : Version) (p : Nat) : Option Nat :=
  hostMaskBits? version (version.bitCount - p)

/-- The network mask of a prefix length. -/
def networkMask? (version : Version) (p : Nat) : Option Nat := do
  return version.maxValue ^^^ (← hostMaskBits? version (version.bitCount - p))

/-- The segments of an address. -/
def split? (version : Version) (value : Nat) : Option (List Nat) :=
  (List.range version.segmentCount).mapM fun index => do
    let behind ← sub? (← sub? version.segmentCount 1) index
    let shift ← mul? 32 (truncate 32 behind) version.segmentBits
    return truncate 32 ((← shiftRight? 128 value shift) &&& version.segmentMax)

/-- The word of 128 bits with the given digits of `width` bits. -/
def joinDigits? (width : Nat) (digits : List Nat) : Option Nat :=
  digits.foldlM (fun word digit => do return (← shiftLeft? 128 word width) ||| digit) 0

/-- The address with the given segments. -/
def join? (version : Version) : List Nat → Option Nat :=
  joinDigits? version.segmentBits

/-- An address fits into the widest word. -/
theorem bitCount_le (version : Version) : version.bitCount ≤ 128 := by
  rw [version.bitCount_eq]
  exact version.segmentBits_mul_segmentCount_le

/-- A segment has at most sixteen bits. -/
theorem segmentBits_le (version : Version) : version.segmentBits ≤ 16 := by
  cases version <;> decide

theorem segmentBits_lt (version : Version) : version.segmentBits < 32 :=
  Nat.lt_of_le_of_lt (segmentBits_le version) (by decide)

/-- A segment fits into its word. -/
theorem segmentMax_lt_word (version : Version) : version.segmentMax < 2 ^ 32 :=
  Bits.two_pow_sub_one_lt (Nat.le_of_lt (segmentBits_lt version))

/-- An address has at most eight segments. -/
theorem segmentCount_le (version : Version) : version.segmentCount ≤ 8 := by
  cases version <;> decide

/-- **The host mask**: no shift is as wide as the word, since the empty mask is a case of its own.
-/
theorem hostMask?_eq (version : Version) (p : Nat) :
    hostMask? version p = some (version.hostMask p) := by
  have hle := bitCount_le version
  rw [hostMask?, hostMaskBits?, Version.hostMask]
  by_cases hzero : version.bitCount - p = 0
  · rw [if_pos hzero, hzero]
    rfl
  · rw [if_neg hzero, bind_eq (sub?_eq (Nat.sub_le _ _)), shiftRight?_eq (by omega),
      Version.maxValue, Bits.two_pow_sub_one_div, Nat.sub_sub_self (Nat.sub_le _ _)]

/-- The network mask is what the host mask leaves of the greatest value. -/
theorem networkMask?_eq (version : Version) (p : Nat) :
    networkMask? version p = some (version.networkMask p) := by
  have hhost : hostMaskBits? version (version.bitCount - p) = some (version.hostMask p) :=
    hostMask?_eq version p
  rw [networkMask?, bind_eq hhost, Version.maxValue, Bits.xor_max (version.hostMask_lt p)]
  rfl

/-- Every digit is found at its place by a shift. -/
theorem split_eq_map (width count value : Nat) : Digits.split width count value
    = (List.range count).map fun index =>
      value / 2 ^ (width * (count - 1 - index)) % 2 ^ width := by
  induction count with
  | zero => rfl
  | succ count ih =>
      rw [Digits.split, ih, List.range_succ_eq_map, List.map_cons, List.map_map]
      refine congrArg (_ :: ·) (List.map_congr_left fun index hindex => ?_)
      have hplace : count + 1 - 1 - (index + 1) = count - 1 - index := by omega
      rw [Function.comp_apply, Nat.succ_eq_add_one, hplace]

/-- **An address is cut into segments** by shifts that stay within it. -/
theorem split?_eq (version : Version) (value : Nat) :
    split? version value = some (version.split value) := by
  rw [Version.split, split_eq_map]
  apply mapM_eq_some
  intro index hindex
  have hlt := List.mem_range.1 hindex
  have hbits := version.segmentBits_pos
  have hwidth := segmentBits_le version
  have hroom := version.segmentBits_mul_segmentCount_le
  -- In front of the last segment there is at least one, and all of them have at most 128 bits.
  have hplace :
      (version.segmentCount - 1 - index) * version.segmentBits + version.segmentBits ≤ 128 := by
    rw [← Nat.succ_mul]
    refine Nat.le_trans (Nat.mul_le_mul_right _ ?_) (Nat.mul_comm _ _ ▸ hroom)
    omega
  have hcount := segmentCount_le version
  have hbehind : truncate 32 (version.segmentCount - 1 - index) =
      version.segmentCount - 1 - index :=
    truncate_eq (by omega)
  have hsegment : 2 ^ version.segmentBits ≤ 2 ^ 32 := Nat.pow_le_pow_right (by decide) (by omega)
  rw [bind_eq (sub?_eq (by omega)), bind_eq (sub?_eq (by omega)), hbehind,
    bind_eq (mul?_eq (by omega)), bind_eq (shiftRight?_eq (by omega)), Version.segmentMax,
    Nat.and_two_pow_sub_one_eq_mod, Nat.mul_comm version.segmentBits, truncate_eq]
  · rfl
  · exact Nat.lt_of_lt_of_le (Nat.mod_lt _ (Nat.two_pow_pos _)) hsegment

/-- Segments are shifted into a word one by one, and what leaves it is lost. -/
theorem joinDigits?_eq {width : Nat} {digits : List Nat} (hwidth : width < 128)
    (hdigits : ∀ d ∈ digits, d < 2 ^ 32) :
    joinDigits? width digits = some (Digits.join width digits) := by
  refine (foldlM_eq_some (fun _ => True) (fun word _ digit hdigit => ⟨?_, trivial⟩) trivial).1
  have hfits : digit < 2 ^ 128 := Nat.lt_trans (hdigits digit hdigit) (by decide)
  rw [bind_eq (shiftLeft?_eq hwidth), Nat.or_mod_two_pow, Nat.mod_eq_of_lt hfits]
  rfl

theorem join?_eq {digits : List Nat} (hdigits : ∀ d ∈ digits, d < 2 ^ 32) :
    join? version digits = some (version.join digits) :=
  joinDigits?_eq (Nat.lt_of_le_of_lt (segmentBits_le version) (by decide)) hdigits

/-! ## Segments -/

/-- The largest value of a segment of `bits` bits. -/
def maxSegment? (bits : Nat) : Option Nat := do
  sub? (← shiftLeft? 32 1 bits) 1

/-- The table of the network masks of a segment, one for every prefix length. -/
def networkMasks? (bits : Nat) : Option (List Nat) := do
  let max ← maxSegment? bits
  (List.range (bits + 1)).mapM fun p => do
    let low ← sub? (← shiftLeft? 32 1 (← sub? bits p)) 1
    return max &&& complement 32 low

/-- The network mask of a segment. Only segments of the two versions have a table. -/
def segmentNetworkMask? (bits p : Nat) : Option Nat := do
  assert? (bits = 8 ∨ bits = 16)
  (← networkMasks? bits)[p]?

/-- The host mask of a segment. -/
def segmentHostMask? (bits p : Nat) : Option Nat := do
  let max ← maxSegment? bits
  return max ^^^ (← segmentNetworkMask? bits p)

/-- The greatest value of a width below that of the word is found. -/
theorem maxSegment?_eq (hbits : bits < 32) : maxSegment? bits = some (2 ^ bits - 1) := by
  rw [maxSegment?, bind_eq (shiftLeft?_one hbits), sub?_eq (Nat.two_pow_pos bits)]

/-- The table of network masks is built without a shift as wide as the word. -/
theorem networkMasks?_eq (hbits : bits < 32) : networkMasks? bits
    = some ((List.range (bits + 1)).map fun p => 2 ^ bits - 1 - (2 ^ (bits - p) - 1)) := by
  rw [networkMasks?, bind_eq (maxSegment?_eq hbits)]
  apply mapM_eq_some
  intro p hp
  have hle : bits - p ≤ 32 := by omega
  have hpos := Nat.two_pow_pos (bits - p)
  rw [bind_eq (sub?_eq (Nat.le_of_lt_succ (List.mem_range.1 hp))),
    bind_eq (shiftLeft?_one (by omega)), bind_eq (sub?_eq hpos), complement,
    Bits.and_networkMask (Bits.two_pow_sub_one_lt (by omega)) hle]
  -- The same segment of all ones under its own mask has the same block.
  rw [← Bits.and_networkMask (Bits.two_pow_sub_one_lt (Nat.le_refl bits)) (Nat.sub_le bits p),
    Nat.and_comm, Nat.and_two_pow_sub_one_of_lt_two_pow]
  · rfl
  · exact Nat.lt_of_le_of_lt (Nat.sub_le _ _) (Bits.two_pow_sub_one_lt (Nat.le_refl bits))

section Tables

variable (hbits : bits = 8 ∨ bits = 16)

include hbits

/-- A network mask is looked up, and there is none past the width. -/
theorem segmentNetworkMask?_eq_getElem? (p : Nat) : segmentNetworkMask? bits p
    = ((List.range (bits + 1)).map fun p => 2 ^ bits - 1 - (2 ^ (bits - p) - 1))[p]? := by
  rw [segmentNetworkMask?, bind_eq (assert?_eq hbits), bind_eq (networkMasks?_eq (by omega))]

/-- The mask that leaves `h` host bits stands in the table. -/
theorem segmentNetworkMask?_eq (hh : h ≤ bits) :
    segmentNetworkMask? bits (bits - h) = some (2 ^ bits - 1 - (2 ^ h - 1)) := by
  rw [segmentNetworkMask?_eq_getElem? hbits, List.getElem?_map, List.getElem?_range (by omega)]
  rw [Option.map_some, Nat.sub_sub_self hh]

/-- **A look into the table stops the machine exactly past the width of the segment.** -/
theorem segmentNetworkMask?_eq_none_iff : segmentNetworkMask? bits p = none ↔ bits < p := by
  rw [segmentNetworkMask?_eq_getElem? hbits, List.getElem?_eq_none_iff, List.length_map,
    List.length_range]
  exact Nat.succ_le_iff

/-- The host mask is what the network mask in the table leaves of the greatest value. -/
theorem segmentHostMask?_eq (hh : h ≤ bits) :
    segmentHostMask? bits (bits - h) = some (2 ^ h - 1) := by
  have hle : 2 ^ h - 1 ≤ 2 ^ bits - 1 :=
    Nat.sub_le_sub_right (Nat.pow_le_pow_right (by decide) hh) 1
  rw [segmentHostMask?, bind_eq (maxSegment?_eq (by omega)),
    bind_eq (segmentNetworkMask?_eq hbits hh),
    Bits.xor_max (Nat.lt_of_le_of_lt (Nat.sub_le _ _) (Bits.two_pow_sub_one_lt (Nat.le_refl bits))),
    Nat.sub_sub_self hle]
  rfl

end Tables

/-! ## Ranges of values -/

/-- The values of a range under a mask. -/
def maskRange? (lower upper mask max : Nat) : Option Masked := do
  if lower = upper ∨ mask = 0 ∨ mask = max then
    return Masked.exact (lower &&& mask) (upper &&& mask)
  let fallback : Masked := ⟨lower &&& mask, upper &&& mask, false⟩
  let differing ← sub? (32 - 1) (leadingZeros 32 (lower ^^^ upper))
  let lowBits := truncate 32 (← sub? (← shiftLeft? 64 2 differing) 1)
  let lowMask := mask &&& lowBits
  if lowMask = 0 then return Masked.exact (lower &&& mask) (lower &&& mask)
  let top ← sub? (32 - 1) (leadingZeros 32 lowMask)
  let belowTop ← sub? (← shiftLeft? 32 1 top) 1
  if lowMask &&& belowTop ≠ belowTop then return fallback
  if top = differing then return Masked.exact (lower &&& mask) (upper &&& mask)
  let modulus ← shiftLeft? 32 1 (← add? 32 top 1)
  let half ← shiftLeft? 32 1 differing
  let lowerLow := lower &&& lowBits
  let upperLow := upper &&& lowBits
  let front ← sub? half lowerLow
  let behind ← add? 32 (← sub? upperLow half) 1
  let low ← sub? modulus 1
  if ¬ (modulus ≤ front ∨ modulus ≤ behind ∨ lowerLow &&& low ≤ behind) then return fallback
  let base := lower &&& mask &&& complement 32 low
  return Masked.exact base (base ||| low)

/-- The values of a range with the bits of a mask set. -/
def orRange? (lower upper mask max : Nat) : Option Masked := do
  let inverted ← maskRange? (max ^^^ upper) (max ^^^ lower) (max ^^^ mask) max
  return {
    lower := if inverted.contiguous then max ^^^ inverted.upper else lower ||| mask
    upper := if inverted.contiguous then max ^^^ inverted.lower else upper ||| mask
    contiguous := inverted.contiguous }

/-- A word is known to have the ones below its highest bit by those bits alone. -/
theorem and_belowTop_eq_iff {kept : Nat} (hpos : kept ≠ 0) :
    kept &&& (2 ^ kept.log2 - 1) = 2 ^ kept.log2 - 1 ↔ kept + 1 = 2 ^ (kept.log2 + 1) := by
  have htop : 2 ^ kept.log2 ≤ kept := Nat.log2_self_le hpos
  have hlt : kept < 2 ^ (kept.log2 + 1) := Nat.lt_log2_self
  have hone := Nat.two_pow_pos kept.log2
  rw [Nat.pow_succ] at hlt ⊢
  rw [Nat.and_two_pow_sub_one_eq_mod, Nat.mod_eq_sub_mod htop, Nat.mod_eq_of_lt (by omega)]
  omega

/-- Setting the bits in which a block has no ones leads to its end. -/
theorem mul_or_hostMask (n h : Nat) : n * 2 ^ h ||| (2 ^ h - 1) = n * 2 ^ h + (2 ^ h - 1) := by
  rw [Bits.or_hostMask, Bits.blockEnd, Nat.mul_div_cancel _ (Nat.two_pow_pos h)]

/-- Clearing and then setting the low bits of a word leads to the ends of its block. -/
theorem block_ends (hx : value < 2 ^ 32) (hh : h ≤ 32) :
    value &&& complement 32 (2 ^ h - 1) = value / 2 ^ h * 2 ^ h ∧
      (value / 2 ^ h * 2 ^ h ||| (2 ^ h - 1)) = value / 2 ^ h * 2 ^ h + (2 ^ h - 1) :=
  ⟨by rw [complement, Bits.and_networkMask hx hh, Bits.blockStart], mul_or_hostMask _ h⟩

/-- The bits from one downwards are found in a word that is twice as wide. -/
theorem shiftLeft?_two {d : Nat} (hd : d < 32) : shiftLeft? 64 2 d = some (2 ^ (d + 1)) := by
  have hdouble : 2 * 2 ^ d = 2 ^ (d + 1) := by rw [Nat.pow_succ, Nat.mul_comm]
  have hroom : 2 ^ (d + 1) < 2 ^ 64 := Nat.pow_lt_pow_right (by decide) (by omega)
  rw [shiftLeft?_eq_mul (by omega) (hdouble.trans_lt hroom), hdouble]

/-- **A range can be masked with every mask**: no difference is below zero, and no shift leaves the
word. -/
theorem maskRange?_eq (hle : lower ≤ upper) (hupper : upper < 2 ^ 32) (mask max : Nat) :
    maskRange? lower upper mask max = some (maskRange lower upper mask max) := by
  unfold maskRange? maskRange
  by_cases hplain : lower = upper ∨ mask = 0 ∨ mask = max
  · rw [if_pos hplain, if_pos hplain]
    rfl
  rw [if_neg hplain, if_neg hplain]
  have hlt : lower < upper := Nat.lt_of_le_of_ne hle fun h => hplain (Or.inl h)
  have hxor : lower ^^^ upper ≠ 0 := fun h => Nat.ne_of_lt hlt (Nat.xor_eq_zero_iff.1 h)
  have hword : lower ^^^ upper < 2 ^ 32 := Nat.xor_lt_two_pow (Nat.lt_trans hlt hupper) hupper
  have hd := (Nat.log2_lt hxor).2 hword
  have hdiffer := differAt_log2 hlt
  rw [bind_eq (sub?_leadingZeros hxor hword)]
  generalize (lower ^^^ upper).log2 = d at hd hdiffer
  -- The bits from the highest differing one downwards.
  have hroom : 2 ^ (d + 1) ≤ 2 ^ 32 := Nat.pow_le_pow_right (by decide) hd
  have hone := Nat.two_pow_pos (d + 1)
  rw [bind_eq (shiftLeft?_two hd), bind_eq (sub?_eq hone), truncate_eq (by omega)]
  simp only [Nat.and_two_pow_sub_one_eq_mod]
  have hkept : mask % 2 ^ (d + 1) < 2 ^ (d + 1) := Nat.mod_lt _ hone
  by_cases hzero : mask % 2 ^ (d + 1) = 0
  · rw [if_pos hzero, if_pos hzero]
    rfl
  rw [if_neg hzero, if_neg hzero]
  generalize mask % 2 ^ (d + 1) = kept at hkept hzero
  have htop : kept.log2 < d + 1 := (Nat.log2_lt hzero).2 hkept
  rw [bind_eq (sub?_leadingZeros hzero (Nat.lt_of_lt_of_le hkept hroom)),
    bind_eq (shiftLeft?_one (by omega)), bind_eq (sub?_eq (Nat.two_pow_pos _))]
  by_cases hrun : kept + 1 = 2 ^ (kept.log2 + 1)
  · rw [if_neg (not_not_intro ((and_belowTop_eq_iff hzero).2 hrun)), if_neg (not_not_intro hrun)]
    by_cases hall : kept.log2 = d
    · rw [if_pos hall, if_pos hall]
      rfl
    rw [if_neg hall, if_neg hall]
    have hmodulus : 2 ^ (kept.log2 + 1) ≤ 2 ^ d := Nat.pow_le_pow_right (by decide) (by omega)
    have hlow := Nat.two_pow_pos (kept.log2 + 1)
    have hhigh := Nat.mod_lt upper hone
    have hword' : lower &&& mask < 2 ^ 32 :=
      Nat.lt_of_le_of_lt Nat.and_le_left (Nat.lt_trans hlt hupper)
    obtain ⟨hstart, hstop⟩ := block_ends hword' (show kept.log2 + 1 ≤ 32 by omega)
    rw [bind_eq (add?_eq (by omega)), bind_eq (shiftLeft?_one (by omega)),
      bind_eq (shiftLeft?_one hd), bind_eq (sub?_eq (Nat.le_of_lt hdiffer.lower_lt)),
      bind_eq (sub?_eq hdiffer.le_upper), bind_eq (add?_eq (by omega)), bind_eq (sub?_eq hlow),
      Nat.and_two_pow_sub_one_eq_mod, hstart, hstop]
    rw [ite_not]
    split
    · rfl
    · rfl
  · rw [if_pos fun h => hrun ((and_belowTop_eq_iff hzero).1 h), if_pos hrun]
    rfl

/-- Setting the bits of a mask is masking the complements of the ends, which are in order as well.
-/
theorem orRange?_eq {width : Nat} (hwidth : width ≤ 32) (hle : lower ≤ upper)
    (hupper : upper < 2 ^ width) (mask : Nat) : orRange? lower upper mask (2 ^ width - 1)
      = some (orRange lower upper mask (2 ^ width - 1)) := by
  have hroom : 2 ^ width ≤ 2 ^ 32 := Nat.pow_le_pow_right (by decide) hwidth
  have hinverted : (2 ^ width - 1) ^^^ upper ≤ (2 ^ width - 1) ^^^ lower := by
    rw [Bits.xor_max hupper, Bits.xor_max (Nat.lt_of_le_of_lt hle hupper)]
    exact Nat.sub_le_sub_left hle _
  have hword : (2 ^ width - 1) ^^^ lower < 2 ^ 32 := by
    rw [Bits.xor_max (Nat.lt_of_le_of_lt hle hupper)]
    omega
  rw [orRange?, bind_eq (maskRange?_eq hinverted hword _ _), orRange]
  split
  case isTrue h =>
    simp only [h]
    rfl
  case isFalse h =>
    simp only [h]
    rfl

end Machine

end IpSpace
