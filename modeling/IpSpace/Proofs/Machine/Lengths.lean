import IpSpace.Proofs.BlockLengths
import IpSpace.Proofs.Machine.Sections

/-!
# Lengths of masks and blocks on the machine

The scan for a mask goes through the segments and is in one of two phases: until a segment differs
from what the mask begins with, and after it. The segment in between holds the boundary, which the
machine finds by counting the bits at the high end of the segment; the library counts those at the
low end. For a segment of a mask both find the same place, and any other segment fails the
comparison with the mask of that place (`maskBoundary?_eq`). The number of a segment times its width
is at most 128, so the place of the boundary in the address fits into a byte (`scanMask?_eq`).

The search for the smallest prefix length of whole networks takes the width of a segment off a total
that starts as the width of the address. It does so once for every segment at most, so the total
does not fall below zero (`minBlockLoop?_eq`).
-/

namespace IpSpace

open Section

namespace Machine

variable {version : Version} {s : Section} {mask : Mask} {bits h p k index value : Nat}

/-! ## Masks -/

/-- Where the boundary of a mask would be in a segment, and the segment of the mask with that
boundary. -/
def maskBoundary? (mask : Mask) (bits value : Nat) : Option (Nat × Nat) := do
  let aligned ← shiftLeft? 32 value (← sub? 32 bits)
  match mask with
  | .network =>
    let ones := truncate 8 (leadingOnes 32 aligned)
    return (ones, ← segmentNetworkMask? bits ones)
  | .host =>
    let zeros := truncate 8 (min (leadingZeros 32 aligned) bits)
    return (zeros, ← segmentHostMask? bits zeros)

/-- Goes through segments with their numbers, with the prefix length of the mask if all of them are
as expected. Behind the boundary, that is `behind`. -/
def scanMask? (mask : Mask) (bits : Nat) :
    (behind : Bool) → Nat → List (Nat × Nat) → Option (Option Nat)
  | _, p, [] => some (some p)
  | true, p, (value, _) :: rest =>
    if value = mask.segment bits bits then scanMask? mask bits true p rest else some none
  | false, p, (value, index) :: rest =>
    if value = mask.segment bits 0 then scanMask? mask bits false p rest
    else do
      let (own, expected) ← maskBoundary? mask bits value
      if value ≠ expected then return none
      scanMask? mask bits true (← add? 8 (← mul? 8 (truncate 8 index) bits) own) rest

/-- The prefix length whose mask is the one address of the section. -/
def maskPrefixLen? (s : Section) (mask : Mask) : Option (Option Nat) :=
  if s.isMultiple then some none
  else scanMask? mask s.version.segmentBits false s.bitCount (s.bounds.map (·.lower)).zipIdx

/-- A segment of a mask differs from one without host bits in its host bits. -/
theorem xor_segment_zero (mask : Mask) (hh : h ≤ bits) :
    mask.segment bits h ^^^ mask.segment bits 0 = 2 ^ h - 1 := by
  have hlt : 2 ^ h - 1 < 2 ^ bits := Bits.two_pow_sub_one_lt hh
  have hmask : 2 ^ bits - 1 - (2 ^ h - 1) < 2 ^ bits :=
    Nat.lt_of_le_of_lt (Nat.sub_le _ _) (Bits.two_pow_sub_one_lt (Nat.le_refl bits))
  cases mask with
  | host => exact Nat.xor_zero _
  | network =>
      show (2 ^ bits - 1 - (2 ^ h - 1)) ^^^ (2 ^ bits - 1 - 0) = 2 ^ h - 1
      rw [Nat.sub_zero, Nat.xor_comm, Bits.xor_max hmask]
      omega

/-- Whether a value is a segment of a mask is seen from the bits in which it differs from one
without host bits. -/
theorem eq_segment_iff (mask : Mask) (hh : h ≤ bits) :
    value = mask.segment bits h ↔ value ^^^ mask.segment bits 0 = 2 ^ h - 1 := by
  rw [← xor_segment_zero mask hh]
  exact Nat.xor_left_inj.symm

/-- Shifting a word adds to the place of its highest bit, whatever comes in at the low end. -/
theorem log2_shift {c r : Nat} (hc : c ≠ 0) (hr : r < 2 ^ k) :
    (c * 2 ^ k + r).log2 = c.log2 + k := by
  have hpos := Nat.two_pow_pos k
  have hle : 2 ^ c.log2 * 2 ^ k ≤ c * 2 ^ k := Nat.mul_le_mul_right _ (Nat.log2_self_le hc)
  have hlt : (c + 1) * 2 ^ k ≤ 2 ^ (c.log2 + 1) * 2 ^ k := Nat.mul_le_mul_right _ Nat.lt_log2_self
  rw [Nat.succ_mul] at hlt
  have hne : c * 2 ^ k + r ≠ 0 := by
    have := Nat.mul_pos (Nat.pos_of_ne_zero hc) hpos
    omega
  refine (Nat.log2_eq_iff hne).2 ⟨?_, ?_⟩
  · rw [Nat.pow_add]
    omega
  · rw [Nat.add_right_comm, Nat.pow_add]
    omega

/-- Zeros at the high end of a word, counted after the word is moved to the high end of a longer
one. -/
theorem leadingZeros_shift {c r : Nat} (hbits : bits < 32) (hc : c ≠ 0) (hlt : c < 2 ^ bits)
    (hr : r < 2 ^ (32 - bits)) :
    leadingZeros 32 (c * 2 ^ (32 - bits) + r) = bits - (c.log2 + 1) := by
  have hlog := (Nat.log2_lt hc).2 hlt
  have hne : c * 2 ^ (32 - bits) + r ≠ 0 := by
    have := Nat.mul_pos (Nat.pos_of_ne_zero hc) (Nat.two_pow_pos (32 - bits))
    omega
  rw [leadingZeros, if_neg hne, log2_shift hc hr]
  omega

/-- Ones at the high end of a segment, counted after it is moved to the high end of a word. -/
theorem leadingOnes_shift (hbits : bits < 32) (hlt : value < 2 ^ bits)
    (hne : value ≠ 2 ^ bits - 1) :
    leadingOnes 32 (value * 2 ^ (32 - bits)) = bits - ((2 ^ bits - 1 - value).log2 + 1) := by
  have hroom := Nat.two_pow_pos (32 - bits)
  have hmax : 2 ^ bits * 2 ^ (32 - bits) = 2 ^ 32 := pow_mul_pow_sub 2 (Nat.le_of_lt hbits)
  have hparts : (2 ^ bits - 1 - value) * 2 ^ (32 - bits) + value * 2 ^ (32 - bits)
      + 2 ^ (32 - bits) = 2 ^ 32 := by
    rw [← Nat.add_mul, ← Nat.succ_mul, ← hmax]
    congr 1
    omega
  -- The complement has the complement of the segment at its high end and ones behind it.
  have hcomplement : complement 32 (value * 2 ^ (32 - bits))
      = (2 ^ bits - 1 - value) * 2 ^ (32 - bits) + (2 ^ (32 - bits) - 1) := by
    rw [complement]
    omega
  rw [leadingOnes, hcomplement]
  exact leadingZeros_shift hbits (by omega) (by omega) (Nat.sub_lt hroom Nat.one_pos)

/-- A segment has room at the high end of a word. -/
theorem shiftLeft?_align (hpos : 0 < bits) (hbits : bits < 32) (hlt : value < 2 ^ bits) :
    shiftLeft? 32 value (32 - bits) = some (value * 2 ^ (32 - bits)) := by
  have hmax : 2 ^ bits * 2 ^ (32 - bits) = 2 ^ 32 := pow_mul_pow_sub 2 (Nat.le_of_lt hbits)
  have hfits : value * 2 ^ (32 - bits) < 2 ^ bits * 2 ^ (32 - bits) :=
    Nat.mul_lt_mul_of_pos_right hlt (Nat.two_pow_pos _)
  exact shiftLeft?_eq_mul (by omega) (hfits.trans_eq hmax)

section Boundary

variable (hbits : bits = 8 ∨ bits = 16) (hlt : value < 2 ^ bits) (hne : value ≠ mask.segment bits 0)

include hbits hlt hne

/-- **The boundary is looked for where the segment first differs from one without host bits.** -/
theorem maskBoundary?_eq : maskBoundary? mask bits value
    = some (bits - ((value ^^^ mask.segment bits 0).log2 + 1),
        mask.segment bits ((value ^^^ mask.segment bits 0).log2 + 1)) := by
  have hsmall : bits < 32 := by omega
  rw [maskBoundary?, bind_eq (sub?_eq (Nat.le_of_lt hsmall)),
    bind_eq (shiftLeft?_align (by omega) hsmall hlt)]
  cases mask with
  | network =>
      have hseg : Mask.network.segment bits 0 = 2 ^ bits - 1 := rfl
      rw [hseg] at hne ⊢
      have hxor : value ^^^ (2 ^ bits - 1) = 2 ^ bits - 1 - value := by
        rw [Nat.xor_comm, Bits.xor_max hlt]
      have hlog : (2 ^ bits - 1 - value).log2 + 1 ≤ bits := (Nat.log2_lt (by omega)).2 (by omega)
      simp only [hxor, leadingOnes_shift hsmall hlt hne]
      rw [truncate_eq (by omega), bind_eq (segmentNetworkMask?_eq hbits hlog)]
      rfl
  | host =>
      have hseg : Mask.host.segment bits 0 = 0 := rfl
      rw [hseg] at hne ⊢
      have hlog : value.log2 + 1 ≤ bits := (Nat.log2_lt hne).2 hlt
      have hzeros : leadingZeros 32 (value * 2 ^ (32 - bits)) = bits - (value.log2 + 1) :=
        leadingZeros_shift hsmall hne hlt (Nat.two_pow_pos _)
      simp only [Nat.xor_zero, hzeros, Nat.min_eq_left (Nat.sub_le bits (value.log2 + 1))]
      rw [truncate_eq (by omega), bind_eq (segmentHostMask?_eq hbits hlog)]
      rfl

omit hbits in
/-- The segment is the one of the mask with the boundary at the high end exactly if it is the one
with the boundary at the low end, and then both are at the same place. -/
theorem eq_segment_hostBits_iff :
    (value = mask.segment bits ((value ^^^ mask.segment bits 0).log2 + 1)
      ↔ value = mask.segment bits (mask.hostBits bits value)) ∧
    (value = mask.segment bits (mask.hostBits bits value) →
      mask.hostBits bits value = (value ^^^ mask.segment bits 0).log2 + 1) := by
  have hsegment : mask.segment bits 0 < 2 ^ bits := by
    cases mask with
    | network => exact Bits.two_pow_sub_one_lt (Nat.le_refl bits)
    | host => exact Nat.two_pow_pos bits
  have hclt : value ^^^ mask.segment bits 0 < 2 ^ bits := Nat.xor_lt_two_pow hlt hsegment
  have hc : value ^^^ mask.segment bits 0 ≠ 0 := fun h => hne (Nat.xor_eq_zero_iff.1 h)
  have hlog := (Nat.log2_lt hc).2 hclt
  have hplace : value = mask.segment bits (mask.hostBits bits value) →
      mask.hostBits bits value = (value ^^^ mask.segment bits 0).log2 + 1 := by
    intro hvalue
    have hxor := (eq_segment_iff mask (Mask.hostBits_le mask bits value)).1 hvalue
    -- The host bits are there, as the segment is not the one without any.
    obtain ⟨j, hj⟩ : ∃ j, mask.hostBits bits value = j + 1 := by
      refine Nat.exists_eq_succ_of_ne_zero fun hzero => hne ?_
      rw [hzero] at hvalue
      exact hvalue
    rw [hxor, hj]
    have hpow := Nat.two_pow_pos j
    have hones : (2 ^ (j + 1) - 1).log2 = j := by
      rw [Nat.log2_eq_iff (by rw [Nat.pow_succ]; omega)]
      rw [Nat.pow_succ]
      omega
    rw [hones]
  refine ⟨⟨fun hvalue => ?_, fun hvalue => ?_⟩, hplace⟩
  · have hfound := Mask.hostBits_segment mask (Nat.succ_le_of_lt hlog)
    rw [← hvalue] at hfound
    rw [hfound]
    exact hvalue
  · rw [← hplace hvalue]
    exact hvalue

end Boundary

/-- Behind the boundary, every segment has to be as the mask goes on. -/
theorem scanMask?_behind (mask : Mask) (bits p : Nat) (digits : List Nat) (k : Nat) :
    scanMask? mask bits true p (digits.zipIdx k)
      = some (if digits.all (· == mask.segment bits bits) = true then some p else none) := by
  induction digits generalizing k with
  | nil => rfl
  | cons value rest ih =>
      rw [List.zipIdx_cons, scanMask?, List.all_cons]
      by_cases hvalue : value = mask.segment bits bits
      · rw [if_pos hvalue, ih, beq_iff_eq.2 hvalue, Bool.true_and]
      · rw [if_neg hvalue, beq_eq_false_iff_ne.2 hvalue, Bool.false_and]
        rfl

/-- **The scan finds the prefix length of a mask**, counted from the segments that it has passed. -/
theorem scanMask?_eq (mask : Mask) (hbits : bits = 8 ∨ bits = 16) {digits : List Nat}
    (hdigits : ∀ d ∈ digits, d < 2 ^ bits) (hroom : (k + digits.length) * bits ≤ 128) :
    scanMask? mask bits false ((k + digits.length) * bits) (digits.zipIdx k)
      = some ((mask.prefixLen? bits digits).map (k * bits + ·)) := by
  induction digits generalizing k with
  | nil => rfl
  | cons value rest ih =>
      obtain ⟨hlt, hrest⟩ := List.forall_mem_cons.1 hdigits
      rw [List.length_cons] at hroom ⊢
      have hpast : k + (rest.length + 1) = (k + 1) + rest.length := by omega
      rw [List.zipIdx_cons, scanMask?, Mask.prefixLen?]
      by_cases hvalue : value = mask.segment bits 0
      · rw [if_pos hvalue, if_pos hvalue, hpast, ih hrest (by rw [← hpast]; exact hroom),
          Option.map_map, Nat.succ_mul]
        refine congrArg (fun f => some (Option.map f _)) (funext fun q => ?_)
        exact Nat.add_assoc _ _ _
      rw [if_neg hvalue, if_neg hvalue, bind_eq (maskBoundary?_eq hbits hlt hvalue)]
      obtain ⟨hiff, hplace⟩ := eq_segment_hostBits_iff hlt hvalue
      by_cases hmask : value = mask.segment bits (mask.hostBits bits value)
      · -- The segment holds the boundary, so what is in front of it has fewer bits than an address.
        have hindex : k * bits + bits ≤ 128 := by
          rw [← Nat.succ_mul]
          exact Nat.le_trans (Nat.mul_le_mul_right _ (by omega)) hroom
        have hle : k ≤ k * bits := Nat.le_mul_of_pos_right k (by omega)
        have hown := Mask.hostBits_le mask bits value
        simp only [← hplace hmask]
        rw [if_neg (not_not_intro hmask), truncate_eq (by omega)]
        show (mul? 8 k bits >>= _) = _
        rw [bind_eq (mul?_eq (by omega)), bind_eq (add?_eq (by omega)), scanMask?_behind]
        by_cases htail : rest.all (· == mask.segment bits bits) = true
        · rw [if_pos htail, if_pos ⟨hmask, htail⟩]
          rfl
        · rw [if_neg htail, if_neg fun hand => htail hand.2]
          rfl
      · simp only [if_pos (mt hiff.1 hmask)]
        rw [if_neg fun hand => hmask hand.1]
        rfl

/-- **The scan for a mask never stops**, and finds what the library finds. -/
theorem maskPrefixLen?_eq (hs : s.WellFormed) (mask : Mask) :
    maskPrefixLen? s mask = some (s.maskPrefixLen? mask) := by
  rw [maskPrefixLen?, Section.maskPrefixLen?]
  split
  case isTrue => rfl
  case isFalse =>
    have hcount : (0 + (s.bounds.map (·.lower)).length) * s.version.segmentBits = s.bitCount := by
      rw [Nat.zero_add, List.length_map, hs.length_bounds]
      rfl
    have hdigits : ∀ d ∈ s.bounds.map (·.lower), d < 2 ^ s.version.segmentBits := by
      intro d hd
      obtain ⟨b, hb, rfl⟩ := List.mem_map.1 hd
      exact Nat.lt_of_le_of_lt (hs.within b hb).lower_le_upper (hs.within b hb).upper_lt
    have hscan := scanMask?_eq (k := 0) mask (segmentBits_cases s.version) hdigits
      (by rw [hcount]; exact bitCount_le s.version)
    rw [hcount] at hscan
    rw [hscan]
    simp only [Nat.zero_mul, Nat.zero_add, Option.map_id']

/-! ## Blocks -/

/-- Takes the segments off a total, from the last one on, as long as they are whole. -/
def minBlockLoop? (bits : Nat) : Nat → List Bounds → Option Nat
  | total, [] => some total
  | total, b :: rest => do
    let own ← minBlockPrefixLen? bits b
    if own = bits then return total
    let total ← sub? total bits
    if own ≠ 0 then add? 8 total own else minBlockLoop? bits total rest

/-- The smallest prefix length at which the addresses are made of whole networks. -/
def minBlockOf? (s : Section) : Option Nat :=
  minBlockLoop? s.version.segmentBits s.bitCount s.bounds.reverse

/-- The prefix length at which the addresses are exactly one network. -/
def singleBlockPrefixLen? (s : Section) : Option (Option Nat) := do
  let p ← minBlockOf? s
  return if ← isSingleNetworkAt? s p then some p else none

/-- **The total goes down to what is not free.** -/
theorem minBlockLoop?_eq (hbits : bits ≤ 16) (hpos : 0 < bits) {bounds : List Bounds} {total : Nat}
    (hroom : bits * bounds.length ≤ total) (htotal : total ≤ 128) :
    minBlockLoop? bits total bounds = some (total - freeBits bits bounds) := by
  induction bounds generalizing total with
  | nil => rfl
  | cons b rest ih =>
      rw [List.length_cons, Nat.mul_succ] at hroom
      have hfree := b.blockBits_le bits
      rw [minBlockLoop?, bind_eq (minBlockPrefixLen?_eq hbits b), freeBits]
      by_cases hnone : bits - b.blockBits bits = bits
      · have hzero : b.blockBits bits = 0 := by omega
        rw [if_pos hnone, if_neg (by omega), hzero, Nat.sub_zero]
        rfl
      rw [if_neg hnone, bind_eq (sub?_eq (by omega))]
      by_cases hpart : bits - b.blockBits bits = 0
      · rw [if_neg (not_not_intro hpart), ih (by omega) (by omega), if_pos (by omega), Nat.sub_sub]
      · rw [if_pos hpart, add?_eq (by omega), if_neg (by omega)]
        congr 1
        omega

section Blocks

variable (hs : s.WellFormed)

include hs

/-- The search for the smallest prefix length starts with room for all segments. -/
theorem minBlockOf?_eq : minBlockOf? s = some s.minBlockPrefixLen := by
  have hlen : s.version.segmentBits * s.bounds.reverse.length = s.bitCount := by
    rw [List.length_reverse, hs.length_bounds]
    exact s.version.bitCount_eq.symm
  exact minBlockLoop?_eq (segmentBits_le _) s.version.segmentBits_pos (Nat.le_of_eq hlen)
    (bitCount_le s.version)

/-- The only prefix length at which a section can be one network is the smallest one. -/
theorem singleBlockPrefixLen?_eq : singleBlockPrefixLen? s = some s.singleBlockPrefixLen? := by
  rw [singleBlockPrefixLen?, bind_eq (minBlockOf?_eq hs), bind_eq (isSingleNetworkAt?_eq hs _),
    Section.singleBlockPrefixLen?]
  rfl

end Blocks

/-! ## Other prefix lengths -/

/-- The same addresses with the given prefix length. -/
def setPrefixLen? (s : Section) (p : Nat) : Option (Except AddressError Section) :=
  after? (checkPrefixLen s.version p) fun _ => do return .ok (← withPrefix? s (some p))

/-- The section with the prefix length at which it is exactly one network. -/
def withSingleBlockPrefix? (s : Section) : Option (Option Section) := do
  match ← singleBlockPrefixLen? s with
  | some p => return some (← withPrefix? s (some p))
  | none => return none

/-- The section with the smallest prefix length at which it is made of whole networks. -/
def withMinBlockPrefix? (s : Section) : Option Section := do
  withPrefix? s (some (← minBlockOf? s))

section PrefixLengths

variable (hs : s.WellFormed)

include hs

/-- A prefix length past the address is an error, and any other one can be set. -/
theorem setPrefixLen?_eq (p : Nat) : setPrefixLen? s p = some (s.setPrefixLen p) := by
  rw [setPrefixLen?, Section.setPrefixLen]
  apply after?_eq
  intro _ hcheck
  have hp : p ≤ s.bitCount := checkPrefixLen_eq_ok_iff.1 hcheck
  rw [bind_eq (withPrefix?_eq hs (by simpa using hp))]
  rfl

/-- A prefix length at which the section is one network is within the address. -/
theorem withSingleBlockPrefix?_eq : withSingleBlockPrefix? s = some s.withSingleBlockPrefix? := by
  rw [withSingleBlockPrefix?, bind_eq (singleBlockPrefixLen?_eq hs), Section.withSingleBlockPrefix?]
  rcases hp : s.singleBlockPrefixLen? with - | p
  · rfl
  · have hle : p ≤ s.bitCount := ((singleBlockPrefixLen?_eq_some_iff hs).1 hp).prefixLen_le
    show (withPrefix? s (some p) >>= _) = _
    rw [bind_eq (withPrefix?_eq hs (by simpa using hle))]
    rfl

/-- The smallest prefix length of whole networks is within the address. -/
theorem withMinBlockPrefix?_eq : withMinBlockPrefix? s = some s.withMinBlockPrefix := by
  have hle : s.minBlockPrefixLen ≤ s.bitCount := Nat.sub_le _ _
  rw [withMinBlockPrefix?, bind_eq (minBlockOf?_eq hs), withPrefix?_eq hs (by simpa using hle)]
  rfl

end PrefixLengths

end Machine

end IpSpace
