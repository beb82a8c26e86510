import IpSpace.Proofs.Machine.Masks

/-!
# Segments on the machine

A segment is asked about a prefix length of its own. The machine looks up the mask for it and works
with the bits of the two ends, the library divides by the power of two that belongs to the host
bits. Where the prefix length is `bits - h` and `h` is at most `bits`, the look-up succeeds
(`atHostMask?_eq`) and both say the same.

The part of the prefix length of an address that falls into a segment is never past the width of the
segment (`segmentPrefixLen?_eq`), and this is all that the look-ups need. Reversed bits and bytes
are assembled in words of 32 bits and moved into place (`reverseBits?_eq`, `reverseBytes?_eq`).
-/

namespace IpSpace

open AddressError

namespace Machine

variable {version : Version} {bits h p index x : Nat} {b : Bounds} {g : Segment}

/-! ## Values -/

/-- A segment of values that are asserted to be in order and within the width. -/
def fromParts? (bits : Nat) (b : Bounds) (prefixLen : Option Nat) : Option Segment := do
  assert? (b.lower ≤ b.upper ∧ b.upper ≤ (← maxSegment? bits))
  return ⟨bits, b, prefixLen⟩

/-- Whether every value is there. -/
def isFull? (bits : Nat) (b : Bounds) : Option Bool := do
  return b.lower == 0 && b.upper == (← maxSegment? bits)

/-- Number of values. -/
def boundsCount? (b : Bounds) : Option Nat := do
  add? 32 (← sub? b.upper b.lower) 1

/-- The assertions about a segment hold of ends in order within its width. -/
theorem fromParts?_eq (hbits : bits < 32) (hb : b.Within bits) (prefixLen : Option Nat) :
    fromParts? bits b prefixLen = some ⟨bits, b, prefixLen⟩ := by
  rw [fromParts?, bind_eq (maxSegment?_eq hbits),
    bind_eq (assert?_eq ⟨hb.lower_le_upper, Nat.le_sub_one_of_lt hb.upper_lt⟩)]
  rfl

theorem isFull?_eq (hbits : bits < 32) (b : Bounds) : isFull? bits b = some (b.isFull bits) := by
  rw [isFull?, bind_eq (maxSegment?_eq hbits)]
  refine congrArg some ?_
  rw [Bool.eq_iff_iff, Bounds.isFull, beq_iff_eq, Bool.and_eq_true, beq_iff_eq, beq_iff_eq]
  rcases b with ⟨lower, upper⟩
  simp only [Bounds.full, Bounds.mk.injEq]

/-- The number of values of a segment fits into the word. -/
theorem boundsCount?_eq (hbits : bits < 32) (hb : b.Within bits) :
    boundsCount? b = some b.count := by
  have hpow : 2 ^ bits < 2 ^ 32 := Nat.pow_lt_pow_right (by decide) hbits
  have hupper := hb.upper_lt
  rw [boundsCount?, bind_eq (sub?_eq hb.lower_le_upper), add?_eq (by omega)]
  rfl

/-! ## Network and host -/

/-- A test of the two ends with the host mask of a prefix length. -/
def atHostMask? (test : Bounds → Nat → Bool) (bits : Nat) (b : Bounds) (p : Nat) : Option Bool := do
  return test b (← segmentHostMask? bits p)

/-- Whether the segment begins and ends with a whole network. -/
def isBlock? : Nat → Bounds → Nat → Option Bool :=
  atHostMask? fun b host => b.lower &&& host == 0 && b.upper &&& host == host

/-- Whether both ends have a host of zeros. -/
def isZeroHost? : Nat → Bounds → Nat → Option Bool :=
  atHostMask? fun b host => b.lower &&& host == 0 && b.upper &&& host == 0

/-- Whether both ends have a host of ones. -/
def isMaxHost? : Nat → Bounds → Nat → Option Bool :=
  atHostMask? fun b host => b.lower &&& host == host && b.upper &&& host == host

/-- Whether some value has a host of ones. -/
def includesMaxHost? : Nat → Bounds → Nat → Option Bool :=
  atHostMask? fun b host => b.lower ||| host ≤ b.upper

/-- Whether all values have the same network. -/
def isSingleNetwork? (bits : Nat) (b : Bounds) (p : Nat) : Option Bool := do
  let hostBits ← sub? bits p
  return (← shiftRight? 32 b.lower hostBits) == (← shiftRight? 32 b.upper hostBits)

/-- Whether some value has a host of zeros. -/
def includesZeroHost? (bits : Nat) (b : Bounds) (p : Nat) : Option Bool := do
  let host ← segmentHostMask? bits p
  if b.lower &&& host = 0 then return true
  return (← add? 64 (b.lower ||| host) 1) ≤ b.upper

/-- The smallest prefix length at which the segment is made of whole networks. -/
def minBlockPrefixLen? (bits : Nat) (b : Bounds) : Option Nat := do
  let trailing := min (min (Bits.trailingZeros 32 b.lower) (Bits.trailingOnes 32 b.upper)) bits
  sub? bits (truncate 8 trailing)

section Tests

variable (hbits : bits = 8 ∨ bits = 16) (hb : b.Within bits) (hh : h ≤ bits)

include hbits hh

/-- A test at a boundary with at most the segment behind it finds the host mask in the table. -/
theorem atHostMask?_eq (test : Bounds → Nat → Bool) :
    atHostMask? test bits b (bits - h) = some (test b (2 ^ h - 1)) := by
  rw [atHostMask?, bind_eq (segmentHostMask?_eq hbits hh)]
  rfl

/-- Under the host mask in the table, a block begins with zeros and ends with ones. -/
theorem isBlock?_eq : isBlock? bits b (bits - h) = some (b.isBlock h) := by
  rw [isBlock?, atHostMask?_eq hbits hh, Nat.and_two_pow_sub_one_eq_mod,
    Nat.and_two_pow_sub_one_eq_mod]
  rfl

/-- Both ends are tested for zeros under the host mask in the table. -/
theorem isZeroHost?_eq : isZeroHost? bits b (bits - h) = some (b.isZeroHost h) := by
  rw [isZeroHost?, atHostMask?_eq hbits hh, Nat.and_two_pow_sub_one_eq_mod,
    Nat.and_two_pow_sub_one_eq_mod]
  rfl

theorem isMaxHost?_eq : isMaxHost? bits b (bits - h) = some (b.isMaxHost h) := by
  rw [isMaxHost?, atHostMask?_eq hbits hh, Nat.and_two_pow_sub_one_eq_mod,
    Nat.and_two_pow_sub_one_eq_mod]
  rfl

/-- The first value with a host of ones is found by setting the bits of the host mask. -/
theorem includesMaxHost?_eq : includesMaxHost? bits b (bits - h) = some (b.includesMaxHost h) := by
  rw [includesMaxHost?, atHostMask?_eq hbits hh, Bits.or_hostMask]
  rfl

/-- Shifting the host bits out of both ends leaves their networks. -/
theorem isSingleNetwork?_eq : isSingleNetwork? bits b (bits - h) = some (b.isSingleNetwork h) := by
  rw [isSingleNetwork?, bind_eq (sub?_eq (Nat.sub_le _ _)), Nat.sub_sub_self hh,
    bind_eq (shiftRight?_eq (by omega)), bind_eq (shiftRight?_eq (by omega))]
  rfl

include hb

/-- The first value with a host of zeros behind the lower end stays within the word. -/
theorem includesZeroHost?_eq :
    includesZeroHost? bits b (bits - h) = some (b.includesZeroHost h) := by
  have hlower : b.lower < 2 ^ bits := Nat.lt_of_le_of_lt hb.lower_le_upper hb.upper_lt
  have hend := Bits.blockEnd_lt hlower hh
  have hpow : 2 ^ bits < 2 ^ 64 := Nat.pow_lt_pow_right (by decide) (by omega)
  rw [includesZeroHost?, bind_eq (segmentHostMask?_eq hbits hh), Nat.and_two_pow_sub_one_eq_mod,
    Bits.or_hostMask, Bounds.includesZeroHost]
  by_cases hzero : b.lower % 2 ^ h = 0
  · rw [if_pos hzero, hzero]
    rfl
  · rw [if_neg hzero, bind_eq (add?_eq (by omega)), beq_eq_false_iff_ne.2 hzero, Bool.false_or]
    rfl

end Tests

/-- Counting the zeros of a word, but no more than some, is counting them in a shorter one. -/
theorem min_trailingZeros {bound : Nat} (hbits : bits ≤ bound) (x : Nat) :
    min (Bits.trailingZeros bound x) bits = Bits.trailingZeros bits x := by
  refine eq_of_forall_le_iff fun k => ?_
  rw [Nat.le_min, Bits.le_trailingZeros_iff, Bits.le_trailingZeros_iff]
  omega

/-- The zeros and ones at the end of a segment are counted in a word that is no narrower. -/
theorem minBlockPrefixLen?_eq (hbits : bits ≤ 16) (b : Bounds) :
    minBlockPrefixLen? bits b = some (bits - b.blockBits bits) := by
  have hfree : min (min (Bits.trailingZeros 32 b.lower) (Bits.trailingOnes 32 b.upper)) bits
      = b.blockBits bits := by
    have hzeros := min_trailingZeros (show bits ≤ 32 by omega) b.lower
    have hones := min_trailingZeros (show bits ≤ 32 by omega) (b.upper + 1)
    rw [Bounds.blockBits, Bits.trailingOnes, Bits.trailingOnes]
    omega
  have hle : b.blockBits bits ≤ bits := by
    rw [← hfree]
    exact Nat.min_le_right _ _
  rw [minBlockPrefixLen?, hfree, truncate_eq (by omega), sub?_eq hle]

/-! ## The prefix length of a segment -/

/-- The part of a prefix length that falls into the segment at `index`. -/
def segmentPrefixLen? (bits : Nat) (prefixLen : Option Nat) (index : Nat) : Option (Option Nat) :=
  match prefixLen with
  | none => some none
  | some p => do
    let start ← mul? 32 (truncate 32 index) bits
    if (← add? 32 start bits) ≤ p then return none
    if p ≤ start then return some 0
    return some (truncate 8 (← sub? p start))

/-- A segment without host bits has no prefix length of its own, and in any other the prefix length
leaves the host bits there are. -/
theorem segmentPrefixLen?_eq (hindex : index < 2 ^ 16) (p : Nat) :
    segmentPrefixLen? version.segmentBits (some p) index
      = some (if version.hostBits p index = 0 then none
          else some (version.segmentBits - version.hostBits p index)) := by
  have hbits := version.segmentBits_pos
  have hle := segmentBits_le version
  have hstart : index * version.segmentBits ≤ index * 16 := Nat.mul_le_mul_left _ hle
  rw [segmentPrefixLen?, truncate_eq (by omega), bind_eq (mul?_eq (by omega)),
    bind_eq (add?_eq (by omega)), Version.hostBits]
  by_cases hwhole : index * version.segmentBits + version.segmentBits ≤ p
  · have hnone : version.segmentBits - (p - index * version.segmentBits) = 0 := by omega
    rw [if_pos hwhole, if_pos hnone]
    rfl
  have hsome : version.segmentBits - (p - index * version.segmentBits) ≠ 0 := by omega
  rw [if_neg hwhole, if_neg hsome]
  by_cases hzero : p ≤ index * version.segmentBits
  · rw [if_pos hzero, Nat.sub_eq_zero_of_le hzero, Nat.sub_zero, Nat.sub_self]
    rfl
  · rw [if_neg hzero, bind_eq (sub?_eq (by omega)), truncate_eq (by omega),
      Nat.sub_sub_self (by omega)]
    rfl

/-! ## Reversal -/

/-- The segment with its bits in reverse order. -/
def reverseBits? (g : Segment) : Option (Except AddressError Segment) := do
  if g.bounds.isMultiple && !(← isFull? g.width g.bounds) then return .error (.bitsOfRange g.bounds)
  let shift ← sub? 32 g.width
  let lower ← shiftRight? 32 (Bits.reverse 32 g.bounds.lower) shift
  let upper ← shiftRight? 32 (Bits.reverse 32 g.bounds.upper) shift
  return .ok (← fromParts? g.width ⟨min lower upper, max lower upper⟩ none)

/-- The two bytes of a word, exchanged. -/
def swapBytes? (x : Nat) : Option Nat := do
  return (← shiftLeft? 32 (x &&& 0xff) 8) ||| (← shiftRight? 32 x 8)

/-- The segment with its bytes in reverse order. -/
def reverseBytes? (g : Segment) : Option (Except AddressError Segment) := do
  if g.width = 8 then return .ok { g with prefixLen := none }
  if g.bounds.isMultiple && !(← isFull? g.width g.bounds) then
    return .error (.bytesOfRange g.bounds)
  let lower ← swapBytes? g.bounds.lower
  let upper ← swapBytes? g.bounds.upper
  return .ok (← fromParts? g.width ⟨min lower upper, max lower upper⟩ none)

/-- A word with room above its bits is reversed into the high end of the room. -/
theorem reverse_add {width : Nat} (room : Nat) (hx : x < 2 ^ width) :
    Bits.reverse (width + room) x = Bits.reverse width x * 2 ^ room := by
  induction width generalizing x with
  | zero =>
      obtain rfl : x = 0 := by simpa using hx
      rw [Bits.reverse, Nat.zero_mul, Nat.zero_add]
      induction room with
      | zero => rfl
      | succ room ih => rw [Bits.reverse, Nat.zero_mod, Nat.zero_mul, Nat.zero_div, ih]
  | succ width ih =>
      have hhalf : x / 2 < 2 ^ width := by
        rw [Nat.pow_succ] at hx
        omega
      rw [Nat.add_right_comm, Bits.reverse, Bits.reverse, ih hhalf, Nat.add_mul, Nat.mul_assoc,
        ← Nat.pow_add]

/-- **A segment is reversed by reversing a wider word** and dropping the bits that come behind. -/
theorem shiftRight?_reverse (hpos : 0 < bits) (hbits : bits ≤ 32) (hx : x < 2 ^ bits) :
    shiftRight? 32 (Bits.reverse 32 x) (32 - bits) = some (Bits.reverse bits x) := by
  have hroom := reverse_add (32 - bits) hx
  rw [Nat.add_sub_cancel' hbits] at hroom
  rw [shiftRight?_eq (by omega), hroom, Nat.mul_div_cancel _ (Nat.two_pow_pos _)]

/-- The two bytes of a segment change places within the word. -/
theorem swapBytes?_eq (hx : x < 2 ^ 16) : swapBytes? x = some (Bits.swapBytes x) := by
  have hlow : x % 2 ^ 8 < 2 ^ 8 := Nat.mod_lt _ (by decide)
  have hhigh : x / 2 ^ 8 < 2 ^ 8 := by omega
  have hmask : x &&& 0xff = x % 2 ^ 8 := Nat.and_two_pow_sub_one_eq_mod x 8
  rw [swapBytes?, hmask, bind_eq (shiftLeft?_eq_mul (by decide) (by omega)),
    bind_eq (shiftRight?_eq (by decide)), ← Nat.shiftLeft_eq, ← Nat.shiftLeft_add_eq_or_of_lt hhigh,
    Nat.shiftLeft_eq]
  rfl

section Reversal

variable (hg : g.WellFormed)

include hg

/-- A segment has the width of one byte or of two. -/
theorem width_eq : g.width = 8 ∨ g.width = 16 := by
  have hwidth := hg.isWidth
  rw [Segment.isWidth, Bool.or_eq_true, beq_iff_eq, beq_iff_eq] at hwidth
  exact hwidth

/-- **Reversing the bits of a segment never stops**: the reversed ends are again of its width. -/
theorem reverseBits?_eq : reverseBits? g = some g.reverseBits := by
  have hwidth := width_eq hg
  have hlower : g.bounds.lower < 2 ^ g.width :=
    Nat.lt_of_le_of_lt hg.within.lower_le_upper hg.within.upper_lt
  rw [reverseBits?, bind_eq (isFull?_eq (by omega) _), Segment.reverseBits, Bounds.permute?]
  by_cases hfails : (g.bounds.isMultiple && !g.bounds.isFull g.width) = true
  · rw [if_pos hfails, if_pos hfails]
    rfl
  rw [if_neg hfails, if_neg hfails]
  -- The ends may have changed their order, and the lower one is taken first.
  have hwithin : Bounds.Within g.width ⟨min (Bits.reverse g.width g.bounds.lower)
      (Bits.reverse g.width g.bounds.upper), max (Bits.reverse g.width g.bounds.lower)
      (Bits.reverse g.width g.bounds.upper)⟩ := by
    apply Segment.within_of_permute? (fun x _ => Segment.reverse_lt g.width x) hg.within
    rw [Bounds.permute?, if_neg hfails]
  rw [bind_eq (sub?_eq (by omega)), bind_eq (shiftRight?_reverse (by omega) (by omega) hlower),
    bind_eq (shiftRight?_reverse (by omega) (by omega) hg.within.upper_lt),
    bind_eq (fromParts?_eq (by omega) hwithin none)]
  rfl

/-- Reversing the bytes of a segment never stops: only those of two bytes have any that change
places. -/
theorem reverseBytes?_eq : reverseBytes? g = some g.reverseBytes := by
  rw [reverseBytes?, Segment.reverseBytes]
  by_cases hbyte : g.width = 8
  · rw [if_pos hbyte, if_pos hbyte]
    rfl
  have hwidth : g.width = 16 := (width_eq hg).resolve_left hbyte
  have hupper := hg.within.upper_lt
  have hlower : g.bounds.lower < 2 ^ g.width := Nat.lt_of_le_of_lt hg.within.lower_le_upper hupper
  rw [if_neg hbyte, if_neg hbyte, bind_eq (isFull?_eq (by omega) _), Bounds.permute?]
  by_cases hfails : (g.bounds.isMultiple && !g.bounds.isFull g.width) = true
  · rw [if_pos hfails, if_pos hfails]
    rfl
  rw [if_neg hfails, if_neg hfails]
  have hwithin : Bounds.Within g.width ⟨min (Bits.swapBytes g.bounds.lower)
      (Bits.swapBytes g.bounds.upper), max (Bits.swapBytes g.bounds.lower)
      (Bits.swapBytes g.bounds.upper)⟩ := by
    apply Segment.within_of_permute? (fun x hx => ?_) hg.within
    · rw [Bounds.permute?, if_neg hfails]
    · rw [hwidth] at hx ⊢
      exact Segment.swapBytes_lt hx
  rw [hwidth] at hlower hupper
  rw [bind_eq (swapBytes?_eq hlower), bind_eq (swapBytes?_eq hupper),
    bind_eq (fromParts?_eq (by omega) hwithin none)]
  rfl

end Reversal

end Machine

end IpSpace
