/-!
# Bits and digits of address words

An address is a word of at most 128 bits, written as digits of a fixed width, most significant
first. This module holds the arithmetic on such words that the rest of the library shares.

* `Bits.trailingZeros`, `Bits.trailingOnes` measure the low end of a number.
* `Bits.blockStart`, `Bits.blockEnd` are the ends of the aligned block of `2 ^ h` numbers that holds
  a number: its low `h` bits cleared, and its low `h` bits set.
* `Bits.reverse` and `Bits.swapBytes` permute the bits of a number of known width.
* `Digits.split` and `Digits.join` pass between a word and its digits.
-/

namespace IpSpace

/-- A power of numbers is `Nat.pow`, whatever other notions of power are in scope. -/
@[default_instance 20000]
instance (priority := high) natPow : Pow Nat Nat :=
  instPowNat

/-! ## Bits of a number -/

namespace Bits

/-- The number of zero bits at the low end of `value`, counting no more than `bound` of them. -/
def trailingZeros : (bound : Nat) → (value : Nat) → Nat
  | 0, _ => 0
  | bound + 1, value => if value % 2 = 0 then trailingZeros bound (value / 2) + 1 else 0

/-- The number of one bits at the low end of `value`, counting no more than `bound` of them: adding
one turns exactly these into zeros. -/
def trailingOnes (bound value : Nat) : Nat :=
  trailingZeros bound (value + 1)

/-- The first number of the aligned block of `2 ^ h` numbers that holds `value`. -/
def blockStart (h value : Nat) : Nat :=
  value / 2 ^ h * 2 ^ h

/-- The last number of the aligned block of `2 ^ h` numbers that holds `value`. -/
def blockEnd (h value : Nat) : Nat :=
  value / 2 ^ h * 2 ^ h + (2 ^ h - 1)

/-- The low `width` bits of `value` in reverse order. -/
def reverse : (width : Nat) → (value : Nat) → Nat
  | 0, _ => 0
  | width + 1, value => value % 2 * 2 ^ width + reverse width (value / 2)

/-- The two bytes of a 16-bit `value`, exchanged. -/
def swapBytes (value : Nat) : Nat :=
  value % 256 * 256 + value / 256

end Bits

/-! ## Digits of a word -/

namespace Digits

/-- The low `count` digits of `value`, each `width` bits wide, most significant first. -/
def split (width : Nat) : (count : Nat) → (value : Nat) → List Nat
  | 0, _ => []
  | count + 1, value => value / 2 ^ (width * count) % 2 ^ width :: split width count value

/-- The 128-bit word with the given digits, most significant first. Bits pushed past the top fall
off, and a digit wider than `width` overlaps the digit before it. -/
def join (width : Nat) (digits : List Nat) : Nat :=
  digits.foldl (fun word digit => (word <<< width ||| digit) % 2 ^ 128) 0

/-- Splitting yields as many digits as asked for. -/
@[simp]
theorem length_split (width count value : Nat) : (split width count value).length = count := by
  induction count with
  | zero => rfl
  | succ count ih => simp [split, ih]

end Digits

end IpSpace
