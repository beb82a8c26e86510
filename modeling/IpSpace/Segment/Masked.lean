import IpSpace.Segment.Basic

/-!
# Masking a range of values

Applying a bitwise operation with a fixed mask to every value of a range gives a set of values that
need not be a range again. `maskRange` (and) and `orRange` (or) find the bounds of that set and tell
whether it is a range.

The bits above the highest bit in which the two ends differ are the same for every value. Of the
bits from there down, the mask must keep an unbroken run that reaches the lowest bit, or the result
has holes. If the run starts at the differing bit, all values in between occur. If it starts lower,
the result is a range only when the values run through every remainder of that width.
-/

namespace IpSpace

/-- The outcome of a masked range: its bounds, and whether every value between them occurs. When
not, the bounds are just the two ends of the range, masked. -/
structure Masked where
  lower : Nat
  upper : Nat
  contiguous : Bool
  deriving DecidableEq, Repr

namespace Masked

/-- A result in which every value from `lower` to `upper` occurs. -/
def exact (lower upper : Nat) : Masked :=
  ⟨lower, upper, true⟩

/-- The bounds alone. -/
def bounds (m : Masked) : Bounds :=
  ⟨m.lower, m.upper⟩

end Masked

/-- The values `x &&& mask` for `x` from `lower` to `upper`, where `max` has all bits set. -/
def maskRange (lower upper mask max : Nat) : Masked :=
  let ends := Masked.exact (lower &&& mask) (upper &&& mask)
  let broken := { ends with contiguous := false }
  if lower = upper ∨ mask = 0 ∨ mask = max then ends
  else
    let differing := (lower ^^^ upper).log2
    let kept := mask % 2 ^ (differing + 1)
    if kept = 0 then Masked.exact (lower &&& mask) (lower &&& mask)
    else
      let top := kept.log2
      if kept + 1 ≠ 2 ^ (top + 1) then broken
      else if top = differing then ends
      else
        let modulus := 2 ^ (top + 1)
        let half := 2 ^ differing
        let low := lower % 2 ^ (differing + 1)
        let high := upper % 2 ^ (differing + 1)
        if modulus ≤ half - low ∨ modulus ≤ high - half + 1 ∨ low % modulus ≤ high - half + 1 then
          let base := (lower &&& mask) / modulus * modulus
          Masked.exact base (base + (modulus - 1))
        else broken

/-- The values `x ||| mask` for `x` from `lower` to `upper`. Complementing every bit turns "or" into
"and" and exchanges the two ends. -/
def orRange (lower upper mask max : Nat) : Masked :=
  let complement := maskRange (max ^^^ upper) (max ^^^ lower) (max ^^^ mask) max
  if complement.contiguous then
    Masked.exact (max ^^^ complement.upper) (max ^^^ complement.lower)
  else ⟨lower ||| mask, upper ||| mask, false⟩

end IpSpace
