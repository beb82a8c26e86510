/-!
# Cells that are written once

A cell holds nothing at first. The first value that is computed for it stays; later computations are
not run. This serves values that are derived from something that does not change.
-/

namespace IpSpace

/-- A cell that is empty or holds the value written first. -/
structure WriteOnce (α : Type) where
  value? : Option α := none
  deriving Repr

namespace WriteOnce

/-- The value of the cell, whether it was computed just now, and the cell that holds it. -/
def getOrCompute {α : Type} (cell : WriteOnce α) (compute : Unit → α) :
    α × Bool × WriteOnce α :=
  match cell.value? with
  | some value => (value, false, cell)
  | none =>
    let value := compute ()
    (value, true, ⟨some value⟩)

/-- The cell, for diagnostics, with its value shown by `text`. -/
def debugText {α : Type} (cell : WriteOnce α) (text : α → String) : String :=
  match cell.value? with
  | some value => "MemoCell(" ++ text value ++ ")"
  | none => "MemoCell(<pending>)"

end WriteOnce

end IpSpace
