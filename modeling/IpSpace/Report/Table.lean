import IpSpace.Conflict
import IpSpace.FreeSpace

/-!
# Tables

The line-oriented reports: a heading, then one row per item. A row is a list of quoted fields with
commas between; every field is filled with blanks on the left up to the width of its column, and a
field that is wider than its column stays whole.
-/

namespace IpSpace.Report

/-- A quoted field, filled up to `width` characters. -/
def field (value : List Char) (width : Nat) : List Char :=
  let quoted := '"' :: value ++ ['"']
  List.replicate (width - quoted.length) ' ' ++ quoted

/-- The greatest width of a column. -/
def widthLimit : Nat := 65535

/-- A quoted field for a column of any width, which fails for a column wider than `widthLimit`. -/
def field? (value : List Char) (width : Nat) : Option (List Char) :=
  if width ≤ widthLimit then some (field value width) else none

/-- A row of fields with their widths. -/
def row (fields : List (List Char × Nat)) : List Char :=
  List.intercalate [','] (fields.map fun (value, width) => field value width)

/-! ## Ranges and blocks -/

/-- The row of a range: number, both ends, number of addresses. -/
def rangeRow (index : Nat) (r : AddressRange) : List Char :=
  row [(Text.decimal index, 6), (r.first.chars, 22), (r.last.chars, 22),
    (Text.decimal r.count, 14)]

/-- The table of ranges. -/
def rangeTable (ranges : List AddressRange) : List (List Char) :=
  " \"cnt\",               \"lower\",               \"upper\",     \"addresses\"".toList
    :: ranges.mapIdx rangeRow

/-- The row of a block: number, text, number of addresses. -/
def blockRow (index : Nat) (block : Section) : List Char :=
  row [(Text.decimal index, 6), (block.chars, 26), (Text.decimal block.count, 14)]

/-- The table of blocks. -/
def blockTable (blocks : List Section) : List (List Char) :=
  " \"cnt\",                   \"block\",     \"addresses\"".toList :: blocks.mapIdx blockRow

/-! ## Gaps -/

/-- The row of a block of a gap: number, name of the gap, text, number of addresses. -/
def gapRow (index : Nat) (item : Nat × Section) : List Char :=
  row [(Text.decimal index, 6), ("gap_".toList ++ Text.decimal item.1, 8), (item.2.chars, 26),
    (Text.decimal item.2.count, 14)]

/-- How a note is marked: plainly, or with a red background on a terminal that shows colours. -/
def noteMark (highlight : Bool) : String :=
  if highlight then "\x1b[41mNOTE\x1b[0m" else "NOTE"

/-- The table of gaps in a container, with one row per block. A container without gaps gets a note
instead. -/
def gapTable (highlight : Bool) (container : AddressRange) (gaps : List Gap) : List (List Char) :=
  let items := gaps.zipIdx.flatMap fun (gap, number) => gap.blocks.map fun block => (number, block)
  let rows :=
    if gaps.isEmpty then
      [("#" ++ noteMark highlight ++ "# no free space within ").toList ++ container.chars]
    else items.mapIdx gapRow
  " \"cnt\",     \"gap\",                   \"block\",     \"addresses\"".toList :: rows

/-! ## Conflicts -/

/-- The row of a conflict: both positions, shared range, number of shared addresses. -/
def conflictRow (c : Conflict) : List Char :=
  row [(Text.decimal c.firstIndex, 8), (Text.decimal c.secondIndex, 8), (c.shared.chars, 46),
    (Text.decimal c.shared.count, 14)]

/-- The table of conflicts. -/
def conflictTable (conflicts : List Conflict) : List (List Char) :=
  " \"first\", \"second\",                                    \"overlap\",     \"addresses\"".toList
    :: conflicts.map conflictRow

end IpSpace.Report
