import IpSpace.Conflict
import IpSpace.FreeSpace
import IpSpace.Key
import IpSpace.Report.Layout

/-!
# Records

The JSON reports. Every record of a range or block carries its key, from which it can be rebuilt;
the number of addresses is a string, since it can be too large for readers of JSON numbers.
-/

namespace IpSpace.Report

/-! ## Keys -/

/-- A list of numbers. -/
def numbers (ns : List Nat) : Layout :=
  .array (ns.map .number)

/-- The key of a section. -/
def addressKey (key : AddressKey) : Layout :=
  .object [
    ("version", .string key.version.tag.toList),
    ("segments", .array (key.segments.map fun (lower, upper) => numbers [lower, upper])),
    ("prefix_len", match key.prefixLen with
      | some p => .number p
      | none => .null)]

/-- The key of a range. -/
def rangeKey (key : RangeKey) : Layout :=
  .object [
    ("version", .string key.version.tag.toList),
    ("lower", numbers key.lower),
    ("upper", numbers key.upper)]

/-! ## Records -/

/-- The record of a range. -/
def rangeRecord (r : AddressRange) : Layout :=
  .object [
    ("range", .string r.chars),
    ("count", .string (Text.decimal r.count)),
    ("key", rangeKey r.toKey)]

/-- The record of a block. -/
def blockRecord (block : Address) : Layout :=
  .object [
    ("block", .string block.chars),
    ("count", .string (Text.decimal block.body.count)),
    ("key", addressKey block.body.toKey)]

/-- The record of a gap. -/
def gapRecord (gap : Gap) : Layout :=
  .object [
    ("gap", rangeRecord gap.range),
    ("blocks", .array (gap.blocks.map fun block => blockRecord (Address.ofSection block)))]

/-- The record of a conflict. -/
def conflictRecord (c : Conflict) : Layout :=
  .object [
    ("first_index", .number c.firstIndex),
    ("second_index", .number c.secondIndex),
    ("overlap", rangeRecord c.shared)]

/-! ## Documents -/

/-- The document of a list of ranges. -/
def rangeDocument (ranges : List AddressRange) : List Char :=
  (Layout.array (ranges.map rangeRecord)).chars

/-- The document of a list of blocks. -/
def blockDocument (blocks : List Address) : List Char :=
  (Layout.array (blocks.map blockRecord)).chars

/-- The document of a list of gaps. -/
def gapDocument (gaps : List Gap) : List Char :=
  (Layout.array (gaps.map gapRecord)).chars

/-- The document of a list of conflicts. -/
def conflictDocument (conflicts : List Conflict) : List Char :=
  (Layout.array (conflicts.map conflictRecord)).chars

end IpSpace.Report
