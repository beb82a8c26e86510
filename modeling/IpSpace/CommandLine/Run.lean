import IpSpace.CommandLine.Arguments
import IpSpace.RangeList.Basic
import IpSpace.Report.Record
import IpSpace.Report.Table

/-!
# Running the command

A run reads the range list, computes what the mode asks for and reports it as a table or as JSON.
The list is read first in every mode, so an error in it comes before all others.
-/

namespace IpSpace

/-- Why a run has no report. -/
inductive RunError where
  | list (e : ListError)
  | missingContainer
  deriving DecidableEq, Repr

/-- The error in words. -/
def RunError.message : RunError → String
  | list e => e.message
  | missingContainer => "gaps needs a containing range, pass --within"

namespace Arguments

/-- The coalesced ranges, each split by `split`. -/
def splitRanges (ranges : List AddressRange) (split : AddressRange → List Section) :
    List Section :=
  (AddressRange.coalesce ranges).flatMap split

/-- The report on blocks. -/
def reportBlocks (json : Bool) (blocks : List Section) : List (List Char) :=
  if json then [Report.blockDocument (blocks.map Address.ofSection)] else Report.blockTable blocks

/-- The containing range that was asked for. -/
def container (arguments : Arguments) : Except RunError AddressRange :=
  match arguments.within with
  | none => .error .missingContainer
  | some text => (RangeList.single text.toList).mapError .list

/-- The report on a list of ranges, by lines. -/
def report (arguments : Arguments) (highlight : Bool) (ranges : List AddressRange) :
    Except RunError (List (List Char)) := do
  match arguments.mode with
  | .merge =>
    let merged := AddressRange.coalesce ranges
    return if arguments.json then [Report.rangeDocument merged] else Report.rangeTable merged
  | .blocks => return reportBlocks arguments.json (splitRanges ranges AddressRange.toBlocks)
  | .runs => return reportBlocks arguments.json (splitRanges ranges AddressRange.toRuns)
  | .gaps =>
    let container ← arguments.container
    let gaps := freeSpace container ranges
    return if arguments.json then [Report.gapDocument gaps]
      else Report.gapTable highlight container gaps
  | .conflicts =>
    let conflicts := Conflict.all ranges
    return if arguments.json then [Report.conflictDocument conflicts]
      else Report.conflictTable conflicts

/-- What the command prints for a range list, given in UTF-8. -/
def run (arguments : Arguments) (highlight : Bool) (list : ByteArray) : Except RunError String := do
  let ranges ← (RangeList.ofBytes list).mapError .list
  let lines ← arguments.report highlight ranges
  return String.ofList (lines.flatMap fun line => line ++ ['\n'])

end Arguments

end IpSpace
