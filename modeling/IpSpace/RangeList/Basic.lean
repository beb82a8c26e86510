import IpSpace.RangeList.Entry

/-!
# Range lists

A range list is a text with one entry a line. A number sign begins a comment that runs to the end of
its line; blanks around an entry are ignored, and a line may hold no entry at all. The first line
that is wrong makes the whole list wrong, and the error tells its number.
-/

namespace IpSpace

/-- What can be wrong with a range list. -/
inductive ListError where
  /-- A line holds something that is no entry. -/
  | malformed (line : Nat) (entry : List Char)
  /-- An entry is well written but stands for no range. -/
  | address (line : Nat) (cause : AddressError)
  /-- The bytes are no text. -/
  | unreadable
  deriving DecidableEq, Repr

/-- The error in words. -/
def ListError.message : ListError → String
  | malformed line entry => s!"line {line}: cannot parse " ++ String.ofList (Text.quoted entry)
  | address line cause => s!"line {line}: " ++ cause.message
  | unreadable => "read failed: stream did not contain valid UTF-8"

namespace RangeList

/-- The lines of a text. A line feed ends a line; a carriage return in front of it is a blank, and
is trimmed with the others. -/
def lines : List Char → List (List Char)
  | [] => []
  | c :: cs =>
    if c = '\n' then [] :: lines cs
    else
      match lines cs with
      | [] => [[c]]
      | l :: ls => (c :: l) :: ls

/-- The entry part of a line: what stands in front of a comment, without blanks at either end. -/
def entryPart (text : List Char) : List Char :=
  Text.trim (text.takeWhile (· != '#'))

/-- The range on line number `line`, if there is an entry on it. -/
def ofLine (line : Nat) (text : List Char) : Except ListError (Option AddressRange) :=
  let entry := entryPart text
  if entry.isEmpty then .ok none
  else
    match Entry.ofChars? entry with
    | none => .error (.malformed line entry)
    | some e =>
      match e.range with
      | .ok r => .ok (some r)
      | .error cause => .error (.address line cause)

/-- The ranges on the given lines, the first of which has number `line`. -/
def ofLines (line : Nat) : List (List Char) → Except ListError (List AddressRange)
  | [] => .ok []
  | text :: rest => do
    let found ← ofLine line text
    let ranges ← ofLines (line + 1) rest
    return found.toList ++ ranges

/-- The ranges of a text. -/
def ofChars (text : List Char) : Except ListError (List AddressRange) :=
  ofLines 1 (lines text)

/-- The ranges of a text in UTF-8. -/
def ofBytes (bytes : ByteArray) : Except ListError (List AddressRange) :=
  match String.fromUTF8? bytes with
  | some text => ofChars text.toList
  | none => .error .unreadable

/-- The one range that a text of a single line stands for. -/
def single (text : List Char) : Except ListError AddressRange := do
  match ← ofLine 1 text with
  | some r => return r
  | none => throw (.malformed 1 text)

end RangeList

end IpSpace
