import IpSpace.Text.Number

/-!
# Indented JSON

A layout is the text of a JSON value as a function of how deep the value is nested. Arrays and
objects put every member on a line of its own, two blanks further in than the line of their closing
bracket; empty ones have nothing between their brackets.
-/

namespace IpSpace.Report

/-- The text of a value at a given depth. -/
abbrev Layout := Nat → List Char

namespace Layout

/-- A line feed, and the indentation of the line after it. -/
def newline (depth : Nat) : List Char :=
  '\n' :: List.replicate (2 * depth) ' '

/-- How a character is written inside a string: quotes, backslashes and control characters are
escaped. -/
def escape (c : Char) : List Char :=
  match c with
  | '"' => ['\\', '"']
  | '\\' => ['\\', '\\']
  | '\x08' => ['\\', 'b']
  | '\x0c' => ['\\', 'f']
  | '\n' => ['\\', 'n']
  | '\r' => ['\\', 'r']
  | '\t' => ['\\', 't']
  | c =>
    if c.toNat < 0x20 then
      let digits := Text.hexadecimal c.toNat
      ['\\', 'u'] ++ List.replicate (4 - digits.length) '0' ++ digits
    else [c]

/-- The value `null`. -/
def null : Layout :=
  fun _ => ['n', 'u', 'l', 'l']

/-- A number. -/
def number (n : Nat) : Layout :=
  fun _ => Text.decimal n

/-- A string. -/
def string (cs : List Char) : Layout :=
  fun _ => '"' :: cs.flatMap escape ++ ['"']

/-- Members between two brackets, each on a line of its own. -/
def members (opening closing : Char) (items : List Layout) : Layout := fun depth =>
  if items.isEmpty then [opening, closing]
  else
    let lines := items.map fun item => newline (depth + 1) ++ item (depth + 1)
    opening :: List.intercalate [','] lines ++ newline depth ++ [closing]

/-- An array. -/
def array (items : List Layout) : Layout :=
  members '[' ']' items

/-- An object with the given names and values. -/
def object (fields : List (String × Layout)) : Layout :=
  members '\x7b' '\x7d' <| fields.map fun (name, value) => fun depth =>
    string name.toList depth ++ [':', ' '] ++ value depth

/-- The text of a whole document. -/
def chars (document : Layout) : List Char :=
  document 0

end Layout

end IpSpace.Report
