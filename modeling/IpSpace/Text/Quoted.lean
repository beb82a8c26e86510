import IpSpace.Text.Hidden
import IpSpace.Text.Number

/-!
# Quoted text

Messages quote what they complain about. Between the quotes, a quote and a backslash are written
with a backslash in front, the usual control characters by their letter, and every other hidden
character by its code point in hexadecimal. An apostrophe stays as it is.
-/

namespace IpSpace.Text

/-- How one character is written between quotes. -/
def escape (c : Char) : List Char :=
  match c with
  | '\x00' => ['\\', '0']
  | '\t' => ['\\', 't']
  | '\r' => ['\\', 'r']
  | '\n' => ['\\', 'n']
  | '"' => ['\\', '"']
  | '\\' => ['\\', '\\']
  | c =>
    if isHidden c then ['\\', 'u', '\x7b'] ++ hexadecimal c.toNat ++ ['\x7d'] else [c]

/-- Text between quotes. -/
def quoted (cs : List Char) : List Char :=
  '"' :: cs.flatMap escape ++ ['"']

end IpSpace.Text
