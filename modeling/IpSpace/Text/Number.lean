/-!
# Numbers in text

The two notations in use: decimal, and hexadecimal with lower-case letters.
-/

namespace IpSpace.Text

/-- A number in decimal. -/
def decimal (n : Nat) : List Char :=
  Nat.toDigits 10 n

/-- A number in hexadecimal, in lower case and without a marker. -/
def hexadecimal (n : Nat) : List Char :=
  Nat.toDigits 16 n

/-- A number in hexadecimal, marked as such. -/
def marked (n : Nat) : String :=
  "0x" ++ String.ofList (hexadecimal n)

/-- The number written by the decimal digits `cs`, or nothing if another character occurs. -/
def ofDecimal? (cs : List Char) : Option Nat :=
  if cs.all Char.isDigit then some (cs.foldl (fun n c => n * 10 + (c.toNat - '0'.toNat)) 0)
  else none

/-- The value of a hexadecimal digit of either case. -/
def hexDigit? (c : Char) : Option Nat :=
  if c.isDigit then some (c.toNat - '0'.toNat)
  else if 'a' ≤ c ∧ c ≤ 'f' then some (c.toNat - 'a'.toNat + 10)
  else if 'A' ≤ c ∧ c ≤ 'F' then some (c.toNat - 'A'.toNat + 10)
  else none

/-- The number written by the hexadecimal digits `cs`, or nothing if another character occurs. -/
def ofHexadecimal? (cs : List Char) : Option Nat :=
  (cs.mapM hexDigit?).map (·.foldl (fun n d => n * 16 + d) 0)

end IpSpace.Text
