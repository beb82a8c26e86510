import IpSpace.Text.Number
import IpSpace.Version

/-!
# Single addresses and their standard text

A host address is one address of a version. Its text is the standard one: dotted decimal for IPv4;
for IPv6 eight groups in lower-case hexadecimal, of which the first longest run of at least two zero
groups is written `::`, and the dotted form for the tail of an address that maps an IPv4 address.

Reading is more generous than writing, as the standard asks: letters of either case, leading zeros
in a group, `::` for one group or more at any place, and a dotted tail in place of the last two
groups. Decimal parts never have a leading zero.
-/

namespace IpSpace

/-- One address, as a number. -/
structure HostAddress where
  version : Version
  value : Nat
  deriving DecidableEq, Repr

namespace HostAddress

/-! ## Writing -/

/-- Numbers in decimal with points between. -/
def dotted (digits : List Nat) : List Char :=
  List.intercalate ['.'] (digits.map Text.decimal)

/-- Numbers in hexadecimal with colons between. -/
def groups (digits : List Nat) : List Char :=
  List.intercalate [':'] (digits.map Text.hexadecimal)

/-- Where the first longest run of zeros starts, and its length. -/
def longestZeroRun : List Nat → Nat × Nat
  | [] => (0, 0)
  | d :: ds =>
    let here := ((d :: ds).takeWhile (· == 0)).length
    let (start, length) := longestZeroRun ds
    if length ≤ here then (0, here) else (start + 1, length)

/-- The text of an IPv6 address with the given groups. -/
def compressed (digits : List Nat) : List Char :=
  let (start, length) := longestZeroRun digits
  if length < 2 then groups digits
  else groups (digits.take start) ++ [':', ':'] ++ groups (digits.drop (start + length))

/-- The IPv4 address that an IPv6 value maps, if its first eighty bits are zero and the sixteen
after them one. -/
def mapped? (value : Nat) : Option Nat :=
  if value / 2 ^ 32 = 0xffff then some (value % 2 ^ 32) else none

/-- The characters of the address. -/
def chars (a : HostAddress) : List Char :=
  match a.version with
  | .v4 => dotted (Version.v4.split a.value)
  | .v6 =>
    match mapped? a.value with
    | some inner => "::ffff:".toList ++ dotted (Version.v4.split inner)
    | none => compressed (Version.v6.split a.value)

/-- The text of the address. -/
def text (a : HostAddress) : String :=
  String.ofList a.chars

/-! ## Reading -/

/-- One part of a dotted address: up to three digits without a leading zero, at most 255. -/
def octet? (cs : List Char) : Option Nat :=
  if cs.isEmpty ∨ 3 < cs.length ∨ (cs.head? = some '0' ∧ 1 < cs.length) then none
  else (Text.ofDecimal? cs).filter (· ≤ 255)

/-- Four parts with points between. -/
def ofDotted? (cs : List Char) : Option Nat :=
  ((cs.splitOn '.').mapM octet?).bind fun digits =>
    if digits.length = 4 then some (Version.v4.join digits) else none

/-- One group: one to four hexadecimal digits. -/
def group? (cs : List Char) : Option Nat :=
  if cs.isEmpty ∨ 4 < cs.length then none else Text.ofHexadecimal? cs

/-- Groups with colons between, of which the last may be dotted and then stands for two. -/
def ofFields? : List (List Char) → Option (List Nat)
  | [] => some []
  | [last] =>
    if last.contains '.' then
      (ofDotted? last).map fun value => Digits.split 16 2 value
    else (group? last).map fun d => [d]
  | field :: rest => do
    let d ← group? field
    let ds ← ofFields? rest
    return d :: ds

/-- The groups on one side of a double colon, where nothing at all is no groups. -/
def side? (cs : List Char) : Option (List Nat) :=
  if cs.isEmpty then some [] else ofFields? (cs.splitOn ':')

/-- The text in front of the first double colon and the text behind it. -/
def cutDoubleColon : List Char → Option (List Char × List Char)
  | ':' :: ':' :: rest => some ([], rest)
  | c :: rest => (cutDoubleColon rest).map fun (front, back) => (c :: front, back)
  | [] => none

/-- The groups of an IPv6 text: all eight, or those beside a double colon that stands for at least
one. A dotted tail comes last in the text, so none is allowed in front of the double colon. -/
def ofGroups? (cs : List Char) : Option (List Nat) :=
  match cutDoubleColon cs with
  | none => (ofFields? (cs.splitOn ':')).filter (·.length = 8)
  | some (front, back) => do
    let front ← if front.contains '.' then none else side? front
    let back ← side? back
    let given := front.length + back.length
    if given < 8 then return front ++ List.replicate (8 - given) 0 ++ back else none

/-- The address with the given text. A colon tells the two versions apart. -/
def ofChars? (cs : List Char) : Option HostAddress :=
  if cs.contains ':' then (ofGroups? cs).map fun ds => ⟨.v6, Version.v6.join ds⟩
  else (ofDotted? cs).map fun value => ⟨.v4, value⟩

end HostAddress

end IpSpace
