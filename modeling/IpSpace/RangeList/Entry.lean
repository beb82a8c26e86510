import IpSpace.AddressRange.Basic
import IpSpace.Text.Blank

/-!
# Entries of a range list

An entry stands for one range. It is a single address; an address and a prefix length with a slash
between, which stands for the whole block; or two addresses with a hyphen between, in either order.
Blanks are allowed around the slash and the hyphen.
-/

namespace IpSpace

/-- An entry of a range list. -/
inductive Entry where
  | single (a : HostAddress)
  | block (a : HostAddress) (prefixLen : Nat)
  | between (a b : HostAddress)
  deriving DecidableEq, Repr

namespace Entry

/-- The characters that addresses are written with. -/
def isAddressChar (c : Char) : Bool :=
  (Text.hexDigit? c).isSome || c == ':' || c == '.'

/-- A prefix length: one to three decimal digits that make at most 255. -/
def ofPrefixLen? (cs : List Char) : Option Nat :=
  if cs.isEmpty ∨ 3 < cs.length then none else (Text.ofDecimal? cs).filter (· ≤ 255)

/-- The entry that the characters write, without blanks at either end. -/
def ofChars? (cs : List Char) : Option Entry := do
  let a ← HostAddress.ofChars? (cs.takeWhile isAddressChar)
  match Text.trimFront (cs.dropWhile isAddressChar) with
  | [] => return single a
  | '/' :: rest => (ofPrefixLen? (Text.trimFront rest)).map (block a)
  | '-' :: rest => (HostAddress.ofChars? (Text.trimFront rest)).map (between a)
  | _ => none

/-- The range that an entry stands for. -/
def range : Entry → Except AddressError AddressRange
  | single a => .ok ⟨a.version, a.value, a.value⟩
  | block a prefixLen => do
    return AddressRange.ofSection (← (Section.ofHost a).toBlockAt prefixLen)
  | between a b => AddressRange.ofAddresses (Address.ofHost a) (Address.ofHost b)

end Entry

end IpSpace
