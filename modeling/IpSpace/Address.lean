import IpSpace.Section.Convert
import IpSpace.Section.Difference

/-!
# Addresses

An address is a section that may name the zone in which it is meant, as link-local IPv6 addresses
do. Operations act on the section, and what they yield keeps the zone (`Address.map`,
`Address.wrap`); reversal drops it along with the prefix length.
-/

namespace IpSpace

/-- A section `body` with an optional zone. -/
structure Address where
  body : Section
  zone : Option String
  deriving DecidableEq, Repr

namespace Address

/-! ## Building -/

/-- A section as an address without a zone. -/
def ofSection (s : Section) : Address :=
  ⟨s, none⟩

/-- A single address without a zone. -/
def ofHost (a : HostAddress) : Address :=
  ofSection (Section.ofHost a)

/-- An IPv6 section with a zone, where the empty text is no zone. -/
def withZone (s : Section) (zone : String) : Except AddressError Address :=
  if s.version = .v6 then .ok ⟨s, if zone.isEmpty then none else some zone⟩
  else .error (.zoneOnIpv4 zone)

/-- The address with the given bytes. -/
def ofBytes (bytes : List Nat) (prefixLen : Option Nat) : Except AddressError Address :=
  (Section.ofBytes bytes prefixLen).map ofSection

/-- The address with the given bytes and a mask of as many bytes. A network mask is read as a prefix
length; any other mask is applied to the bytes. -/
def ofBytesMasked (bytes mask : List Nat) : Except AddressError Address := do
  if bytes.length ≠ mask.length then throw (.sizeMismatch bytes.length mask.length)
  let mask ← Section.ofBytes mask none
  match mask.maskPrefixLen? .network with
  | some p => ofBytes bytes (some p)
  | none =>
    let s ← Section.ofBytes bytes none
    (s.applyMask .and mask).map ofSection

/-- The first of the addresses that a name resolved to. -/
def ofResolved (resolved : List (List Nat)) (prefixLen : Option Nat) :
    Except AddressError Address :=
  match resolved with
  | [] => .error .noAddresses
  | first :: _ => ofBytes first prefixLen

/-! ## Parts -/

/-- The version of the address. -/
def version (a : Address) : Version :=
  a.body.version

/-- Changes the section and keeps the zone. -/
def map (a : Address) (f : Section → Section) : Address :=
  { a with body := f a.body }

/-- A section as an address with the zone of `a`. -/
def wrap (a : Address) (s : Section) : Address :=
  a.map fun _ => s

/-- The address by itself, if there is just one. -/
def host? (a : Address) : Option HostAddress :=
  if a.body.isMultiple then none else some a.body.lowerAddress

/-- The address by itself, if there is just one and it has the given version. -/
def hostOf? (a : Address) (version : Version) : Option HostAddress :=
  a.host?.filter (·.version = version)

/-! ## Operations that keep the zone -/

/-- The lowest address. -/
def lower (a : Address) : Address :=
  a.map Section.lower

/-- The highest address. -/
def upper (a : Address) : Address :=
  a.map Section.upper

/-- The same addresses with the given prefix length. -/
def setPrefixLen (a : Address) (prefixLen : Nat) : Except AddressError Address :=
  (a.body.setPrefixLen prefixLen).map a.wrap

/-- The same addresses without a prefix length. -/
def withoutPrefixLen (a : Address) : Address :=
  a.map (·.withPrefixLen none)

/-- Gives every address the host `host` for its own prefix length. -/
def toHost (a : Address) (host : Host) : Except AddressError Address :=
  (a.body.toHost host).map a.wrap

/-- Gives every address the host `host` behind its first `prefixLen` bits. -/
def toHostAt (a : Address) (host : Host) (prefixLen : Nat) (strictness : Strictness) :
    Except AddressError Address :=
  (a.body.toHostAt host prefixLen strictness).map a.wrap

/-- The address widened to whole networks of its own prefix length. -/
def toBlock (a : Address) : Address :=
  a.map Section.toBlock

/-- The address widened to whole networks of the given prefix length. -/
def toBlockAt (a : Address) (prefixLen : Nat) : Except AddressError Address :=
  (a.body.toBlockAt prefixLen).map a.wrap

/-- The same addresses with the prefix length at which they are exactly one network. -/
def withSingleBlockPrefix? (a : Address) : Option Address :=
  a.body.withSingleBlockPrefix?.map a.wrap

/-- Applies a bitwise operation with the lowest address of `mask` to every address. -/
def applyMask (a : Address) (op : BitOp) (mask : Address) : Except AddressError Address :=
  (a.body.applyMask op mask.body).map a.wrap

/-- The common addresses, with the zone of the first of the two. -/
def inter? (a other : Address) : Except AddressError (Option Address) :=
  (a.body.inter? other.body).map (·.map a.wrap)

/-- What is left without the addresses of `other`. -/
def difference (a other : Address) : Except AddressError (List Address) :=
  (a.body.difference other.body).map (·.map a.wrap)

/-! ## Operations that drop the zone -/

/-- The address with its bits in reverse order, without a prefix length or a zone. -/
def reverseBits (a : Address) : Except AddressError Address :=
  a.body.reverseBits.map ofSection

/-- The address with its bytes in reverse order, without a prefix length or a zone. -/
def reverseBytes (a : Address) : Except AddressError Address :=
  a.body.reverseBytes.map ofSection

/-! ## Text and order -/

/-- The characters of the address. The zone stands in front of the prefix length. -/
def chars (a : Address) : List Char :=
  match a.zone with
  | some zone => a.body.baseChars ++ '%' :: zone.toList ++ a.body.prefixChars
  | none => a.body.chars

/-- The text of the address. -/
def text (a : Address) : String :=
  String.ofList a.chars

/-- Addresses are ordered by section, then by zone, an absent zone first. -/
instance : Ord Address where
  compare a b := (compare a.body b.body).then (compare a.zone b.zone)

end Address

end IpSpace
