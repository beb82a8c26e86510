import IpSpace.Error

/-!
# Building segments and sections

Segments are checked in the order width, order of the ends, upper end, prefix length; a section
checks its segments first, then their number, their width and the prefix length.
-/

namespace IpSpace

/-- Nothing, or the error of a prefix length past the width of an address. -/
def checkPrefixLen (version : Version) (prefixLen : Nat) : Except AddressError Unit :=
  if prefixLen ≤ version.bitCount then .ok () else .error (.prefixTooLong version prefixLen)

namespace Segment

/-- The segment with the given width, range and prefix length. -/
def build (width : Nat) (b : Bounds) (prefixLen : Option Nat) : Except AddressError Segment := do
  if !isWidth width then throw (.segmentWidth width)
  if b.upper < b.lower then throw (.segmentOrder b)
  if 2 ^ width - 1 < b.upper then throw (.segmentTooLarge b.upper width)
  if let some p := prefixLen then
    if width < p then throw (.segmentPrefix p width)
  return ⟨width, b, prefixLen⟩

end Segment

namespace Section

/-- The section of the given segments, whose own prefix lengths give way to that of the section. -/
def ofSegments (version : Version) (segments : List Segment) (prefixLen : Option Nat) :
    Except AddressError Section := do
  if segments.length ≠ version.segmentCount then throw (.segmentCount version segments.length)
  if let some odd := segments.find? (·.width ≠ version.segmentBits) then
    throw (.mixedWidth version odd.width)
  if let some p := prefixLen then checkPrefixLen version p
  return ⟨version, segments.map (·.bounds), prefixLen⟩

/-- The section of the given ranges. -/
def ofBounds (version : Version) (bounds : List Bounds) (prefixLen : Option Nat) :
    Except AddressError Section := do
  let segments ← bounds.mapM fun b => Segment.build version.segmentBits b none
  ofSegments version segments prefixLen

/-- The section of one address, by its segment values. -/
def ofValues (version : Version) (values : List Nat) (prefixLen : Option Nat) :
    Except AddressError Section :=
  ofBounds version (values.map Bounds.single) prefixLen

/-- The section of one address, by its value. -/
def ofValue (version : Version) (value : Nat) (prefixLen : Option Nat) :
    Except AddressError Section := do
  if version.maxValue < value then throw (.valueTooLarge version value)
  if let some p := prefixLen then checkPrefixLen version p
  return ofDigits version (version.split value) prefixLen

/-- The section of one address, by its bytes, most significant first. -/
def ofBytes (bytes : List Nat) (prefixLen : Option Nat) : Except AddressError Section :=
  match Version.ofByteCount? bytes.length with
  | some version => ofValue version (Digits.join 8 bytes) prefixLen
  | none => .error (.byteCount bytes.length)

/-- The section whose one address is the network mask of a prefix length. -/
def networkMask (version : Version) (prefixLen : Nat) : Except AddressError Section := do
  checkPrefixLen version prefixLen
  ofValue version (version.networkMask prefixLen) none

/-- The section whose one address is the host mask of a prefix length. -/
def hostMask (version : Version) (prefixLen : Nat) : Except AddressError Section := do
  checkPrefixLen version prefixLen
  ofValue version (version.hostMask prefixLen) none

/-- The section of a single address, without a prefix length. -/
def ofHost (a : HostAddress) : Section :=
  ofDigits a.version (a.version.split a.value) none

/-- The same addresses with the given prefix length. -/
def setPrefixLen (s : Section) (prefixLen : Nat) : Except AddressError Section := do
  checkPrefixLen s.version prefixLen
  return s.withPrefixLen (some prefixLen)

end Section

end IpSpace
