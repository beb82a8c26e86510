import IpSpace.Section.Text
import IpSpace.Text.Quoted

/-!
# Errors about addresses

Everything that can be wrong with an address, a section, a range or a key, or with an operation on
them, is one constructor of `AddressError`. The wording is in one place, `AddressError.message`.
Errors fall into three kinds: an invalid value was given, two operands differ in size, or a result
is not one range per segment.
-/

namespace IpSpace

/-- Which host a conversion gives to every address. -/
inductive Host where
  | zeros
  | ones
  deriving DecidableEq, Repr

/-- A bitwise operation with a mask. -/
inductive BitOp where
  | and
  | or
  deriving DecidableEq, Repr

/-- What can be wrong. -/
inductive AddressError where
  | segmentWidth (width : Nat)
  | segmentOrder (b : Bounds)
  | segmentTooLarge (upper width : Nat)
  | segmentPrefix (prefixLen width : Nat)
  | segmentCount (version : Version) (found : Nat)
  | mixedWidth (version : Version) (width : Nat)
  | prefixTooLong (version : Version) (prefixLen : Nat)
  | valueTooLarge (version : Version) (value : Nat)
  | byteCount (found : Nat)
  | zoneOnIpv4 (zone : String)
  | noAddresses
  | rangeOrder (lower upper : Nat)
  | keyPadding (version : Version)
  | keySegment (version : Version) (value : Nat)
  | sizeMismatch (expected found : Nat)
  | bitsOfRange (b : Bounds)
  | bytesOfRange (b : Bounds)
  | hostOfRange (host : Host) (s : Section) (prefixLen : Nat)
  | maskOfRange (op : BitOp) (index : Nat) (b : Bounds) (mask : Nat)
  deriving DecidableEq, Repr

namespace AddressError

/-- The three kinds of error. -/
inductive Kind where
  | invalid
  | mismatch
  | incompatible
  deriving DecidableEq, Repr

/-- The kind of an error. -/
def kind : AddressError → Kind
  | sizeMismatch _ _ => .mismatch
  | bitsOfRange _ | bytesOfRange _ | hostOfRange _ _ _ | maskOfRange _ _ _ _ => .incompatible
  | _ => .invalid

/-- The error in words, without its kind. -/
def detail : AddressError → String
  | segmentWidth width => s!"unsupported segment width {width}"
  | segmentOrder b => s!"segment lower value {b.lower} exceeds upper value {b.upper}"
  | segmentTooLarge upper width =>
    s!"segment value {upper} exceeds {width}-bit maximum {2 ^ width - 1}"
  | segmentPrefix prefixLen width => s!"segment prefix length {prefixLen} exceeds {width} bits"
  | segmentCount version found =>
    s!"{version.name} requires {version.segmentCount} segments, got {found}"
  | mixedWidth version width =>
    s!"{version.name} segments are {version.segmentBits} bits, got a {width}-bit segment"
  | prefixTooLong version prefixLen =>
    s!"prefix length {prefixLen} exceeds {version.bitCount} bits of {version.name}"
  | valueTooLarge version value =>
    s!"value {Text.marked value} exceeds the {version.name} address space"
  | byteCount found => s!"address must be 4 or 16 bytes, got {found}"
  | zoneOnIpv4 zone =>
    "zone " ++ String.ofList (Text.quoted zone.toList) ++ " is only valid for IPv6"
  | noAddresses => "host resolved to no addresses"
  | rangeOrder lower upper =>
    s!"range lower bound {Text.marked lower} exceeds upper bound {Text.marked upper}"
  | keyPadding version =>
    s!"{version.name} key has values beyond its {version.segmentCount} segments"
  | keySegment version value =>
    s!"segment value {value} exceeds the {version.name} maximum {version.segmentMax}"
  | sizeMismatch expected found => s!"expected {expected}, got {found}"
  | bitsOfRange b =>
    s!"reversing the bits of segment range {b.lower}-{b.upper} does not give a range"
  | bytesOfRange b =>
    s!"reversing the bytes of segment range {Text.marked b.lower}-{Text.marked b.upper} "
      ++ "does not give a range"
  | hostOfRange host s prefixLen =>
    let which := match host with
      | .zeros => "zero"
      | .ones => "max"
    s!"{which} host of {s.text} at /{prefixLen} is not a contiguous range"
  | maskOfRange op index b mask =>
    let sign := match op with
      | .and => "&"
      | .or => "|"
    s!"segment {index} range {b.lower}-{b.upper} {sign} {Text.marked mask} "
      ++ "is not a contiguous range"

/-- The error in words. -/
def message (e : AddressError) : String :=
  match e.kind with
  | .invalid => "Invalid address value: " ++ e.detail
  | .mismatch => "Segment count mismatch: " ++ e.detail
  | .incompatible => "Incompatible address: " ++ e.detail

end AddressError

/-- Nothing, or the size mismatch of an operation on two versions. -/
def checkSameVersion (a b : Version) : Except AddressError Unit :=
  if a = b then .ok () else .error (.sizeMismatch a.segmentCount b.segmentCount)

end IpSpace
