import IpSpace.Section.Build

/-!
# Host conversions, blocks, masking and reversal

The operations that map every address of a section. A conversion of the host and the application of
a mask work segment by segment, and fail where the values of a segment do not stay a range. Widening
to blocks never fails. Reversal permutes the bits of an address, which keeps a range only where it
is a single value or all values.

Conversions of the host look for two shortcuts first: a section that already passes the test for the
wanted host is returned unchanged, and a section within one network that includes the wanted host is
its lowest or highest address.
-/

namespace IpSpace

/-- What to do where the values of a segment do not stay a range. -/
inductive Strictness where
  /-- Fail. -/
  | exact
  /-- Map the two ends and take everything between them. -/
  | endsOnly
  deriving DecidableEq, Repr

namespace Section

/-! ## Host conversions -/

/-- Whether a section passes the test for the given host. -/
def hasHostAt (s : Section) (host : Host) (prefixLen : Nat) : Bool :=
  match host with
  | .zeros => s.isZeroHostAt prefixLen
  | .ones => s.isMaxHostAt prefixLen

/-- Whether some address has the given host. -/
def includesHostAt (s : Section) (host : Host) (prefixLen : Nat) : Bool :=
  match host with
  | .zeros => s.includesZeroHostAt prefixLen
  | .ones => s.includesMaxHostAt prefixLen

/-- The address of a network that has the given host is its lowest or its highest. -/
def hostEnd (s : Section) (host : Host) : Section :=
  match host with
  | .zeros => s.lower
  | .ones => s.upper

/-- The values of a segment of `width` bits with their `h` host bits all set to the given host. -/
def convertBounds (width : Nat) (host : Host) (b : Bounds) (h : Nat) : Masked :=
  let max := 2 ^ width - 1
  match host with
  | .zeros => maskRange b.lower b.upper (max - (2 ^ h - 1)) max
  | .ones => orRange b.lower b.upper (2 ^ h - 1) max

/-- Gives every address the host `host`, segment by segment. -/
def convertHost (s : Section) (host : Host) (prefixLen : Nat) (strictness : Strictness) :
    Except AddressError Section := do
  let bounds ← (s.hosts prefixLen).mapM fun (b, h) =>
    let masked := convertBounds s.version.segmentBits host b h
    if !masked.contiguous && strictness = .exact then
      .error (.hostOfRange host s prefixLen)
    else .ok masked.bounds
  return { s with bounds }

/-- Gives every address the host `host` behind its first `prefixLen` bits. The section keeps its own
prefix length. -/
def toHostAt (s : Section) (host : Host) (prefixLen : Nat) (strictness : Strictness) :
    Except AddressError Section := do
  checkPrefixLen s.version prefixLen
  if s.hasHostAt host prefixLen then return s
  if s.isSingleNetworkAt prefixLen && s.includesHostAt host prefixLen then return s.hostEnd host
  s.convertHost host prefixLen strictness

/-- Gives every address the host `host` for the section's own prefix length. Without one, every bit
is a host bit. -/
def toHost (s : Section) (host : Host) : Except AddressError Section :=
  match s.prefixLen with
  | some p => s.toHostAt host p .exact
  | none =>
    let digit := match host with
      | .zeros => 0
      | .ones => s.version.segmentMax
    .ok (ofDigits s.version (List.replicate s.segmentCount digit) none)

/-! ## Blocks -/

/-- The section widened to whole networks of the given prefix length, which it takes on. -/
def blockAt (s : Section) (prefixLen : Nat) : Section :=
  ⟨s.version, (s.hosts prefixLen).map fun (b, h) => b.block h, some prefixLen⟩

/-- `blockAt`, for a prefix length within the address. -/
def toBlockAt (s : Section) (prefixLen : Nat) : Except AddressError Section := do
  checkPrefixLen s.version prefixLen
  return s.blockAt prefixLen

/-- The section widened to whole networks of its own prefix length. -/
def toBlock (s : Section) : Section :=
  match s.prefixLen with
  | some p => s.blockAt p
  | none => s

/-- The section with the prefix length at which it is exactly one network. -/
def withSingleBlockPrefix? (s : Section) : Option Section :=
  s.singleBlockPrefixLen?.map fun p => s.withPrefixLen (some p)

/-- The section with the smallest prefix length at which it is made of whole networks. -/
def withMinBlockPrefix (s : Section) : Section :=
  s.withPrefixLen (some s.minBlockPrefixLen)

/-! ## Masks -/

/-- The values of a segment after a bitwise operation with `mask`. -/
def maskBounds (width : Nat) (op : BitOp) (b : Bounds) (mask : Nat) : Masked :=
  match op with
  | .and => maskRange b.lower b.upper mask (2 ^ width - 1)
  | .or => orRange b.lower b.upper mask (2 ^ width - 1)

/-- Applies a bitwise operation with the lowest address of `mask` to every address. -/
def applyMask (s : Section) (op : BitOp) (mask : Section) : Except AddressError Section := do
  checkSameVersion s.version mask.version
  let bounds ← (s.bounds.zip mask.bounds).zipIdx.mapM fun ((b, m), index) =>
    let masked := maskBounds s.version.segmentBits op b m.lower
    if masked.contiguous then .ok masked.bounds
    else .error (.maskOfRange op index b m.lower)
  return { s with bounds }

/-! ## Reversal -/

/-- The segments in reverse order. -/
def reverseSegments (s : Section) : Section :=
  ⟨s.version, s.bounds.reverse, none⟩

end Section

namespace Segment

/-- The segment with its bits in reverse order. -/
def reverseBits (s : Segment) : Except AddressError Segment :=
  match s.bounds.permute? s.width (Bits.reverse s.width) with
  | some bounds => .ok ⟨s.width, bounds, none⟩
  | none => .error (.bitsOfRange s.bounds)

/-- The segment with its bytes in reverse order, which leaves a segment of one byte as it is. -/
def reverseBytes (s : Segment) : Except AddressError Segment :=
  if s.width = 8 then .ok { s with prefixLen := none }
  else
    match s.bounds.permute? s.width Bits.swapBytes with
    | some bounds => .ok ⟨s.width, bounds, none⟩
    | none => .error (.bytesOfRange s.bounds)

end Segment

namespace Section

/-- The segments in reverse order, each reversed by `step`. The prefix length is dropped. -/
def reverseWith (s : Section) (step : Segment → Except AddressError Segment) :
    Except AddressError Section := do
  let reversed ← s.segments.reverse.mapM step
  return ⟨s.version, reversed.map (·.bounds), none⟩

/-- Every address with its bits in reverse order. -/
def reverseBits (s : Section) : Except AddressError Section :=
  s.reverseWith Segment.reverseBits

/-- Every address with its bytes in reverse order. -/
def reverseBytes (s : Section) : Except AddressError Section :=
  s.reverseWith Segment.reverseBytes

end Section

end IpSpace
