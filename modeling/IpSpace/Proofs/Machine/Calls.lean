import IpSpace.Proofs.Obtainable
import IpSpace.Proofs.Machine.Combinations
import IpSpace.Proofs.Machine.Spans

/-!
# Calls on the machine

Everything that can be asked of the library is a call, together with its arguments: calls that build
an item of plain data, and calls on a section, an address or a range. A call has an outcome in the
library, and it runs on the machine. It is valid if all sections, addresses and ranges among its
arguments are, and if bytes and the numbers in keys are as wide as they are on the machine. All
other arguments are free: prefix lengths, numbers of segments, values, and what an iterator is asked
for.

A valid call is carried out and has the outcome of the library, but for one: there is no segment
past the last (`Call.run?_exact`). So no mask is looked up for a prefix length past the width of a
segment, no list is indexed or cut past its end, no sum, product or shift leaves its word and no
difference is below zero, wherever a call leads. Calls that only read a part of an item have no step
that could stop, and are left out.
-/

namespace IpSpace

namespace Machine

/-! ## Calls that build -/

/-- The address with the given bytes and a mask of as many bytes. -/
def ofBytesMasked? (bytes mask : List Nat) : Option (Except AddressError Address) :=
  if bytes.length ≠ mask.length then some (.error (.sizeMismatch bytes.length mask.length))
  else do
    after? (← ofBytes? mask none) fun mask => do
      match ← maskPrefixLen? mask .network with
      | some p => return (← ofBytes? bytes (some p)).map Address.ofSection
      | none => after? (← ofBytes? bytes none) fun s => do
          return (← applyMask? s .and mask).map Address.ofSection

/-- The first of the addresses that a name resolved to. -/
def ofResolved? (resolved : List (List Nat)) (prefixLen : Option Nat) :
    Option (Except AddressError Address) :=
  match resolved with
  | [] => some (.error .noAddresses)
  | first :: _ => do return (← ofBytes? first prefixLen).map Address.ofSection

/-- **The bytes of an address and of a mask are read as such**: a mask that does not belong to a
prefix length is applied to the address. -/
theorem ofBytesMasked?_eq {bytes mask : List Nat} (hbytes : ∀ byte ∈ bytes, byte < 2 ^ 8)
    (hmask : ∀ byte ∈ mask, byte < 2 ^ 8) :
    ofBytesMasked? bytes mask = some (Address.ofBytesMasked bytes mask) := by
  rw [ofBytesMasked?, Address.ofBytesMasked]
  by_cases hlen : bytes.length ≠ mask.length
  · rw [if_pos hlen, if_pos hlen]
    rfl
  · rw [if_neg hlen, if_neg hlen, bind_eq (ofBytes?_eq hmask none)]
    refine after?_eq fun m hm => ?_
    have hwf := Section.wellFormed_of_ofBytes hm
    rw [bind_eq (maskPrefixLen?_eq hwf .network)]
    cases m.maskPrefixLen? .network with
    | some p => exact bind_eq (ofBytes?_eq hbytes (some p))
    | none =>
        refine (bind_eq (ofBytes?_eq hbytes none)).trans (after?_eq fun s hs => ?_)
        exact bind_eq (applyMask?_eq (Section.wellFormed_of_ofBytes hs) hwf .and)

/-- Only the first of the addresses is read. -/
theorem ofResolved?_eq {resolved : List (List Nat)}
    (h : ∀ bytes ∈ resolved, ∀ byte ∈ bytes, byte < 2 ^ 8) (prefixLen : Option Nat) :
    ofResolved? resolved prefixLen = some (Address.ofResolved resolved prefixLen) := by
  cases resolved with
  | nil => rfl
  | cons first rest => exact bind_eq (ofBytes?_eq (h first List.mem_cons_self) prefixLen)

/-- The calls that build an item, and what they yield. -/
inductive BuildCall : Type → Type where
  | ofSegments (version : Version) (segments : List Segment) (prefixLen : Option Nat) :
      BuildCall (Except AddressError Section)
  | ofBounds (version : Version) (bounds : List Bounds) (prefixLen : Option Nat) :
      BuildCall (Except AddressError Section)
  | ofDigits (version : Version) (values : List Nat) (prefixLen : Option Nat) :
      BuildCall (Except AddressError Section)
  | ofValue (version : Version) (value : Nat) (prefixLen : Option Nat) :
      BuildCall (Except AddressError Section)
  | ofBytes (bytes : List Nat) (prefixLen : Option Nat) : BuildCall (Except AddressError Section)
  | networkMask (version : Version) (p : Nat) : BuildCall (Except AddressError Section)
  | hostMask (version : Version) (p : Nat) : BuildCall (Except AddressError Section)
  | ofHost (a : HostAddress) : BuildCall Section
  | ofKey (key : AddressKey) : BuildCall (Except AddressError Section)
  | ofBytesMasked (bytes mask : List Nat) : BuildCall (Except AddressError Address)
  | ofResolved (resolved : List (List Nat)) (prefixLen : Option Nat) :
      BuildCall (Except AddressError Address)
  | withZone (s : Section) (zone : String) : BuildCall (Except AddressError Address)
  | rangeOfValues (version : Version) (lower upper : Nat) :
      BuildCall (Except AddressError AddressRange)
  | rangeOfSection (s : Section) : BuildCall AddressRange
  | rangeOfAddresses (a b : Address) : BuildCall (Except AddressError AddressRange)
  | rangeOfKey (key : RangeKey) : BuildCall (Except AddressError AddressRange)
  | coalesce (ranges : List AddressRange) : BuildCall (List AddressRange)
  | mergeToBlocks (addresses : List Address) : BuildCall (Except AddressError (List Address))
  | mergeToRuns (addresses : List Address) : BuildCall (Except AddressError (List Address))
  /-- An address built of a section that is built. -/
  | wrap (call : BuildCall (Except AddressError Section)) : BuildCall (Except AddressError Address)

namespace BuildCall

/-- Items among the arguments are valid, and bytes and keys are no wider than on the machine. -/
def Valid {α : Type} : BuildCall α → Prop
  | ofSegments _ segments _ => ∀ g ∈ segments, g.WellFormed
  | ofBytes bytes _ => ∀ byte ∈ bytes, byte < 2 ^ 8
  | ofKey key => key.InLayout
  | ofBytesMasked bytes mask => (∀ byte ∈ bytes, byte < 2 ^ 8) ∧ ∀ byte ∈ mask, byte < 2 ^ 8
  | ofResolved resolved _ => ∀ bytes ∈ resolved, ∀ byte ∈ bytes, byte < 2 ^ 8
  | withZone s _ => s.WellFormed
  | rangeOfSection s => s.WellFormed
  | rangeOfAddresses a b => a.body.WellFormed ∧ b.body.WellFormed
  | rangeOfKey key => key.InLayout
  | coalesce ranges => ∀ r ∈ ranges, r.WellFormed
  | mergeToBlocks addresses | mergeToRuns addresses => ∀ a ∈ addresses, a.body.WellFormed
  | wrap call => call.Valid
  | _ => True

/-- What the library yields. -/
def outcome {α : Type} : BuildCall α → α
  | ofSegments version segments prefixLen => Section.ofSegments version segments prefixLen
  | ofBounds version bounds prefixLen => Section.ofBounds version bounds prefixLen
  | ofDigits version values prefixLen => Section.ofValues version values prefixLen
  | ofValue version value prefixLen => Section.ofValue version value prefixLen
  | ofBytes bytes prefixLen => Section.ofBytes bytes prefixLen
  | networkMask version p => Section.networkMask version p
  | hostMask version p => Section.hostMask version p
  | ofHost a => Section.ofHost a
  | ofKey key => Section.ofKey key
  | ofBytesMasked bytes mask => Address.ofBytesMasked bytes mask
  | ofResolved resolved prefixLen => Address.ofResolved resolved prefixLen
  | withZone s zone => Address.withZone s zone
  | rangeOfValues version lower upper => AddressRange.ofValues version lower upper
  | rangeOfSection s => AddressRange.ofSection s
  | rangeOfAddresses a b => AddressRange.ofAddresses a b
  | rangeOfKey key => AddressRange.ofKey key
  | coalesce ranges => AddressRange.coalesce ranges
  | mergeToBlocks addresses => Address.mergeToBlocks addresses
  | mergeToRuns addresses => Address.mergeToRuns addresses
  | wrap call => call.outcome.map Address.ofSection

/-- What the machine does. -/
def run? {α : Type} : BuildCall α → Option α
  | ofSegments version segments prefixLen => ofSegments? version segments prefixLen
  | ofBounds version bounds prefixLen => ofBounds? version bounds prefixLen
  | ofDigits version values prefixLen => ofValues? version values prefixLen
  | ofValue version value prefixLen => ofValue? version value prefixLen
  | ofBytes bytes prefixLen => ofBytes? bytes prefixLen
  | networkMask version p => networkMaskOf? version p
  | hostMask version p => hostMaskOf? version p
  | ofHost a => ofHost? a
  | ofKey key => ofKey? key
  | ofBytesMasked bytes mask => ofBytesMasked? bytes mask
  | ofResolved resolved prefixLen => ofResolved? resolved prefixLen
  | withZone s zone => some (Address.withZone s zone)
  | rangeOfValues version lower upper => Range.ofValues? version lower upper
  | rangeOfSection s => Range.ofSection? s
  | rangeOfAddresses a b => Range.ofAddresses? a b
  | rangeOfKey key => Range.ofKey? key
  | coalesce ranges => Range.coalesce? ranges
  | mergeToBlocks addresses => merge? Range.toBlocks? addresses
  | mergeToRuns addresses => merge? Range.toRuns? addresses
  | wrap call => do return (← call.run?).map Address.ofSection

/-- **What builds an item is carried out as in the library.** -/
theorem run?_eq {α : Type} (call : BuildCall α) (h : call.Valid) :
    call.run? = some call.outcome := by
  induction call with
  | ofSegments version segments prefixLen => exact ofSegments?_eq h prefixLen
  | ofBounds version bounds prefixLen => exact ofBounds?_eq version bounds prefixLen
  | ofDigits version values prefixLen => exact ofValues?_eq version values prefixLen
  | ofValue version value prefixLen => exact ofValue?_eq version value prefixLen
  | ofBytes bytes prefixLen => exact ofBytes?_eq h prefixLen
  | networkMask version p => exact networkMaskOf?_eq version p
  | hostMask version p => exact hostMaskOf?_eq version p
  | ofHost a => exact ofHost?_eq a
  | ofKey key => exact ofKey?_eq h
  | ofBytesMasked bytes mask => exact ofBytesMasked?_eq h.1 h.2
  | ofResolved resolved prefixLen => exact ofResolved?_eq h prefixLen
  | withZone s zone => rfl
  | rangeOfValues version lower upper => exact Range.ofValues?_eq version lower upper
  | rangeOfSection s => exact Range.ofSection?_eq h
  | rangeOfAddresses a b => exact Range.ofAddresses?_eq h.1 h.2
  | rangeOfKey key => exact Range.ofKey?_eq h
  | coalesce ranges => exact Range.coalesce?_eq h
  | mergeToBlocks addresses => exact mergeToBlocks?_eq h
  | mergeToRuns addresses => exact mergeToRuns?_eq h
  | wrap call ih => exact bind_eq (ih h)

end BuildCall

/-! ## Calls on sections -/

/-- The tests that are made for a prefix length. -/
inductive PrefixTest where
  | singleNetwork
  | zeroHost
  | maxHost
  | includesZeroHost
  | includesMaxHost
  | block
  | singleBlock

namespace PrefixTest

/-- The test at a prefix length, in the library. -/
def passesAt : PrefixTest → Section → Nat → Bool
  | singleNetwork => Section.isSingleNetworkAt
  | zeroHost => Section.isZeroHostAt
  | maxHost => Section.isMaxHostAt
  | includesZeroHost => Section.includesZeroHostAt
  | includesMaxHost => Section.includesMaxHostAt
  | block => Section.isBlockAt
  | singleBlock => Section.isSingleBlockAt

/-- The test at a prefix length, on the machine. -/
def passesAt? : PrefixTest → Section → Nat → Option Bool
  | singleNetwork => isSingleNetworkAt?
  | zeroHost => isZeroHostAt?
  | maxHost => isMaxHostAt?
  | includesZeroHost => includesZeroHostAt?
  | includesMaxHost => includesMaxHostAt?
  | block => isBlockAt?
  | singleBlock => isSingleBlockAt?

/-- The test at the section's own prefix length, in the library. -/
def passes (test : PrefixTest) (s : Section) : Bool :=
  match test with
  | singleNetwork => s.isSingleNetwork
  | test => s.atOwnPrefix (test.passesAt s)

/-- The test at the section's own prefix length, on the machine. -/
def passes? (test : PrefixTest) (s : Section) : Option Bool :=
  match test with
  | singleNetwork => isSingleNetworkOf? s
  | test => atOwnPrefix? s (test.passesAt? s)

variable {s : Section} (hs : s.WellFormed)

include hs

/-- Every test can be made at every prefix length. -/
theorem passesAt?_eq (test : PrefixTest) (p : Nat) :
    test.passesAt? s p = some (test.passesAt s p) := by
  cases test with
  | singleNetwork => exact isSingleNetworkAt?_eq hs p
  | zeroHost => exact isZeroHostAt?_eq hs p
  | maxHost => exact isMaxHostAt?_eq hs p
  | includesZeroHost => exact includesZeroHostAt?_eq hs p
  | includesMaxHost => exact includesMaxHostAt?_eq hs p
  | block => exact isBlockAt?_eq hs p
  | singleBlock => exact isSingleBlockAt?_eq hs p

/-- Every test can be made at the own prefix length. -/
theorem passes?_eq (test : PrefixTest) : test.passes? s = some (test.passes s) := by
  cases test with
  | singleNetwork => exact isSingleNetworkOf?_eq hs
  | _ => exact atOwnPrefix?_eq fun p => passesAt?_eq hs _ p

end PrefixTest

/-- Compares two sections by their ends. -/
def compare? (s other : Section) : Option Ordering := do
  let lower := compare (← lowerValue? s) (← lowerValue? other)
  let upper := compare (← upperValue? s) (← upperValue? other)
  return (compare s.version other.version).then <| lower.then <|
    upper.then (compare s.prefixLen other.prefixLen)

/-- Sections are compared by their lowest and highest addresses, which are found. -/
theorem compare?_eq {s other : Section} (hs : s.WellFormed) (ho : other.WellFormed) :
    compare? s other = some (compare s other) := by
  rw [compare?, bind_eq (lowerValue?_eq hs), bind_eq (lowerValue?_eq ho),
    bind_eq (upperValue?_eq hs), bind_eq (upperValue?_eq ho)]
  rfl

/-- What an iterator hands out to whoever asks one thing after another. -/
def walk? {α : Type} (built : Option (Iterator α)) (calls : List Walk.Call) : Option (List α) := do
  handedOut? Iterator.hasNext? Iterator.next? (← built) calls

/-- **An iterator that runs as a walk of the library hands out the same items.** -/
theorem walk?_eq {α : Type} {built : Option (Iterator α)} {w : Walk α}
    (h : ∃ it, built = some it ∧ it.Runs w) (calls : List Walk.Call) :
    walk? built calls = some (w.handedOut calls) := by
  obtain ⟨it, rfl, hruns⟩ := h
  exact Iterator.goesOn_runs.handedOut?_eq hruns calls

/-- The calls on a section, and what they yield. -/
inductive SectionCall : Type → Type where
  | segment (index : Nat) : SectionCall Segment
  | isMultiple : SectionCall Bool
  | isSequential : SectionCall Bool
  | lower : SectionCall Section
  | upper : SectionCall Section
  | lowerValue : SectionCall Nat
  | upperValue : SectionCall Nat
  | count : SectionCall Nat
  | prefixCount (p : Nat) : SectionCall Nat
  | contains (other : Section) : SectionCall Bool
  | overlaps (other : Section) : SectionCall Bool
  | compare (other : Section) : SectionCall Ordering
  | passes (test : PrefixTest) : SectionCall Bool
  | passesAt (test : PrefixTest) (p : Nat) : SectionCall Bool
  | setPrefixLen (p : Nat) : SectionCall (Except AddressError Section)
  | withoutPrefixLen : SectionCall Section
  | maskPrefixLen (mask : Section.Mask) : SectionCall (Option Nat)
  | minBlockPrefixLen : SectionCall Nat
  | singleBlockPrefixLen : SectionCall (Option Nat)
  | withSingleBlockPrefix : SectionCall (Option Section)
  | withMinBlockPrefix : SectionCall Section
  | toBlock : SectionCall Section
  | toBlockAt (p : Nat) : SectionCall (Except AddressError Section)
  | toHost (host : Host) : SectionCall (Except AddressError Section)
  | toHostAt (host : Host) (p : Nat) (strictness : Strictness) :
      SectionCall (Except AddressError Section)
  | applyMask (op : BitOp) (mask : Section) : SectionCall (Except AddressError Section)
  | reverseSegments : SectionCall Section
  | reverseBits : SectionCall (Except AddressError Section)
  | reverseBytes : SectionCall (Except AddressError Section)
  | inter (other : Section) : SectionCall (Except AddressError (Option Section))
  | difference (other : Section) : SectionCall (Except AddressError (List Section))
  | walk (route : Section.Route) (calls : List Walk.Call) : SectionCall (List Section)
  | runCount : SectionCall Nat
  | toBlocks : SectionCall (List Section)
  | toRuns : SectionCall (List Section)
  | cover : SectionCall Section
  | toKey : SectionCall AddressKey
  | text : SectionCall String

namespace SectionCall

/-- Sections among the arguments are valid. -/
def Valid {α : Type} : SectionCall α → Prop
  | contains other | overlaps other | compare other | applyMask _ other | inter other
  | difference other =>
    other.WellFormed
  | _ => True

/-- A segment is asked for that is not there. -/
def PastEnd {α : Type} (s : Section) : SectionCall α → Prop
  | segment index => s.segmentCount ≤ index
  | _ => False

/-- What the library yields: nothing only for a segment that is not there. -/
def outcome? {α : Type} (s : Section) : SectionCall α → Option α
  | segment index => s.segments[index]?
  | isMultiple => some s.isMultiple
  | isSequential => some s.isSequential
  | lower => some s.lower
  | upper => some s.upper
  | lowerValue => some s.lowerValue
  | upperValue => some s.upperValue
  | count => some s.count
  | prefixCount p => some (s.prefixCount p)
  | contains other => some (s.contains other)
  | overlaps other => some (s.overlaps other)
  | compare other => some (Ord.compare s other)
  | passes test => some (test.passes s)
  | passesAt test p => some (test.passesAt s p)
  | setPrefixLen p => some (s.setPrefixLen p)
  | withoutPrefixLen => some (s.withPrefixLen none)
  | maskPrefixLen mask => some (s.maskPrefixLen? mask)
  | minBlockPrefixLen => some s.minBlockPrefixLen
  | singleBlockPrefixLen => some s.singleBlockPrefixLen?
  | withSingleBlockPrefix => some s.withSingleBlockPrefix?
  | withMinBlockPrefix => some s.withMinBlockPrefix
  | toBlock => some s.toBlock
  | toBlockAt p => some (s.toBlockAt p)
  | toHost host => some (s.toHost host)
  | toHostAt host p strictness => some (s.toHostAt host p strictness)
  | applyMask op mask => some (s.applyMask op mask)
  | reverseSegments => some s.reverseSegments
  | reverseBits => some s.reverseBits
  | reverseBytes => some s.reverseBytes
  | inter other => some (s.inter? other)
  | difference other => some (s.difference other)
  | walk route calls => some ((s.walk route).handedOut calls)
  | runCount => some s.runCount
  | toBlocks => some s.toBlocks
  | toRuns => some s.toRuns
  | cover => some s.cover
  | toKey => some s.toKey
  | text => some s.text

/-- What the machine does. -/
def run? {α : Type} (s : Section) : SectionCall α → Option α
  | segment index => segment? s index
  | isMultiple => some s.isMultiple
  | isSequential => isSequential? s
  | lower => lower? s
  | upper => upper? s
  | lowerValue => lowerValue? s
  | upperValue => upperValue? s
  | count => count? s
  | prefixCount p => prefixCount? s p
  | contains other => some (s.contains other)
  | overlaps other => some (s.overlaps other)
  | compare other => compare? s other
  | passes test => test.passes? s
  | passesAt test p => test.passesAt? s p
  | setPrefixLen p => setPrefixLen? s p
  | withoutPrefixLen => withPrefix? s none
  | maskPrefixLen mask => maskPrefixLen? s mask
  | minBlockPrefixLen => minBlockOf? s
  | singleBlockPrefixLen => singleBlockPrefixLen? s
  | withSingleBlockPrefix => withSingleBlockPrefix? s
  | withMinBlockPrefix => withMinBlockPrefix? s
  | toBlock => toBlock? s
  | toBlockAt p => toBlockAt? s p
  | toHost host => toHost? s host
  | toHostAt host p strictness => toHostAt? s host p strictness
  | applyMask op mask => applyMask? s op mask
  | reverseSegments => reverseSegments? s
  | reverseBits => reverseWith? s reverseBits?
  | reverseBytes => reverseWith? s reverseBytes?
  | inter other => inter? s other
  | difference other => difference? s other
  | walk route calls => walk? (iteratorOf? s route) calls
  | runCount => runCount? s
  | toBlocks => toBlocks? s
  | toRuns => toRuns? s
  | cover => cover? s
  | toKey => some (Machine.toKey s)
  | text => text? s

variable {s : Section}

/-- **On a section, the machine does what the library does.** -/
theorem run?_eq {α : Type} (hs : s.WellFormed) (call : SectionCall α) (h : call.Valid) :
    call.run? s = call.outcome? s := by
  cases call with
  | segment index => rfl
  | isMultiple => rfl
  | isSequential => exact isSequential?_eq hs
  | lower => exact lower?_eq hs
  | upper => exact upper?_eq hs
  | lowerValue => exact lowerValue?_eq hs
  | upperValue => exact upperValue?_eq hs
  | count => exact count?_eq hs
  | prefixCount p => exact prefixCount?_eq hs p
  | contains other => rfl
  | overlaps other => rfl
  | compare other => exact compare?_eq hs h
  | passes test => exact test.passes?_eq hs
  | passesAt test p => exact test.passesAt?_eq hs p
  | setPrefixLen p => exact setPrefixLen?_eq hs p
  | withoutPrefixLen => exact withPrefix?_eq hs (by simp)
  | maskPrefixLen mask => exact maskPrefixLen?_eq hs mask
  | minBlockPrefixLen => exact minBlockOf?_eq hs
  | singleBlockPrefixLen => exact singleBlockPrefixLen?_eq hs
  | withSingleBlockPrefix => exact withSingleBlockPrefix?_eq hs
  | withMinBlockPrefix => exact withMinBlockPrefix?_eq hs
  | toBlock => exact toBlock?_eq hs
  | toBlockAt p => exact toBlockAt?_eq hs p
  | toHost host => exact toHost?_eq hs host
  | toHostAt host p strictness => exact toHostAt?_eq hs host p strictness
  | applyMask op mask => exact applyMask?_eq hs h op
  | reverseSegments => exact reverseSegments?_eq hs
  | reverseBits => exact reverseBitsOf?_eq hs
  | reverseBytes => exact reverseBytesOf?_eq hs
  | inter other => exact inter?_eq hs h
  | difference other => exact difference?_eq hs h
  | walk route calls => exact walk?_eq (iteratorOf?_runs hs route) calls
  | runCount => exact runCount?_eq hs
  | toBlocks => exact toBlocks?_eq hs
  | toRuns => exact toRuns?_eq hs
  | cover => exact cover?_eq hs
  | toKey => exact congrArg some (toKey_eq hs)
  | text => exact text?_eq hs

/-- Only a segment past the last one is not there. -/
theorem outcome?_eq_none_iff {α : Type} (call : SectionCall α) :
    call.outcome? s = none ↔ call.PastEnd s := by
  cases call with
  | segment index => exact segment?_eq_none_iff s index
  | _ => simp [outcome?, PastEnd]

end SectionCall

/-! ## Calls on addresses -/

/-- Compares two addresses by their sections, and then by their zones. -/
def compareAddresses? (a b : Address) : Option Ordering := do
  return (← compare? a.body b.body).then (compare a.zone b.zone)

/-- The address by itself, if there is just one. -/
def hostOf? (a : Address) : Option (Option HostAddress) :=
  if a.body.isMultiple then some none else do return some (← lowerAddress? a.body)

/-- What is made of the range between two addresses. -/
def between? {α β : Type} (split? : AddressRange → Option α) (wrap : α → β) (a b : Address) :
    Option (Except AddressError β) := do
  after? (← Range.ofAddresses? a b) fun r => do return .ok (wrap (← split? r))

/-- The calls on an address, and what they yield. -/
inductive AddressCall : Type → Type 1 where
  /-- A call on the section of the address, for what does not concern the zone. -/
  | ofBody {α : Type} (call : SectionCall α) : AddressCall α
  | lower : AddressCall Address
  | upper : AddressCall Address
  | setPrefixLen (p : Nat) : AddressCall (Except AddressError Address)
  | withoutPrefixLen : AddressCall Address
  | withSingleBlockPrefix : AddressCall (Option Address)
  | toBlock : AddressCall Address
  | toBlockAt (p : Nat) : AddressCall (Except AddressError Address)
  | toHost (host : Host) : AddressCall (Except AddressError Address)
  | toHostAt (host : Host) (p : Nat) (strictness : Strictness) :
      AddressCall (Except AddressError Address)
  | applyMask (op : BitOp) (mask : Address) : AddressCall (Except AddressError Address)
  | reverseBits : AddressCall (Except AddressError Address)
  | reverseBytes : AddressCall (Except AddressError Address)
  | inter (other : Address) : AddressCall (Except AddressError (Option Address))
  | difference (other : Address) : AddressCall (Except AddressError (List Address))
  | toBlocks : AddressCall (List Address)
  | toRuns : AddressCall (List Address)
  | cover : AddressCall Address
  | walk (route : Section.Route) (calls : List Walk.Call) : AddressCall (List Address)
  | compare (other : Address) : AddressCall Ordering
  | host : AddressCall (Option HostAddress)
  | hostOf (version : Version) : AddressCall (Option HostAddress)
  | text : AddressCall String
  | toBlocksTo (other : Address) : AddressCall (Except AddressError (List Address))
  | coverTo (other : Address) : AddressCall (Except AddressError Address)
  | mergeToBlocks (others : List Address) : AddressCall (Except AddressError (List Address))
  | mergeToRuns (others : List Address) : AddressCall (Except AddressError (List Address))

namespace AddressCall

/-- Addresses and sections among the arguments are valid. -/
def Valid {α : Type} : AddressCall α → Prop
  | ofBody call => call.Valid
  | applyMask _ other | inter other | difference other | compare other | toBlocksTo other
  | coverTo other => other.body.WellFormed
  | mergeToBlocks others | mergeToRuns others => ∀ a ∈ others, a.body.WellFormed
  | _ => True

/-- A segment is asked for that is not there. -/
def PastEnd {α : Type} (a : Address) : AddressCall α → Prop
  | ofBody call => call.PastEnd a.body
  | _ => False

/-- What the library yields: nothing only for a segment that is not there. -/
def outcome? {α : Type} (a : Address) : AddressCall α → Option α
  | ofBody call => call.outcome? a.body
  | lower => some a.lower
  | upper => some a.upper
  | setPrefixLen p => some (a.setPrefixLen p)
  | withoutPrefixLen => some a.withoutPrefixLen
  | withSingleBlockPrefix => some a.withSingleBlockPrefix?
  | toBlock => some a.toBlock
  | toBlockAt p => some (a.toBlockAt p)
  | toHost given => some (a.toHost given)
  | toHostAt given p strictness => some (a.toHostAt given p strictness)
  | applyMask op mask => some (a.applyMask op mask)
  | reverseBits => some a.reverseBits
  | reverseBytes => some a.reverseBytes
  | inter other => some (a.inter? other)
  | difference other => some (a.difference other)
  | toBlocks => some a.toBlocks
  | toRuns => some a.toRuns
  | cover => some a.cover
  | walk route calls => some ((a.walk fun s => s.walk route).handedOut calls)
  | compare other => some (Ord.compare a other)
  | host => some a.host?
  | hostOf version => some (a.hostOf? version)
  | text => some a.text
  | toBlocksTo other => some (a.toBlocksTo other)
  | coverTo other => some (a.coverTo other)
  | mergeToBlocks others => some (Address.mergeToBlocks (a :: others))
  | mergeToRuns others => some (Address.mergeToRuns (a :: others))

/-- What the machine does. -/
def run? {α : Type} (a : Address) : AddressCall α → Option α
  | ofBody call => call.run? a.body
  | lower => (lower? a.body).map a.wrap
  | upper => (upper? a.body).map a.wrap
  | setPrefixLen p => (setPrefixLen? a.body p).map (·.map a.wrap)
  | withoutPrefixLen => (withPrefix? a.body none).map a.wrap
  | withSingleBlockPrefix => (withSingleBlockPrefix? a.body).map (·.map a.wrap)
  | toBlock => (toBlock? a.body).map a.wrap
  | toBlockAt p => (toBlockAt? a.body p).map (·.map a.wrap)
  | toHost given => (toHost? a.body given).map (·.map a.wrap)
  | toHostAt given p strictness => (toHostAt? a.body given p strictness).map (·.map a.wrap)
  | applyMask op mask => (applyMask? a.body op mask.body).map (·.map a.wrap)
  | reverseBits => (reverseWith? a.body reverseBits?).map (·.map Address.ofSection)
  | reverseBytes => (reverseWith? a.body reverseBytes?).map (·.map Address.ofSection)
  | inter other => (inter? a.body other.body).map (·.map (·.map a.wrap))
  | difference other => (difference? a.body other.body).map (·.map (·.map a.wrap))
  | toBlocks => (toBlocks? a.body).map (·.map a.wrap)
  | toRuns => (toRuns? a.body).map (·.map a.wrap)
  | cover => (cover? a.body).map a.wrap
  | walk route calls => walk? (do return (← iteratorOf? a.body route).map a.wrap) calls
  | compare other => compareAddresses? a other
  | host => hostOf? a
  | hostOf version => do return (← hostOf? a).filter (·.version = version)
  | text => do return String.ofList (← Range.addressChars? a)
  | toBlocksTo other => between? Range.toBlocks? (·.map Address.ofSection) a other
  | coverTo other => between? Range.cover? Address.ofSection a other
  | mergeToBlocks others => merge? Range.toBlocks? (a :: others)
  | mergeToRuns others => merge? Range.toRuns? (a :: others)

variable {a : Address}

/-- Whether an address is a single one is asked before its value is computed. -/
theorem hostOf?_eq (ha : a.body.WellFormed) : Machine.hostOf? a = some a.host? := by
  rw [Machine.hostOf?, Address.host?]
  cases a.body.isMultiple
  · exact bind_eq (lowerAddress?_eq ha)
  · rfl

/-- The range between two addresses is one, so it can be split. -/
theorem between?_eq {α β : Type} {split? : AddressRange → Option α} {split : AddressRange → α}
    (hsplit : ∀ r : AddressRange, r.WellFormed → split? r = some (split r)) (wrap : α → β)
    {other : Address} (ha : a.body.WellFormed) (ho : other.body.WellFormed) :
    between? split? wrap a other
      = some ((AddressRange.ofAddresses a other).map fun r => wrap (split r)) := by
  rw [between?, bind_eq (Range.ofAddresses?_eq ha ho)]
  refine after?_eq_map fun r hr => ?_
  exact bind_eq (hsplit r (AddressRange.wellFormed_of_ofAddresses ha ho hr))

/-- **On an address, the machine does what the library does.** -/
theorem run?_eq {α : Type} (ha : a.body.WellFormed) (call : AddressCall α) (h : call.Valid) :
    call.run? a = call.outcome? a := by
  cases call with
  | ofBody call => exact call.run?_eq ha h
  | lower => exact congrArg (Option.map _) (lower?_eq ha)
  | upper => exact congrArg (Option.map _) (upper?_eq ha)
  | setPrefixLen p => exact congrArg (Option.map _) (setPrefixLen?_eq ha p)
  | withoutPrefixLen => exact congrArg (Option.map _) (withPrefix?_eq ha (by simp))
  | withSingleBlockPrefix => exact congrArg (Option.map _) (withSingleBlockPrefix?_eq ha)
  | toBlock => exact congrArg (Option.map _) (toBlock?_eq ha)
  | toBlockAt p => exact congrArg (Option.map _) (toBlockAt?_eq ha p)
  | toHost given => exact congrArg (Option.map _) (toHost?_eq ha given)
  | toHostAt given p strictness =>
      exact congrArg (Option.map _) (toHostAt?_eq ha given p strictness)
  | applyMask op mask => exact congrArg (Option.map _) (applyMask?_eq ha h op)
  | reverseBits => exact congrArg (Option.map _) (reverseBitsOf?_eq ha)
  | reverseBytes => exact congrArg (Option.map _) (reverseBytesOf?_eq ha)
  | inter other => exact congrArg (Option.map _) (inter?_eq ha h)
  | difference other => exact congrArg (Option.map _) (difference?_eq ha h)
  | toBlocks => exact congrArg (Option.map _) (toBlocks?_eq ha)
  | toRuns => exact congrArg (Option.map _) (toRuns?_eq ha)
  | cover => exact congrArg (Option.map _) (cover?_eq ha)
  | walk route calls =>
      obtain ⟨it, hbuilt, hruns⟩ := iteratorOf?_runs ha route
      have hmapped : (do return (← iteratorOf? a.body route).map a.wrap) = some (it.map a.wrap) :=
        bind_eq hbuilt
      exact walk?_eq ⟨_, hmapped, hruns.map _⟩ calls
  | compare other => exact bind_eq (compare?_eq ha h)
  | host => exact hostOf?_eq ha
  | hostOf version => exact bind_eq (hostOf?_eq ha)
  | text => exact bind_eq (Range.addressChars?_eq ha)
  | toBlocksTo other => exact between?_eq (fun _ => Range.toBlocks?_eq) _ ha h
  | coverTo other => exact between?_eq (fun _ => Range.cover?_eq) _ ha h
  | mergeToBlocks others => exact mergeToBlocks?_eq (List.forall_mem_cons.2 ⟨ha, h⟩)
  | mergeToRuns others => exact mergeToRuns?_eq (List.forall_mem_cons.2 ⟨ha, h⟩)

/-- Only a segment past the last one is not there. -/
theorem outcome?_eq_none_iff {α : Type} (call : AddressCall α) :
    call.outcome? a = none ↔ call.PastEnd a := by
  cases call with
  | ofBody call => exact call.outcome?_eq_none_iff
  | _ => simp [outcome?, PastEnd]

end AddressCall

/-! ## Calls on ranges -/

/-- The calls on a range, and what they yield. -/
inductive RangeCall : Type → Type where
  | isMultiple : RangeCall Bool
  | count : RangeCall Nat
  | containsValue (value : Nat) : RangeCall Bool
  | containsAddress (a : Address) : RangeCall Bool
  | contains (other : AddressRange) : RangeCall Bool
  | overlaps (other : AddressRange) : RangeCall Bool
  | touches (other : AddressRange) : RangeCall Bool
  | compare (other : AddressRange) : RangeCall Ordering
  | inter (other : AddressRange) : RangeCall (Option AddressRange)
  | hull (other : AddressRange) : RangeCall (Option AddressRange)
  | union (other : AddressRange) : RangeCall (Option AddressRange)
  | difference (other : AddressRange) : RangeCall (List AddressRange)
  | addresses (calls : List Walk.Call) : RangeCall (List Address)
  | prefixBlocks (p : Nat) (calls : List Walk.Call) : RangeCall (List Address)
  | prefixPieces (p : Nat) (calls : List Walk.Call) : RangeCall (List AddressRange)
  | toBlocks : RangeCall (List Section)
  | toRuns : RangeCall (List Section)
  | cover : RangeCall Section
  | toKey : RangeCall RangeKey
  | text : RangeCall String

namespace RangeCall

/-- Addresses and ranges among the arguments are valid. -/
def Valid {α : Type} : RangeCall α → Prop
  | containsAddress a => a.body.WellFormed
  | contains other | overlaps other | touches other | compare other | inter other | hull other
  | union other
  | difference other => other.WellFormed
  | _ => True

/-- What the library yields. -/
def outcome {α : Type} (r : AddressRange) : RangeCall α → α
  | isMultiple => r.isMultiple
  | count => r.count
  | containsValue value => r.containsValue value
  | containsAddress a => r.contains (AddressRange.ofSection a.body)
  | contains other => r.contains other
  | overlaps other => r.overlaps other
  | touches other => r.touches other
  | compare other => Ord.compare r other
  | inter other => r.inter? other
  | hull other => r.hull? other
  | union other => r.union? other
  | difference other => r.difference other
  | addresses calls => r.addresses.handedOut calls
  | prefixBlocks p calls => (r.prefixBlocks p).handedOut calls
  | prefixPieces p calls => (r.prefixPieces p).handedOut calls
  | toBlocks => r.toBlocks
  | toRuns => r.toRuns
  | cover => r.cover
  | toKey => r.toKey
  | text => r.text

/-- What the machine does. -/
def run? {α : Type} (r : AddressRange) : RangeCall α → Option α
  | isMultiple => some r.isMultiple
  | count => Range.count? r
  | containsValue value => some (r.containsValue value)
  | containsAddress a => Range.containsAddress? r a
  | contains other => some (r.contains other)
  | overlaps other => some (r.overlaps other)
  | touches other => some (Range.touches r other)
  | compare other => some (Ord.compare r other)
  | inter other => Range.inter? r other
  | hull other => Range.hull? r other
  | union other => Range.union? r other
  | difference other => Range.difference? r other
  | addresses calls => walk? (Range.addresses? r) calls
  | prefixBlocks p calls => walk? (Range.prefixBlocks? r p) calls
  | prefixPieces p calls => do
    handedOut? Iterator.hasNext? (Range.nextPiece? r) (← Range.prefixBlocks? r p) calls
  | toBlocks => Range.toBlocks? r
  | toRuns => Range.toRuns? r
  | cover => Range.cover? r
  | toKey => Range.toKey? r
  | text => Range.text? r

/-- **On a range, the machine does what the library does.** -/
theorem run?_eq {α : Type} {r : AddressRange} (hr : r.WellFormed) (call : RangeCall α)
    (h : call.Valid) :
    call.run? r = some (call.outcome r) := by
  cases call with
  | isMultiple => rfl
  | count => exact Range.count?_eq hr
  | containsValue value => rfl
  | containsAddress a => exact Range.containsAddress?_eq r h
  | contains other => rfl
  | overlaps other => rfl
  | touches other => exact congrArg some (Range.touches_eq hr h)
  | compare other => rfl
  | inter other => exact Range.inter?_eq hr h
  | hull other => exact Range.hull?_eq hr h
  | union other => exact Range.union?_eq hr h
  | difference other => exact Range.difference?_eq hr
  | addresses calls => exact walk?_eq (Range.addresses?_runs hr) calls
  | prefixBlocks p calls => exact walk?_eq (Range.prefixBlocks?_runs hr p) calls
  | prefixPieces p calls =>
      obtain ⟨blocks, hbuilt, hruns⟩ := Range.prefixPieces?_runs hr p
      exact (bind_eq hbuilt).trans ((Range.goesOn_pieces r).handedOut?_eq hruns calls)
  | toBlocks => exact Range.toBlocks?_eq hr
  | toRuns => exact Range.toRuns?_eq hr
  | cover => exact Range.cover?_eq hr
  | toKey => exact Range.toKey?_eq r
  | text => exact Range.text?_eq r

end RangeCall

/-! ## All calls -/

/-- A call, and what it yields. -/
inductive Call : Type → Type 1 where
  | build {α : Type} (call : BuildCall α) : Call α
  | onSection {α : Type} (s : Section) (call : SectionCall α) : Call α
  | onAddress {α : Type} (a : Address) (call : AddressCall α) : Call α
  | onRange {α : Type} (r : AddressRange) (call : RangeCall α) : Call α

namespace Call

variable {α : Type}

/-- All sections, addresses and ranges of the call are valid. -/
def Valid : Call α → Prop
  | build call => call.Valid
  | onSection s call => s.WellFormed ∧ call.Valid
  | onAddress a call => a.body.WellFormed ∧ call.Valid
  | onRange r call => r.WellFormed ∧ call.Valid

/-- A segment is asked for that is not there. -/
def PastEnd : Call α → Prop
  | onSection s call => call.PastEnd s
  | onAddress a call => call.PastEnd a
  | _ => False

/-- What the library yields: nothing only for a segment that is not there. -/
def outcome? : Call α → Option α
  | build call => some call.outcome
  | onSection s call => call.outcome? s
  | onAddress a call => call.outcome? a
  | onRange r call => some (call.outcome r)

/-- What the machine does. -/
def run? : Call α → Option α
  | build call => call.run?
  | onSection s call => call.run? s
  | onAddress a call => call.run? a
  | onRange r call => call.run? r

/-- Every call is carried out as in the library. -/
theorem run?_eq (call : Call α) (h : call.Valid) : call.run? = call.outcome? := by
  cases call with
  | build call => exact call.run?_eq h
  | onSection s call => exact call.run?_eq h.1 h.2
  | onAddress a call => exact call.run?_eq h.1 h.2
  | onRange r call => exact call.run?_eq h.1 h.2

/-- Nothing comes out only where a segment past the last one is asked for. -/
theorem outcome?_eq_none_iff (call : Call α) : call.outcome? = none ↔ call.PastEnd := by
  cases call with
  | build call => simp [outcome?, PastEnd]
  | onSection s call => exact call.outcome?_eq_none_iff
  | onAddress a call => exact call.outcome?_eq_none_iff
  | onRange r call => simp [outcome?, PastEnd]

/-- **Every valid call is carried out and yields what it does in the library**, but for a segment
that is not there: a call stops the machine exactly if it asks for one. -/
theorem run?_exact (call : Call α) (h : call.Valid) :
    call.run? = call.outcome? ∧ (call.run? = none ↔ call.PastEnd) := by
  have hrun := call.run?_eq h
  exact ⟨hrun, hrun ▸ call.outcome?_eq_none_iff⟩

/-- The blocks behind the lowest address of all, the host of a section at the largest prefix length
there is, and a segment past the last of an address with a zone. -/
theorem run?_exact_edges :
    let behind : Call (List Section) := onRange ⟨.v6, 1, 2 ^ 128 - 1⟩ .toBlocks
    let ragged : Section := ⟨.v4, [.single 10, ⟨33, 34⟩, .single 0, ⟨5, 9⟩], some 12⟩
    let hosts : Call (Except AddressError Section) := onSection ragged (.toHostAt .ones 255 .exact)
    let past : Call Segment := onAddress ⟨.ofHost ⟨.v6, 1⟩, some "eth0"⟩ (.ofBody (.segment 8))
    behind.Valid ∧ behind.run? ≠ none ∧ hosts.Valid ∧
      hosts.run? = some (ragged.toHostAt .ones 255 .exact) ∧
      past.Valid ∧ past.run? = none := by
  intro behind ragged hosts past
  have hbehind : behind.Valid := ⟨⟨by decide, by decide⟩, trivial⟩
  have hhosts : hosts.Valid := ⟨⟨by decide, by decide, by decide, by decide⟩, trivial⟩
  have hpast : past.Valid := ⟨Section.wellFormed_ofHost _, trivial⟩
  refine ⟨hbehind, fun hnone => (run?_exact behind hbehind).2.1 hnone, hhosts,
    (run?_exact hosts hhosts).1, hpast, (run?_exact past hpast).2.2 ?_⟩
  show Version.v6.segmentCount ≤ 8
  decide

end Call

end Machine

end IpSpace
