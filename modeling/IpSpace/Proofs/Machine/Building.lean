import IpSpace.Proofs.Keys
import IpSpace.Proofs.Machine.Lengths

/-!
# Building sections and writing them on the machine

A section is built of plain data after checks that may fail with an error. Whatever passes the
checks is a section, so what comes after them is carried out (`build?_eq`); this holds for any data,
as the checks are all there is to know about it.

Bytes are read into a word of 128 bits. The flat form of a section has eight slots, and the segments
that a version has are cut off its front. Writing a section down needs the lowest address as a
number of its version.
-/

namespace IpSpace

open AddressError

namespace Machine

variable {version : Version} {s : Section} {prefixLen : Option Nat} {p value : Nat}

/-! ## Checks -/

/-- A prefix length, if there is one, has to lie within the address. -/
def checkPrefix (version : Version) : Option Nat → Except AddressError Unit
  | some p => checkPrefixLen version p
  | none => .ok ()

/-- There have to be as many segments as the version has, all of its width. -/
def checkSegments (version : Version) (segments : List Segment) (prefixLen : Option Nat) :
    Except AddressError Unit :=
  if segments.length ≠ version.segmentCount then .error (.segmentCount version segments.length)
  else
    match segments.find? (·.width ≠ version.segmentBits) with
    | some odd => .error (.mixedWidth version odd.width)
    | none => checkPrefix version prefixLen

/-- The value has to be that of an address. -/
def checkValue (version : Version) (value : Nat) (prefixLen : Option Nat) :
    Except AddressError Unit :=
  if version.maxValue < value then .error (.valueTooLarge version value)
  else checkPrefix version prefixLen

/-- A section of segments is what the checks of the segments let through. -/
theorem ofSegments_eq_map (version : Version) (segments : List Segment) (prefixLen : Option Nat) :
    Section.ofSegments version segments prefixLen = (checkSegments version segments prefixLen).map
      fun _ => ⟨version, segments.map (·.bounds), prefixLen⟩ := by
  unfold Section.ofSegments checkSegments
  by_cases hlen : segments.length ≠ version.segmentCount
  · rw [if_pos hlen, if_pos hlen]
    rfl
  rw [if_neg hlen, if_neg hlen]
  cases segments.find? (·.width ≠ version.segmentBits) with
  | some odd =>
      rfl
  | none =>
      rcases prefixLen with - | p
      · rfl
      · show (checkPrefixLen version p >>= _) = (checkPrefixLen version p).map _
        rcases checkPrefixLen version p with cause | -
        · rfl
        · rfl

/-- The section of a value is what the check of the value lets through. -/
theorem ofValue_eq_map (version : Version) (value : Nat) (prefixLen : Option Nat) :
    Section.ofValue version value prefixLen = (checkValue version value prefixLen).map
      fun _ => Section.ofDigits version (version.split value) prefixLen := by
  unfold Section.ofValue checkValue
  by_cases hvalue : version.maxValue < value
  · rw [if_pos hvalue, if_pos hvalue]
    rfl
  rw [if_neg hvalue, if_neg hvalue]
  rcases prefixLen with - | p
  · rfl
  · show (checkPrefixLen version p >>= _) = (checkPrefixLen version p).map _
    rcases checkPrefixLen version p with cause | -
    · rfl
    · rfl

/-- **What passes the checks is put together.** -/
theorem build?_eq {check : Except AddressError Unit} {built : Except AddressError Section}
    (hbuilt : built = check.map fun _ => s) (hs : ∀ t, built = .ok t → t.WellFormed) :
    after? check (fun _ => do return .ok (← fromBounds? s.version s.bounds s.prefixLen)) =
      some built := by
  rw [hbuilt] at hs ⊢
  apply after?_eq_map
  intro u hpass
  have hwf : s.WellFormed := by
    apply hs
    rw [hpass]
    rfl
  rw [bind_eq (fromBounds?_eq hwf)]
  rfl

/-! ## Segments -/

/-- The segment with the given width, range and prefix length. -/
def buildSegment? (width : Nat) (b : Bounds) (prefixLen : Option Nat) :
    Option (Except AddressError Segment) :=
  if width ≠ 8 ∧ width ≠ 16 then some (.error (.segmentWidth width))
  else do
    let max ← maxSegment? width
    if b.upper < b.lower then return .error (.segmentOrder b)
    if max < b.upper then return .error (.segmentTooLarge b.upper width)
    match prefixLen with
    | some p =>
      if width < p then return .error (.segmentPrefix p width)
      else return .ok ⟨width, b, some p⟩
    | none => return .ok ⟨width, b, none⟩

/-- The width of a segment is checked before its greatest value is looked up. -/
theorem buildSegment?_eq (width : Nat) (b : Bounds) (prefixLen : Option Nat) :
    buildSegment? width b prefixLen = some (Segment.build width b prefixLen) := by
  have hisWidth : Segment.isWidth width = true ↔ width = 8 ∨ width = 16 := by
    rw [Segment.isWidth, Bool.or_eq_true, beq_iff_eq, beq_iff_eq]
    rfl
  unfold buildSegment? Segment.build
  by_cases hwidth : width ≠ 8 ∧ width ≠ 16
  · have hfalse : Segment.isWidth width = false := by
      rw [Bool.eq_false_iff, ne_eq, hisWidth]
      omega
    rw [if_pos hwidth, hfalse]
    rfl
  -- From here on the width is below that of the word, so the greatest value exists.
  have htrue : Segment.isWidth width = true := hisWidth.2 (by omega)
  rw [if_neg hwidth, htrue, bind_eq (maxSegment?_eq (by omega))]
  by_cases horder : b.upper < b.lower
  · rw [if_pos horder, if_pos horder]
    rfl
  rw [if_neg horder, if_neg horder]
  by_cases hupper : 2 ^ width - 1 < b.upper
  · rw [if_pos hupper, if_pos hupper]
    rfl
  rw [if_neg hupper, if_neg hupper]
  rcases prefixLen with - | p
  · rfl
  · by_cases hp : width < p
    · simp only [if_pos hp]
      rfl
    · simp only [if_neg hp]
      rfl

/-! ## Sections -/

/-- The section of the given segments. -/
def ofSegments? (version : Version) (segments : List Segment) (prefixLen : Option Nat) :
    Option (Except AddressError Section) :=
  after? (checkSegments version segments prefixLen) fun _ => do
    return .ok (← fromBounds? version (segments.map (·.bounds)) prefixLen)

/-- The section of the given ranges. -/
def ofBounds? (version : Version) (bounds : List Bounds) (prefixLen : Option Nat) :
    Option (Except AddressError Section) := do
  after? (← traverse? (fun b => buildSegment? version.segmentBits b none) bounds) fun segments =>
    ofSegments? version segments prefixLen

/-- The section of one address, by its segment values. -/
def ofValues? (version : Version) (values : List Nat) (prefixLen : Option Nat) :
    Option (Except AddressError Section) :=
  ofBounds? version (values.map fun value => ⟨value, value⟩) prefixLen

/-- The section of one address, by its value. -/
def ofValue? (version : Version) (value : Nat) (prefixLen : Option Nat) :
    Option (Except AddressError Section) :=
  after? (checkValue version value prefixLen) fun _ => do
    return .ok (← fromValueBounds? version value value prefixLen)

/-- The section of one address, by its bytes. -/
def ofBytes? (bytes : List Nat) (prefixLen : Option Nat) : Option (Except AddressError Section) :=
  match Version.ofByteCount? bytes.length with
  | some version => do ofValue? version (← joinDigits? 8 bytes) prefixLen
  | none => some (.error (.byteCount bytes.length))

/-- The section whose one address is the network mask of a prefix length. -/
def networkMaskOf? (version : Version) (p : Nat) : Option (Except AddressError Section) :=
  after? (checkPrefixLen version p) fun _ => do ofValue? version (← networkMask? version p) none

/-- The section whose one address is the host mask of a prefix length. -/
def hostMaskOf? (version : Version) (p : Nat) : Option (Except AddressError Section) :=
  after? (checkPrefixLen version p) fun _ => do ofValue? version (← hostMask? version p) none

/-- The section of a single address. -/
def ofHost? (a : HostAddress) : Option Section :=
  fromValueBounds? a.version a.value a.value none

/-- Segments that pass the checks are put together. -/
theorem ofSegments?_eq {segments : List Segment} (hsegments : ∀ g ∈ segments, g.WellFormed)
    (prefixLen : Option Nat) :
    ofSegments? version segments prefixLen = some (Section.ofSegments version segments prefixLen) :=
  build?_eq (s := ⟨version, segments.map Segment.bounds, prefixLen⟩)
    (ofSegments_eq_map version segments prefixLen) fun _ =>
      Section.wellFormed_of_ofSegments hsegments

/-- Bounds are checked segment by segment in front of the section. -/
theorem ofBounds?_eq (version : Version) (bounds : List Bounds) (prefixLen : Option Nat) :
    ofBounds? version bounds prefixLen = some (Section.ofBounds version bounds prefixLen) := by
  rw [ofBounds?, bind_eq (traverse?_eq fun b _ => buildSegment?_eq version.segmentBits b none),
    Section.ofBounds]
  apply after?_eq
  intro segments hmap
  refine ofSegments?_eq (fun g hg => ?_) prefixLen
  obtain ⟨b, -, hbuild⟩ := exists_of_mem_mapM_ok hmap hg
  exact Segment.wellFormed_of_build hbuild

theorem ofValues?_eq (version : Version) (values : List Nat) (prefixLen : Option Nat) :
    ofValues? version values prefixLen = some (Section.ofValues version values prefixLen) :=
  ofBounds?_eq version _ prefixLen

/-- Both ends of a single address have the same segments. -/
theorem fromValueBounds?_self (version : Version) (value : Nat) (prefixLen : Option Nat) :
    fromValueBounds? version value value prefixLen
      = fromBounds? version
        (Section.ofDigits version (version.split value) prefixLen).bounds prefixLen := by
  rw [fromValueBounds?, bind_eq (split?_eq version value), bind_eq (split?_eq version value),
    List.zipWith_self]
  rfl

/-- A value that passes the check is cut into segments of the address. -/
theorem ofValue?_eq (version : Version) (value : Nat) (prefixLen : Option Nat) :
    ofValue? version value prefixLen = some (Section.ofValue version value prefixLen) := by
  rw [ofValue?, fromValueBounds?_self]
  exact build?_eq (s := Section.ofDigits version (version.split value) prefixLen)
    (ofValue_eq_map version value prefixLen) fun _ => Section.wellFormed_of_ofValue

/-- The bytes are joined to a word of 128 bits, eight bits at a time. -/
theorem ofBytes?_eq {bytes : List Nat} (hbytes : ∀ byte ∈ bytes, byte < 2 ^ 8)
    (prefixLen : Option Nat) :
    ofBytes? bytes prefixLen = some (Section.ofBytes bytes prefixLen) := by
  have hword : joinDigits? 8 bytes = some (Digits.join 8 bytes) :=
    joinDigits?_eq (by decide) fun byte hmem => Nat.lt_trans (hbytes byte hmem) (by decide)
  rw [ofBytes?, Section.ofBytes]
  rcases Version.ofByteCount? bytes.length with - | version
  · rfl
  · show (joinDigits? 8 bytes >>= _) = _
    rw [bind_eq hword, ofValue?_eq]

/-- The section of a network mask is built of its value. -/
theorem networkMaskOf?_eq (version : Version) (p : Nat) :
    networkMaskOf? version p = some (Section.networkMask version p) := by
  apply after?_eq
  intro _ _
  rw [bind_eq (networkMask?_eq version p), ofValue?_eq]

theorem hostMaskOf?_eq (version : Version) (p : Nat) :
    hostMaskOf? version p = some (Section.hostMask version p) := by
  apply after?_eq
  intro _ _
  rw [bind_eq (hostMask?_eq version p), ofValue?_eq]

/-- The value of an address is a section of single segments. -/
theorem ofHost?_eq (a : HostAddress) : ofHost? a = some (Section.ofHost a) := by
  rw [ofHost?, fromValueBounds?_self]
  exact fromBounds?_eq (Section.wellFormed_ofHost a)

/-! ## Text -/

/-- The lowest address by itself, as a number of as many bits as its version has. -/
def lowerAddress? (s : Section) : Option HostAddress := do
  return ⟨s.version, truncate s.bitCount (← lowerValue? s)⟩

/-- The text without a prefix length. -/
def baseChars? (s : Section) : Option (List Char) := do
  if !s.isMultiple then return (← lowerAddress? s).chars
  if ← isSingleBlockOf? s then return (← lowerAddress? s).chars
  return s.segmentChars

/-- The text of the section. -/
def text? (s : Section) : Option String := do
  return String.ofList ((← baseChars? s) ++ s.prefixChars)

section Text

variable (hs : s.WellFormed)

include hs

/-- No bit of the lowest address is cut off. -/
theorem lowerAddress?_eq : lowerAddress? s = some s.lowerAddress := by
  have hlt : s.lowerValue < 2 ^ s.bitCount :=
    Nat.lt_of_le_of_lt (Section.lowerValue_le_maxValue hs) (Bits.two_pow_sub_one_lt (Nat.le_refl _))
  rw [lowerAddress?, bind_eq (lowerValue?_eq hs), truncate_eq hlt]
  rfl

/-- A single address and a block are written as their lowest address. -/
theorem baseChars?_eq : baseChars? s = some s.baseChars := by
  rw [baseChars?, bind_eq (isSingleBlockOf?_eq hs), bind_eq (lowerAddress?_eq hs),
    Section.baseChars]
  cases s.isMultiple
  · rfl
  · cases s.isSingleBlock
    · rfl
    · rfl

/-- **Writing a section down never stops.** -/
theorem text?_eq : text? s = some s.text := by
  rw [text?, bind_eq (baseChars?_eq hs)]
  rfl

end Text

/-! ## Keys -/

/-- The flat form of a section. -/
def toKey (s : Section) : AddressKey :=
  ⟨s.version, padKey (0, 0) (s.bounds.map fun b => (truncate 16 b.lower, truncate 16 b.upper)),
    s.prefixLen⟩

/-- The section with the given flat form. -/
def ofKey? (key : AddressKey) : Option (Except AddressError Section) :=
  after? (checkPadding key.version (key.segments.map fun (lower, upper) => max lower upper))
      fun _ => do
    let used ← upTo? key.segments key.version.segmentCount
    ofBounds? key.version (used.map fun (lower, upper) => ⟨lower, upper⟩) key.prefixLen

/-- No value of a segment is cut off in the flat form. -/
theorem toKey_eq (hs : s.WellFormed) : toKey s = s.toKey := by
  have hpairs : (s.bounds.map fun b => (truncate 16 b.lower, truncate 16 b.upper))
      = s.bounds.map fun b => (b.lower, b.upper) := by
    refine List.map_congr_left fun b hb => ?_
    have hwithin := hs.within b hb
    have hpow : 2 ^ s.version.segmentBits ≤ 2 ^ 16 :=
      Nat.pow_le_pow_right (by decide) (segmentBits_le _)
    have hupper : b.upper < 2 ^ 16 := Nat.lt_of_lt_of_le hwithin.upper_lt hpow
    rw [truncate_eq (Nat.lt_of_le_of_lt hwithin.lower_le_upper hupper), truncate_eq hupper]
  rw [toKey, hpairs]
  rfl

/-- The eight slots of a flat form are enough for the segments that are cut off its front. -/
theorem ofKey?_eq {key : AddressKey} (hkey : key.InLayout) :
    ofKey? key = some (Section.ofKey key) := by
  apply after?_eq
  intro _ _
  have hcut : key.version.segmentCount ≤ key.segments.length := by
    rw [hkey.length_segments]
    exact key.version.segmentCount_le
  rw [bind_eq (upTo?_eq hcut), ofBounds?_eq]

end Machine

end IpSpace
