import IpSpace.HostAddress
import IpSpace.Section.Basic

/-!
# The text of a section

A single address, or a section that is one network of its own prefix length, is written as the
address at its lower end. Any other section is written segment by segment, a segment with several
values as its two ends. The prefix length follows after a slash.
-/

namespace IpSpace

/-- The value of a segment, or its two ends, each written by `number`. -/
def Bounds.chars (b : Bounds) (number : Nat → List Char) : List Char :=
  if b.isMultiple then number b.lower ++ '-' :: number b.upper else number b.lower

namespace Section

/-- The lowest address by itself. -/
def lowerAddress (s : Section) : HostAddress :=
  ⟨s.version, s.lowerValue⟩

/-- The section segment by segment: IPv4 in decimal with points, IPv6 in hexadecimal with colons. -/
def segmentChars (s : Section) : List Char :=
  match s.version with
  | .v4 => List.intercalate ['.'] (s.bounds.map (·.chars Text.decimal))
  | .v6 => List.intercalate [':'] (s.bounds.map (·.chars Text.hexadecimal))

/-- The text without a prefix length. -/
def baseChars (s : Section) : List Char :=
  if !s.isMultiple || s.isSingleBlock then s.lowerAddress.chars else s.segmentChars

/-- A slash and the prefix length, if there is one. -/
def prefixChars (s : Section) : List Char :=
  match s.prefixLen with
  | some p => '/' :: Text.decimal p
  | none => []

/-- The characters of the section. -/
def chars (s : Section) : List Char :=
  s.baseChars ++ s.prefixChars

/-- The text of the section. -/
def text (s : Section) : String :=
  String.ofList s.chars

/-- The fields of the section, for diagnostics. -/
def debugText (s : Section) : String :=
  let pairs := s.bounds.map fun b => s!"({b.lower}, {b.upper})"
  let own := match s.prefixLen with
    | some p => s!"Some({p})"
    | none => "None"
  "Section \x7b version: " ++ s.version.tag ++ ", segments: [" ++ ", ".intercalate pairs
    ++ "], prefix_len: " ++ own ++ " \x7d"

end Section

end IpSpace
