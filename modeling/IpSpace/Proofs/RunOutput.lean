import IpSpace.CommandLine.Run
import IpSpace.Proofs.Building
import IpSpace.Proofs.FreeSpace

/-!
# What a run prints

A run reads a range list and reports on its ranges. In every mode but the one for conflicts the
report goes through the normal form of the ranges: the coalesced list itself, or what is split out
of its members, or what they leave free in a container. So two lists that cover the same addresses
have the same report, however they are written.

The normal form needs ranges of addresses. That everything read is one is shown first, from the
number that a text writes up to the whole list.
-/

namespace IpSpace

/-! ## What is read -/

namespace HostAddress

theorem lt_of_octet? {cs : List Char} {d : Nat} (h : octet? cs = some d) : d < 2 ^ 8 := by
  unfold octet? at h
  split at h
  · cases h
  · have hle := (Option.filter_eq_some_iff.1 h).2
    rw [decide_eq_true_eq] at hle
    exact Nat.lt_succ_of_le hle

/-- A dotted text writes an IPv4 address. -/
theorem le_maxValue_of_ofDotted? {cs : List Char} {value : Nat} (h : ofDotted? cs = some value) :
    value ≤ Version.v4.maxValue := by
  unfold ofDotted? at h
  obtain ⟨digits, hdigits, h⟩ := Option.bind_eq_some_iff.1 h
  split at h
  case isFalse => cases h
  case isTrue hlen =>
    have hfit : Digits.Fit Version.v4.segmentBits digits := by
      intro d hd
      obtain ⟨field, -, hfield⟩ := exists_of_mem_mapM_some hdigits hd
      exact lt_of_octet? hfield
    cases h
    exact Version.join_le_maxValue hlen hfit

/-- What is read is an address of its version. -/
theorem le_maxValue_of_ofChars? {cs : List Char} {a : HostAddress} (h : ofChars? cs = some a) :
    a.value ≤ a.version.maxValue := by
  unfold ofChars? at h
  split at h
  · obtain ⟨digits, -, rfl⟩ := Option.map_eq_some_iff.1 h
    exact Version.le_maxValue_iff.2 (Digits.join_lt 16 digits)
  · obtain ⟨value, hvalue, rfl⟩ := Option.map_eq_some_iff.1 h
    exact le_maxValue_of_ofDotted? hvalue

end HostAddress

namespace Entry

/-- The address that an entry consists of is an address of its version. -/
theorem le_maxValue_of_ofChars?_single {cs : List Char} {a : HostAddress}
    (h : ofChars? cs = some (single a)) : a.value ≤ a.version.maxValue := by
  unfold ofChars? at h
  obtain ⟨b, hb, h⟩ := Option.bind_eq_some_iff.1 h
  split at h
  · cases h
    exact HostAddress.le_maxValue_of_ofChars? hb
  · obtain ⟨p, -, h⟩ := Option.map_eq_some_iff.1 h
    cases h
  · obtain ⟨c, -, h⟩ := Option.map_eq_some_iff.1 h
    cases h
  · cases h

/-- An entry that is read stands for a range of addresses. -/
theorem wellFormed_range {cs : List Char} {e : Entry} {r : AddressRange}
    (hread : ofChars? cs = some e) (h : e.range = .ok r) : r.WellFormed := by
  cases e with
  | single a =>
      cases h
      exact ⟨Nat.le_refl _, le_maxValue_of_ofChars?_single hread⟩
  | block a p =>
      obtain ⟨s, hs, h⟩ := bind_eq_ok_iff.1 h
      cases h
      obtain ⟨hp, rfl⟩ := Section.toBlockAt_eq_ok_iff.1 hs
      exact Section.wellFormed_ofSection
        (Section.wellFormed_blockAt (Section.wellFormed_ofHost a) hp)
  | between a b =>
      exact AddressRange.wellFormed_of_ofAddresses (Section.wellFormed_ofHost a)
        (Section.wellFormed_ofHost b) h

end Entry

namespace RangeList

/-- A line that holds an entry stands for a range of addresses. -/
theorem wellFormed_of_ofLine {line : Nat} {text : List Char} {r : AddressRange}
    (h : ofLine line text = .ok (some r)) : r.WellFormed := by
  unfold ofLine at h
  simp only at h
  split at h
  case isTrue => cases h
  case isFalse =>
    cases hentry : Entry.ofChars? (entryPart text) with
    | none =>
        rw [hentry] at h
        cases h
    | some e =>
        rw [hentry] at h
        cases hrange : e.range with
        | error cause => simp [hrange] at h
        | ok s =>
            simp only [hrange, Except.ok.injEq, Option.some.injEq] at h
            exact h ▸ Entry.wellFormed_range hentry hrange

/-- Every range of a list is a range of addresses. -/
theorem wellFormed_of_ofLines {line : Nat} {texts : List (List Char)} {ranges : List AddressRange}
    (h : ofLines line texts = .ok ranges) : ∀ r ∈ ranges, r.WellFormed := by
  induction texts generalizing line ranges with
  | nil =>
      cases h
      exact List.forall_mem_nil _
  | cons text texts ih =>
      obtain ⟨found, hfound, h⟩ := bind_eq_ok_iff.1 h
      obtain ⟨rest, hrest, h⟩ := bind_eq_ok_iff.1 h
      cases h
      refine List.forall_mem_append.2 ⟨fun r hr => ?_, ih hrest⟩
      rw [Option.mem_toList] at hr
      exact wellFormed_of_ofLine (hr ▸ hfound)

theorem wellFormed_of_ofBytes {bytes : ByteArray} {ranges : List AddressRange}
    (h : ofBytes bytes = .ok ranges) : ∀ r ∈ ranges, r.WellFormed := by
  unfold ofBytes at h
  split at h
  · exact wellFormed_of_ofLines h
  · cases h

theorem wellFormed_of_single {text : List Char} {r : AddressRange} (h : single text = .ok r) :
    r.WellFormed := by
  obtain ⟨found, hfound, h⟩ := bind_eq_ok_iff.1 h
  split at h
  · cases h
    exact wellFormed_of_ofLine hfound
  · cases h

end RangeList

/-! ## What is reported -/

namespace Arguments

variable {ranges others : List AddressRange}

/-- Two command lines ask for the same report: the same mode and form, and in the mode for gaps the
same container. Where the list comes from and what is logged may differ. -/
structure SameReport (a b : Arguments) : Prop where
  mode_eq : a.mode = b.mode
  json_eq : a.json = b.json
  within_eq : a.mode = .gaps → a.within = b.within

/-- The containing range that was asked for is a range of addresses. -/
theorem wellFormed_of_container {a : Arguments} {container : AddressRange}
    (h : a.container = .ok container) : container.WellFormed := by
  unfold Arguments.container at h
  split at h
  · cases h
  · rename_i text hwithin
    cases hsingle : RangeList.single text.toList with
    | error e =>
        rw [hsingle] at h
        cases h
    | ok r =>
        rw [hsingle] at h
        cases h
        exact RangeList.wellFormed_of_single hsingle

/-- The report depends on nothing but what the ranges cover. -/
theorem report_eq_of_covered_eq {a b : Arguments} (hsame : a.SameReport b)
    (hmode : a.mode ≠ .conflicts)
    (highlight : Bool) (hranges : ∀ r ∈ ranges, r.WellFormed) (hothers : ∀ r ∈ others, r.WellFormed)
    (hcovered : ∀ version, AddressRange.covered ranges version =
      AddressRange.covered others version) :
    a.report highlight ranges = b.report highlight others := by
  have hcoalesce : AddressRange.coalesce ranges = AddressRange.coalesce others :=
    (AddressRange.coalesce_eq_coalesce_iff hranges hothers).2 hcovered
  unfold report splitRanges
  rw [← hsame.mode_eq, ← hsame.json_eq, hcoalesce]
  cases hm : a.mode with
  | merge => rfl
  | blocks => rfl
  | runs => rfl
  | gaps =>
      have hcontainer : a.container = b.container := by
        rw [container, container, hsame.within_eq hm]
      rw [← hcontainer]
      cases hc : a.container with
      | error e => rfl
      | ok container =>
          have hgaps := freeSpace_eq_of_covered_eq (wellFormed_of_container hc) hranges hothers
            (hcovered container.version)
          simp only [bind, Except.bind, hgaps]
  | conflicts => exact absurd hm hmode

/-- There is a report, unless the mode for gaps lacks a container. -/
theorem exists_report {a : Arguments}
    (h : a.mode = .gaps → ∃ container, a.container = .ok container)
    (highlight : Bool) (ranges : List AddressRange) :
    ∃ lines, a.report highlight ranges = .ok lines := by
  unfold report
  cases hm : a.mode with
  | merge => exact ⟨_, rfl⟩
  | blocks => exact ⟨_, rfl⟩
  | runs => exact ⟨_, rfl⟩
  | gaps =>
      obtain ⟨container, hc⟩ := h hm
      rw [hc]
      exact ⟨_, rfl⟩
  | conflicts => exact ⟨_, rfl⟩

/-- A run on a list that is read prints its report. -/
theorem run_eq {a : Arguments} {highlight : Bool} {list : ByteArray}
    (h : RangeList.ofBytes list = .ok ranges) : a.run highlight list
      = (a.report highlight ranges).map fun lines =>
        String.ofList (lines.flatMap fun line => line ++ ['\n']) := by
  unfold run
  rw [h]
  cases hreport : a.report highlight ranges with
  | error e => simp [hreport, bind, Except.bind, Except.mapError, Except.map]
  | ok lines => simp [hreport, bind, Except.bind, Except.mapError, Except.map, pure, Except.pure]

/-- **What a run prints depends on nothing but the addresses that its list covers.** Two lists that
are read without error and cover the same addresses of either version give the same output, in every
mode but the one for conflicts, in either form. There is an output unless the mode for gaps lacks a
container. -/
theorem run_eq_of_covered_eq (a b : Arguments) (hsame : a.SameReport b)
    (hmode : a.mode ≠ .conflicts)
    (highlight : Bool) (first second : ByteArray) (ranges others : List AddressRange)
    (hfirst : RangeList.ofBytes first = .ok ranges)
    (hsecond : RangeList.ofBytes second = .ok others)
    (hcovered : ∀ version, AddressRange.covered ranges version =
      AddressRange.covered others version) :
    a.run highlight first = b.run highlight second ∧
      ((a.mode = .gaps → ∃ container, a.container = .ok container) →
        ∃ output, a.run highlight first = .ok output) := by
  rw [run_eq hfirst, run_eq hsecond]
  constructor
  · rw [report_eq_of_covered_eq hsame hmode highlight (RangeList.wellFormed_of_ofBytes hfirst)
      (RangeList.wellFormed_of_ofBytes hsecond) hcovered]
  · intro hcontainer
    obtain ⟨lines, hlines⟩ := exists_report hcontainer highlight ranges
    rw [hlines]
    exact ⟨_, rfl⟩

/-- Lists with the same addresses, one of them shuffled, commented, split and with an address twice,
leave the same gaps. -/
theorem run_eq_of_covered_eq_shuffled :
    let a : Arguments := ⟨.gaps, some "list.txt", some "10.0.0.0/16", true, none⟩
    let b : Arguments := ⟨.gaps, none, some "10.0.0.0/16", true, some "log.yaml"⟩
    let first := "10.0.0.0/24\nfe80::1-fe80::3\n".toUTF8
    let second :=
      "fe80::2/127\r\n\n10.0.0.128 - 10.0.0.255\n fe80::1 # a\n10.0.0.9\n10.0.0.3/25".toUTF8
    a.SameReport b ∧ ∃ output, a.run false first = .ok output ∧
      b.run false second = .ok output := by
  intro a b first second
  have hsame : a.SameReport b := ⟨rfl, rfl, fun _ => rfl⟩
  have hfirst : RangeList.ofBytes first = .ok [⟨.v4, 0xa000000, 0xa0000ff⟩,
      ⟨.v6, 0xfe80 * 2 ^ 112 + 1, 0xfe80 * 2 ^ 112 + 3⟩] := by decide +kernel
  have hsecond : RangeList.ofBytes second = .ok [⟨.v6, 0xfe80 * 2 ^ 112 + 2, 0xfe80 * 2 ^ 112 + 3⟩,
      ⟨.v4, 0xa000080, 0xa0000ff⟩, ⟨.v6, 0xfe80 * 2 ^ 112 + 1, 0xfe80 * 2 ^ 112 + 1⟩,
      ⟨.v4, 0xa000009, 0xa000009⟩, ⟨.v4, 0xa000000, 0xa00007f⟩] := by decide +kernel
  have hcovered : ∀ version, AddressRange.covered
      [⟨.v4, 0xa000000, 0xa0000ff⟩, ⟨.v6, 0xfe80 * 2 ^ 112 + 1, 0xfe80 * 2 ^ 112 + 3⟩] version
        = AddressRange.covered [⟨.v6, 0xfe80 * 2 ^ 112 + 2, 0xfe80 * 2 ^ 112 + 3⟩,
          ⟨.v4, 0xa000080, 0xa0000ff⟩, ⟨.v6, 0xfe80 * 2 ^ 112 + 1, 0xfe80 * 2 ^ 112 + 1⟩,
          ⟨.v4, 0xa000009, 0xa000009⟩, ⟨.v4, 0xa000000, 0xa00007f⟩] version := by
    intro version
    ext x
    simp only [AddressRange.mem_covered_cons, AddressRange.mem_values, AddressRange.covered_nil]
    cases version with
    | v4 =>
        simp
        omega
    | v6 =>
        simp
        omega
  have hcontainer : a.container = .ok ⟨.v4, 0xa000000, 0xa00ffff⟩ := by decide +kernel
  obtain ⟨heq, houtput⟩ := run_eq_of_covered_eq a b hsame (by decide) false first second _ _ hfirst
    hsecond hcovered
  obtain ⟨output, houtput⟩ := houtput fun _ => ⟨_, hcontainer⟩
  exact ⟨hsame, output, houtput, heq ▸ houtput⟩

end Arguments

end IpSpace
