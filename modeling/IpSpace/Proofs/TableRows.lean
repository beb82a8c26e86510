import IpSpace.Proofs.EntryLines
import IpSpace.Proofs.SectionText
import IpSpace.Report.Table
import Mathlib.Order.Interval.Set.Nat

/-!
# Rows of the table of ranges

A row keeps what it is made of. No text in it has a comma or a quote, so the row is cut at its
commas into one quoted field per text, whatever the widths of the columns
(`Report.forall₂_isField_row`); and the two ends of a range with a hyphen between are an entry that
is read back as the range (`AddressRange.single_ends`), since no address has a blank, a hyphen or a
number sign in it.
-/

namespace IpSpace

namespace Report

/-! ## Fields -/

/-- A field with the given text: blanks, and the text between quotes, with no other quote. -/
def IsField (text cs : List Char) : Prop :=
  '"' ∉ text ∧ ∃ n, cs = List.replicate n ' ' ++ '"' :: (text ++ ['"'])

variable {text : List Char}

theorem isField_field (h : '"' ∉ text) (width : Nat) : IsField text (field text width) :=
  ⟨h, _, rfl⟩

theorem comma_not_mem_field (h : ',' ∉ text) (width : Nat) : ',' ∉ field text width := by
  simp [field, List.mem_replicate, h]

/-- **A row is cut at its commas into its fields**, if the texts have neither commas nor quotes. -/
theorem forall₂_isField_row {fields : List (List Char × Nat)} (hne : fields ≠ [])
    (hcomma : ∀ f ∈ fields, ',' ∉ f.1) (hquote : ∀ f ∈ fields, '"' ∉ f.1) :
    List.Forall₂ IsField (fields.map (·.1)) ((row fields).splitOn ',') := by
  have hcut : (row fields).splitOn ',' = fields.map fun f => field f.1 f.2 := by
    refine List.splitOn_intercalate ',' ?_ (mt List.map_eq_nil_iff.1 hne)
    exact List.forall_mem_map.2 fun f hf => comma_not_mem_field (hcomma f hf) f.2
  rw [hcut, List.forall₂_map_left_iff, List.forall₂_map_right_iff, List.forall₂_same]
  exact fun f hf => isField_field (hquote f hf) f.2

/-- The row of a range stands in the table behind the heading and the rows before it. -/
theorem getElem?_rangeTable {ranges : List AddressRange} {i : Nat} {r : AddressRange}
    (h : ranges[i]? = some r) : (rangeTable ranges)[i + 1]? = some (rangeRow i r) := by
  rw [rangeTable, List.getElem?_cons_succ, List.getElem?_mapIdx, h]
  rfl

end Report

/-! ## Addresses in a row -/

namespace HostAddress

/-- Only characters of addresses stand in the text of an address. -/
theorem not_mem_chars {c : Char} (hc : Entry.isAddressChar c = false) (a : HostAddress) :
    c ∉ a.chars := fun h =>
  Bool.false_ne_true (hc.symm.trans (isAddressChar_of_mem_chars h))

end HostAddress

/-- An address by itself is written as such. -/
theorem Address.chars_ofHost {a : HostAddress} (h : a.value ≤ a.version.maxValue) :
    (Address.ofHost a).chars = a.chars := by
  have hwf := Section.wellFormed_ofHost a
  obtain ⟨hlower, hupper⟩ := Section.ends_ofHost h
  have hsingle : (Section.ofHost a).isMultiple = false := by
    rw [Section.isMultiple_eq_false_iff hwf, hlower, hupper]
  have haddress : (Section.ofHost a).lowerAddress = a := by
    rw [Section.lowerAddress, hlower]
    rfl
  show (Section.ofHost a).chars = a.chars
  rw [Section.chars_of_prefixLen_eq_none rfl, hsingle, haddress]
  rfl

/-! ## Reading back the ends of a range -/

namespace AddressRange

variable {r : AddressRange}

/-- **A range is read back from its two ends** with a hyphen between. -/
theorem single_ends (hr : r.WellFormed) :
    RangeList.single (HostAddress.chars ⟨r.version, r.lower⟩
      ++ '-' :: HostAddress.chars ⟨r.version, r.upper⟩) = .ok r := by
  generalize hlower : (⟨r.version, r.lower⟩ : HostAddress) = a
  generalize hupper : (⟨r.version, r.upper⟩ : HostAddress) = b
  have ha : HostAddress.ofChars? a.chars = some a := by
    apply HostAddress.ofChars?_chars
    rw [← hlower]
    exact Nat.le_trans hr.lower_le_upper hr.upper_le_max
  have hb : HostAddress.ofChars? b.chars = some b := by
    apply HostAddress.ofChars?_chars
    rw [← hupper]
    exact hr.upper_le_max
  -- Neither end has a blank or a number sign in its text, so nothing is cut off.
  have hentry : RangeList.entryPart (a.chars ++ '-' :: b.chars) = a.chars ++ '-' :: b.chars := by
    apply RangeList.entryPart_eq_self
    · have hblank : ∀ a : HostAddress, ∀ c ∈ a.chars, ¬ Text.isBlank c := fun a c hc =>
        Entry.not_isBlank_of_isAddressChar (HostAddress.isAddressChar_of_mem_chars hc)
      rw [List.forall_mem_append, List.forall_mem_cons]
      exact ⟨hblank a, by decide, hblank b⟩
    · have hhash := HostAddress.not_mem_chars (c := '#') (by decide)
      simp [hhash a, hhash b]
  have hwritten : Entry.Written (a.chars ++ '-' :: b.chars) (.between a b) := by
    have hblanks : ∀ c ∈ ([] : List Char), Text.isBlank c := List.forall_mem_nil _
    simpa using Entry.Written.between ha hblanks hblanks hb
  have hdenotes : (Entry.between a b).Denotes r := by
    rw [← hlower, ← hupper]
    refine ⟨rfl, rfl, ?_⟩
    rw [Nat.min_eq_left hr.lower_le_upper, Nat.max_eq_right hr.lower_le_upper]
    rfl
  have hline : RangeList.ofLine 1 (a.chars ++ '-' :: b.chars) = .ok (some r) := by
    rw [RangeList.ofLine_eq_range_iff, hentry]
    exact ⟨hr, _, hwritten, hdenotes⟩
  rw [RangeList.single, hline]
  rfl

/-- A range counts its addresses. -/
theorem ncard_values (hr : r.WellFormed) : r.values.ncard = r.count := by
  have hle := hr.lower_le_upper
  rw [values, Set.ncard_Icc_nat, count]
  omega

end AddressRange

/-! ## Rows of ranges -/

/-- **A row of the table of ranges keeps the range.** Cut at its commas, the row of the range at
place `i` has four fields, in which these texts stand between quotes behind any number of blanks:
the place in decimal, the lowest address, the highest address, and the number of addresses in
decimal, all of them whole. From the two addresses with a hyphen between, the range is read back. -/
theorem Report.rangeRow_exact (i : Nat) (r : AddressRange) (hr : r.WellFormed) :
    let lower := HostAddress.chars ⟨r.version, r.lower⟩
    let upper := HostAddress.chars ⟨r.version, r.upper⟩
    (∀ ranges, ranges[i]? = some r → (rangeTable ranges)[i + 1]? = some (rangeRow i r)) ∧
      List.Forall₂ IsField [Text.decimal i, lower, upper, Text.decimal r.values.ncard]
        ((rangeRow i r).splitOn ',') ∧
      RangeList.single (lower ++ '-' :: upper) = .ok r := by
  intro lower upper
  refine ⟨fun ranges => getElem?_rangeTable, ?_, AddressRange.single_ends hr⟩
  have hfirst : r.first.chars = lower :=
    Address.chars_ofHost (Nat.le_trans hr.lower_le_upper hr.upper_le_max)
  have hlast : r.last.chars = upper := Address.chars_ofHost hr.upper_le_max
  have htexts : ∀ c, Text.hexDigit? c = none → Entry.isAddressChar c = false →
      ∀ f ∈ [(Text.decimal i, 6), (lower, 22), (upper, 22), (Text.decimal r.count, 14)],
        c ∉ f.1 := by
    intro c hdigit haddress
    have hnumber := Version.v4.not_mem_numeral hdigit
    simp only [List.forall_mem_cons]
    exact ⟨hnumber i, HostAddress.not_mem_chars haddress _, HostAddress.not_mem_chars haddress _,
      hnumber r.count, List.forall_mem_nil _⟩
  rw [rangeRow, hfirst, hlast, AddressRange.ncard_values hr]
  exact forall₂_isField_row (List.cons_ne_nil _ _) (htexts ',' (by decide) (by decide))
    (htexts '"' (by decide) (by decide))

/-- The number of all IPv6 addresses and the highest of them are wider than their columns. -/
theorem Report.rangeRow_exact_wide :
    let r : AddressRange := ⟨.v6, 0, 2 ^ 128 - 1⟩
    r.WellFormed ∧ (rangeTable [r])[1]? = some (rangeRow 0 r) ∧
      List.Forall₂ IsField
        ["0".toList, "::".toList, "ffff:ffff:ffff:ffff:ffff:ffff:ffff:ffff".toList,
          "340282366920938463463374607431768211456".toList] ((rangeRow 0 r).splitOn ',') ∧
      RangeList.single "::-ffff:ffff:ffff:ffff:ffff:ffff:ffff:ffff".toList = .ok r := by
  intro r
  have hr : r.WellFormed := by decide
  have hlower : HostAddress.chars ⟨.v6, 0⟩ = "::".toList := by decide
  have hupper : HostAddress.chars ⟨.v6, 2 ^ 128 - 1⟩
      = "ffff:ffff:ffff:ffff:ffff:ffff:ffff:ffff".toList := by decide
  have hcount : Text.decimal r.values.ncard
      = "340282366920938463463374607431768211456".toList := by
    rw [AddressRange.ncard_values hr]
    decide
  obtain ⟨htable, hfields, hread⟩ := rangeRow_exact 0 r hr
  rw [hcount] at hfields
  simp only [r, hlower, hupper] at hfields hread
  exact ⟨hr, htable [r] rfl, hfields, hread⟩

end IpSpace
