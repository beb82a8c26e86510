import IpSpace.CommandLine.Run
import IpSpace.Proofs.AddressText
import IpSpace.Proofs.Building
import IpSpace.Proofs.SectionSpans
import IpSpace.Section.Text

/-!
# Reading back a list of blocks

The prefix blocks of a list of ranges, written one on a line, are themselves a range list, and one
with the same coalesced ranges.

A block is written as its lowest address and its prefix length. The address ends at the slash, since
a slash is no character of addresses; what is read is the entry of a block, and the block of this
length around the lowest address of a block is the block (`Section.range_block`). No character of
the text begins a comment, ends a line or is trimmed (`IsPlain`), so a line is read as the entry it
was written for, and a list of lines as the list of their entries. The ranges read are then those of
the blocks, which cover what the ranges before covered.
-/

namespace IpSpace

/-! ## Characters of an entry -/

/-- A character from the point to the letters of hexadecimal digits: it is neither blank nor a line
feed, and begins no comment. -/
def IsPlain (c : Char) : Prop :=
  '.'.toNat ≤ c.toNat ∧ c.toNat ≤ 'f'.toNat

instance : DecidablePred IsPlain :=
  fun c => inferInstanceAs (Decidable ('.'.toNat ≤ c.toNat ∧ c.toNat ≤ 'f'.toNat))

theorem IsPlain.not_isBlank {c : Char} (h : IsPlain c) : ¬ Text.isBlank c := by
  have hlower : 0x2e ≤ c.toNat := h.1
  have hupper : c.toNat ≤ 0x66 := h.2
  simp only [Text.isBlank, Bool.or_eq_true, Bool.and_eq_true, decide_eq_true_eq, beq_iff_eq]
  omega

theorem IsPlain.ne_hash {c : Char} (h : IsPlain c) : c ≠ '#' := by
  rintro rfl
  exact absurd h.1 (by decide)

theorem IsPlain.ne_lineFeed {c : Char} (h : IsPlain c) : c ≠ '\n' := by
  rintro rfl
  exact absurd h.1 (by decide)

/-- Characters between plain ones are plain. -/
theorem IsPlain.between {a b c : Char} (ha : IsPlain a) (hb : IsPlain b) (hac : a ≤ c)
    (hcb : c ≤ b) : IsPlain c :=
  ⟨Nat.le_trans ha.1 (UInt32.le_iff_toNat_le.1 hac),
    Nat.le_trans (UInt32.le_iff_toNat_le.1 hcb) hb.2⟩

/-- Decimal digits are plain. -/
theorem isPlain_of_isDigit {c : Char} (h : c.isDigit) : IsPlain c := by
  simp only [Char.isDigit, Bool.and_eq_true, decide_eq_true_eq] at h
  exact .between (a := '0') (b := '9') (by decide) (by decide) h.1 h.2

/-- The characters of addresses are plain. -/
theorem isPlain_of_isAddressChar {c : Char} (h : Entry.isAddressChar c) : IsPlain c := by
  unfold Entry.isAddressChar Text.hexDigit? at h
  by_cases hdigit : c.isDigit
  · exact isPlain_of_isDigit hdigit
  by_cases hlower : 'a' ≤ c ∧ c ≤ 'f'
  · exact .between (a := 'a') (b := 'f') (by decide) (by decide) hlower.1 hlower.2
  by_cases hupper : 'A' ≤ c ∧ c ≤ 'F'
  · exact .between (a := 'A') (b := 'F') (by decide) (by decide) hupper.1 hupper.2
  · simp [hdigit, hlower, hupper] at h
    obtain rfl | rfl := h
    · decide
    · decide

/-- Trimming leaves a text without blanks as it is. -/
theorem trimFront_eq_self {cs : List Char} (h : ∀ c ∈ cs, ¬ Text.isBlank c) :
    Text.trimFront cs = cs := by
  cases cs with
  | nil => rfl
  | cons c cs => simp [Text.trimFront, h c List.mem_cons_self]

theorem trim_eq_self {cs : List Char} (h : ∀ c ∈ cs, ¬ Text.isBlank c) : Text.trim cs = cs := by
  have hreverse : ∀ c ∈ cs.reverse, ¬ Text.isBlank c := fun c hc => h c (List.mem_reverse.1 hc)
  rw [Text.trim, trimFront_eq_self h, trimFront_eq_self hreverse, List.reverse_reverse]

/-- A line without blanks and number signs is its entry. -/
theorem RangeList.entryPart_eq_self {cs : List Char} (hblank : ∀ c ∈ cs, ¬ Text.isBlank c)
    (hhash : '#' ∉ cs) : entryPart cs = cs := by
  have hwhole : cs.takeWhile (· != '#') = cs :=
    List.takeWhile_eq_self_iff.2 fun c hc => bne_iff_ne.2 (ne_of_mem_of_not_mem hc hhash)
  rw [entryPart, hwhole, trim_eq_self hblank]

/-! ## Addresses and prefix lengths in an entry -/

namespace HostAddress

theorem isAddressChar_of_mem_dotted {digits : List Nat} {c : Char} (hc : c ∈ dotted digits) :
    Entry.isAddressChar c := by
  obtain hc | rfl := mem_dotted hc
  · simp [Entry.isAddressChar, Text.hexDigit?, hc]
  · decide

theorem isAddressChar_of_mem_groups {digits : List Nat} {c : Char} (hc : c ∈ groups digits) :
    Entry.isAddressChar c := by
  obtain hc | rfl := mem_groups hc
  · simp [Entry.isAddressChar, hc]
  · decide

theorem isAddressChar_of_mem_compressed {digits : List Nat} {c : Char}
    (hc : c ∈ compressed digits) : Entry.isAddressChar c := by
  unfold compressed at hc
  simp only at hc
  split at hc
  · exact isAddressChar_of_mem_groups hc
  · rw [List.mem_append, List.mem_append] at hc
    obtain (hc | hc) | hc := hc
    · exact isAddressChar_of_mem_groups hc
    · have hcolons : [':', ':'].all Entry.isAddressChar = true := by decide
      exact List.all_eq_true.1 hcolons c hc
    · exact isAddressChar_of_mem_groups hc

/-- An address is written with the characters of addresses. -/
theorem isAddressChar_of_mem_chars {a : HostAddress} {c : Char} (hc : c ∈ a.chars) :
    Entry.isAddressChar c := by
  obtain ⟨version, value⟩ := a
  cases version with
  | v4 => exact isAddressChar_of_mem_dotted hc
  | v6 =>
      unfold chars at hc
      simp only at hc
      split at hc
      · obtain hc | hc := List.mem_append.1 hc
        · have hmapping : "::ffff:".toList.all Entry.isAddressChar = true := by decide
          exact List.all_eq_true.1 hmapping c hc
        · exact isAddressChar_of_mem_dotted hc
      · exact isAddressChar_of_mem_compressed hc

end HostAddress

namespace Entry

/-- A prefix length is read back. -/
theorem ofPrefixLen?_decimal {p : Nat} (hp : p ≤ 255) : ofPrefixLen? (Text.decimal p) = some p := by
  have hne : Text.decimal p ≠ [] := Nat.toDigits_ne_nil
  have hlen : (Text.decimal p).length ≤ 3 :=
    (Nat.length_toDigits_le_iff (by decide) (by decide)).2 (by omega)
  unfold ofPrefixLen?
  rw [if_neg (by simp only [List.isEmpty_iff, hne, false_or]; omega), Text.ofDecimal?_decimal]
  simp [hp]

/-- An address and a prefix length with a slash between are read back as the entry of a block. -/
theorem ofChars?_block {a : HostAddress} {p : Nat} (ha : a.value ≤ a.version.maxValue)
    (hp : p ≤ 255) : ofChars? (a.chars ++ '/' :: Text.decimal p) = some (block a p) := by
  have hslash : ¬ isAddressChar '/' := by decide
  have htake : (a.chars ++ '/' :: Text.decimal p).takeWhile isAddressChar = a.chars := by
    rw [List.takeWhile_append_of_pos fun c => HostAddress.isAddressChar_of_mem_chars,
      List.takeWhile_cons_of_neg hslash, List.append_nil]
  have hdrop : (a.chars ++ '/' :: Text.decimal p).dropWhile isAddressChar
      = '/' :: Text.decimal p := by
    rw [List.dropWhile_append_of_pos fun c => HostAddress.isAddressChar_of_mem_chars,
      List.dropWhile_cons_of_neg hslash]
  have hdigits : ∀ c ∈ Text.decimal p, ¬ Text.isBlank c := fun c hc =>
    (isPlain_of_isDigit (Text.isDigit_of_mem hc)).not_isBlank
  have hrest : Text.trimFront ('/' :: Text.decimal p) = '/' :: Text.decimal p :=
    trimFront_eq_self (List.forall_mem_cons.2 ⟨by decide, hdigits⟩)
  unfold ofChars?
  rw [htake, hdrop, hrest, HostAddress.ofChars?_chars a ha]
  simp [trimFront_eq_self hdigits, ofPrefixLen?_decimal hp]

end Entry

/-! ## Blocks in an entry -/

namespace Section

variable {b : Section} {p : Nat}

/-- The block that an entry stands for whose address is the lowest of a prefix block of that length
is the prefix block. -/
theorem range_block (hb : b.IsPrefixBlock p) :
    (Entry.block b.lowerAddress p).range = .ok (AddressRange.ofSection b) := by
  have hbounds : (b.lower.blockAt p).bounds = b.bounds :=
    isSingleBlockAt_iff_bounds.1 ((isSingleBlockAt_iff hb.wellFormed hb.prefixLen_le).2 hb)
  have hhost : ((ofHost b.lowerAddress).blockAt p).bounds = b.bounds := by
    rw [← hbounds, lower, ← split_lowerValue hb.wellFormed]
    rfl
  have hblock : (ofHost b.lowerAddress).toBlockAt p = .ok ((ofHost b.lowerAddress).blockAt p) :=
    toBlockAt_eq_ok_iff.2 ⟨hb.prefixLen_le, rfl⟩
  have hrange : AddressRange.ofSection ((ofHost b.lowerAddress).blockAt p)
      = AddressRange.ofSection b := by
    simp only [AddressRange.ofSection, lowerValue, upperValue, hhost]
    rfl
  simp only [Entry.range, hblock]
  exact congrArg Except.ok hrange

/-- A prefix block that carries its length is written as its lowest address and this length. -/
theorem chars_of_isPrefixBlock (hp : b.prefixLen = some p) (hb : b.IsPrefixBlock p) :
    b.chars = b.lowerAddress.chars ++ '/' :: Text.decimal p := by
  have hsingle : b.isSingleBlock = true := by
    rw [isSingleBlock, atOwnPrefix, hp]
    exact (isSingleBlockAt_iff hb.wellFormed hb.prefixLen_le).2 hb
  rw [chars, baseChars, prefixChars, hsingle, Bool.or_true, if_pos rfl, hp]

theorem bitCount_le (s : Section) : s.bitCount ≤ 128 := by
  unfold bitCount
  cases s.version <;> decide

theorem chars_ne_nil (hp : b.prefixLen = some p) (hb : b.IsPrefixBlock p) : b.chars ≠ [] := by
  rw [chars_of_isPrefixBlock hp hb]
  simp

/-- The text of a prefix block that carries its length is plain. -/
theorem isPlain_of_mem_chars (hp : b.prefixLen = some p) (hb : b.IsPrefixBlock p) {c : Char}
    (hc : c ∈ b.chars) : IsPlain c := by
  rw [chars_of_isPrefixBlock hp hb, List.mem_append, List.mem_cons] at hc
  obtain hc | rfl | hc := hc
  · exact isPlain_of_isAddressChar (HostAddress.isAddressChar_of_mem_chars hc)
  · decide
  · exact isPlain_of_isDigit (Text.isDigit_of_mem hc)

/-- **A prefix block is read back from its text.** -/
theorem ofLine_chars (hp : b.prefixLen = some p) (hb : b.IsPrefixBlock p) (line : Nat) :
    RangeList.ofLine line b.chars = .ok (some (AddressRange.ofSection b)) := by
  have hplain : ∀ c ∈ b.chars, IsPlain c := fun c => isPlain_of_mem_chars hp hb
  have hentry : RangeList.entryPart b.chars = b.chars :=
    RangeList.entryPart_eq_self (fun c hc => (hplain c hc).not_isBlank)
      fun hhash => (hplain _ hhash).ne_hash rfl
  have hlower : b.lowerAddress.value ≤ b.lowerAddress.version.maxValue :=
    lowerValue_le_maxValue hb.wellFormed
  have hle : p ≤ 255 := Nat.le_trans hb.prefixLen_le (Nat.le_trans b.bitCount_le (by decide))
  have hread : Entry.ofChars? b.chars = some (.block b.lowerAddress p) := by
    rw [chars_of_isPrefixBlock hp hb]
    exact Entry.ofChars?_block hlower hle
  have hne : ¬ b.chars.isEmpty := by
    rw [List.isEmpty_iff]
    exact chars_ne_nil hp hb
  unfold RangeList.ofLine
  simp only [hentry, if_neg hne, hread, range_block hb]

end Section

/-! ## Lines -/

namespace RangeList

/-- A plain text holds no line feed. -/
theorem lineFeed_not_mem {l : List Char} (h : ∀ c ∈ l, IsPlain c) : '\n' ∉ l :=
  fun hmem => (h _ hmem).ne_lineFeed rfl

/-- The line up to a line feed comes first. -/
theorem lines_append {l : List Char} (h : '\n' ∉ l) (rest : List Char) :
    lines (l ++ '\n' :: rest) = l :: lines rest := by
  induction l with
  | nil => simp [lines]
  | cons c l ih =>
      rw [List.mem_cons, not_or] at h
      rw [List.cons_append, lines, if_neg (Ne.symm h.1), ih h.2]

/-- Lines that are written with a line feed behind each are read back. -/
theorem lines_flatMap {ls : List (List Char)} (h : ∀ l ∈ ls, ∀ c ∈ l, IsPlain c) :
    lines (ls.flatMap fun l => l ++ ['\n']) = ls := by
  induction ls with
  | nil => rfl
  | cons l ls ih =>
      rw [List.forall_mem_cons] at h
      rw [List.flatMap_cons, List.append_assoc, List.singleton_append,
        lines_append (lineFeed_not_mem h.1), ih h.2]

/-- A last line needs no line feed, unless it is empty. -/
theorem lines_eq_singleton {l : List Char} (h : '\n' ∉ l) (hne : l ≠ []) : lines l = [l] := by
  induction l with
  | nil => exact absurd rfl hne
  | cons c l ih =>
      rw [List.mem_cons, not_or] at h
      rw [lines, if_neg (Ne.symm h.1)]
      by_cases hnil : l = []
      · rw [hnil]
        rfl
      · rw [ih h.2 hnil]

/-- Lines that are written with a line feed between them are read back. -/
theorem lines_intercalate {ls : List (List Char)} (h : ∀ l ∈ ls, ∀ c ∈ l, IsPlain c)
    (hne : ∀ l ∈ ls, l ≠ []) : lines (List.intercalate ['\n'] ls) = ls := by
  induction ls with
  | nil => rfl
  | cons l ls ih =>
      rw [List.forall_mem_cons] at h hne
      cases ls with
      | nil => rw [List.intercalate_singleton, lines_eq_singleton (lineFeed_not_mem h.1) hne.1]
      | cons l' ls =>
          rw [List.intercalate_cons_cons, List.append_assoc, List.singleton_append,
            lines_append (lineFeed_not_mem h.1), ih h.2 hne.2]

/-- Lines that each hold an entry are read as the ranges of the entries. -/
theorem ofLines_map {α : Type} {chars : α → List Char} {range : α → AddressRange} {l : List α}
    (h : ∀ a ∈ l, ∀ line, ofLine line (chars a) = .ok (some (range a))) (line : Nat) :
    ofLines line (l.map chars) = .ok (l.map range) := by
  induction l generalizing line with
  | nil => rfl
  | cons a l ih =>
      rw [List.forall_mem_cons] at h
      rw [List.map_cons, ofLines, h.1 line, ih h.2]
      rfl

end RangeList

/-! ## Lists of blocks -/

namespace AddressRange

variable {ranges : List AddressRange}

/-- The blocks of coalesced ranges are prefix blocks that carry their length. -/
theorem isPrefixBlock_of_mem_splitRanges (h : ∀ r ∈ ranges, r.WellFormed) {b : Section}
    (hb : b ∈ Arguments.splitRanges ranges toBlocks) :
    ∃ p, b.prefixLen = some p ∧ b.IsPrefixBlock p := by
  obtain ⟨r, hr, hbr⟩ := List.mem_flatMap.1 hb
  exact (isPrefixBlock_of_mem_toBlocks (wellFormed_of_mem_coalesce h r hr) hbr).2

/-- The blocks of coalesced ranges cover what the ranges cover. -/
theorem covered_map_ofSection (h : ∀ r ∈ ranges, r.WellFormed) (version : Version) :
    covered ((Arguments.splitRanges ranges toBlocks).map ofSection) version
      = covered ranges version := by
  rw [← covered_coalesce h version]
  ext x
  constructor
  · rintro ⟨_, hmem, rfl, hx⟩
    obtain ⟨b, hb, rfl⟩ := List.mem_map.1 hmem
    obtain ⟨r, hr, hbr⟩ := List.mem_flatMap.1 hb
    have hwf := wellFormed_of_mem_coalesce h r hr
    obtain ⟨hversion, p, -, hblock⟩ := isPrefixBlock_of_mem_toBlocks hwf hbr
    refine ⟨r, hr, hversion.symm, ?_⟩
    rw [← (isSplit_toBlocks hwf).union_eq (Section.isIntervalKind_isBlockOf r.version)]
    exact ⟨b, hbr, hblock.isInterval.symm ▸ hx⟩
  · rintro ⟨r, hr, rfl, hx⟩
    have hwf := wellFormed_of_mem_coalesce h r hr
    rw [← (isSplit_toBlocks hwf).union_eq (Section.isIntervalKind_isBlockOf r.version)] at hx
    obtain ⟨b, hbr, hxb⟩ := hx
    obtain ⟨hversion, p, -, hblock⟩ := isPrefixBlock_of_mem_toBlocks hwf hbr
    refine ⟨ofSection b, List.mem_map_of_mem (List.mem_flatMap.2 ⟨r, hr, hbr⟩), hversion, ?_⟩
    rwa [hblock.isInterval] at hxb

/-- **The blocks of a list of ranges, written one on a line, are read back.** The list that is read
has the range of each block, in the order of the blocks, whether the last line ends with a line feed
or not; and it has the same coalesced ranges as the list that was written, for ranges of either
version and in any order, overlapping or not. -/
theorem coalesce_of_block_lines (ranges : List AddressRange) (h : ∀ r ∈ ranges, r.WellFormed) :
    let blocks := Arguments.splitRanges ranges toBlocks
    RangeList.ofChars (blocks.flatMap fun b => b.chars ++ ['\n']) = .ok (blocks.map ofSection) ∧
      RangeList.ofChars (List.intercalate ['\n'] (blocks.map Section.chars))
        = .ok (blocks.map ofSection) ∧
      coalesce (blocks.map ofSection) = coalesce ranges := by
  intro blocks
  have hblock : ∀ b ∈ blocks, ∃ p, b.prefixLen = some p ∧ b.IsPrefixBlock p := fun b =>
    isPrefixBlock_of_mem_splitRanges h
  have hplain : ∀ l ∈ blocks.map Section.chars, ∀ c ∈ l, IsPlain c := by
    refine List.forall_mem_map.2 fun b hb c hc => ?_
    obtain ⟨p, hp, hpb⟩ := hblock b hb
    exact Section.isPlain_of_mem_chars hp hpb hc
  -- However the lines are put together, a text with these lines is read as the blocks.
  have hread : ∀ text, RangeList.lines text = blocks.map Section.chars →
      RangeList.ofChars text = .ok (blocks.map ofSection) := by
    intro text hlines
    rw [RangeList.ofChars, hlines]
    refine RangeList.ofLines_map (fun b hb line => ?_) 1
    obtain ⟨p, hp, hpb⟩ := hblock b hb
    exact Section.ofLine_chars hp hpb line
  refine ⟨hread _ ?_, hread _ (RangeList.lines_intercalate hplain ?_), ?_⟩
  · rw [← RangeList.lines_flatMap hplain, List.flatMap_map]
  · refine List.forall_mem_map.2 fun b hb => ?_
    obtain ⟨p, hp, hpb⟩ := hblock b hb
    exact Section.chars_ne_nil hp hpb
  · have hwf : ∀ r ∈ blocks.map ofSection, r.WellFormed := by
      refine List.forall_mem_map.2 fun b hb => ?_
      obtain ⟨p, -, hpb⟩ := hblock b hb
      exact Section.wellFormed_ofSection hpb.wellFormed
    exact (coalesce_eq_coalesce_iff hwf h).2 (covered_map_ofSection h)

/-- A mapped IPv6 address, all others of its version and a few IPv4 addresses, out of order and
overlapping, are blocks that are read back. -/
theorem coalesce_of_block_lines_mixed :
    let ranges : List AddressRange := [⟨.v6, 0xffff00000001, 0xffff00000001⟩, ⟨.v4, 7, 300⟩,
      ⟨.v6, 0, 2 ^ 128 - 1⟩, ⟨.v4, 5, 9⟩, ⟨.v4, 2 ^ 32 - 1, 2 ^ 32 - 1⟩]
    (∀ r ∈ ranges, r.WellFormed) ∧ ∃ parsed,
      RangeList.ofChars ((Arguments.splitRanges ranges toBlocks).flatMap fun b =>
        b.chars ++ ['\n']) = .ok parsed ∧ coalesce parsed = coalesce ranges := by
  intro ranges
  have hwf : ∀ r ∈ ranges, r.WellFormed := by decide
  obtain ⟨hparsed, -, hcoalesce⟩ := coalesce_of_block_lines ranges hwf
  exact ⟨hwf, _, hparsed, hcoalesce⟩

end AddressRange

end IpSpace
