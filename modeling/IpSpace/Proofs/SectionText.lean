import IpSpace.Proofs.BlockLists

/-!
# The texts of sections

Two sections without a prefix length have different texts, whatever their versions
(`Section.text_injective_exact`). The text of a single address is read back as the address. Any
other section is written segment by segment, and is told apart from an address by its hyphens: no
address has one (`HostAddress.hyphen_not_mem_chars`). The segments can be cut out of their text
because no number and no hyphen is a separator, and the separator tells the version
(`Version.separator_not_mem_numeral`). Within a segment, the two ends can be cut out because no
number has a hyphen in it.
-/

namespace IpSpace

/-! ## Specification -/

namespace Version

/-- How the values of segments are written: in decimal for IPv4, in lower-case hexadecimal for
IPv6. -/
def numeral : Version → Nat → List Char
  | v4 => Text.decimal
  | v6 => Text.hexadecimal

/-- What stands between segments: a point for IPv4, a colon for IPv6. -/
def separator : Version → Char
  | v4 => '.'
  | v6 => ':'

end Version

/-- A segment is written as its value, or as its lower value, a hyphen and its upper value. -/
inductive Bounds.IsWritten (number : Nat → List Char) : Bounds → List Char → Prop
  | single (d : Nat) : IsWritten number (single d) (number d)
  | between {l u : Nat} (h : l < u) : IsWritten number ⟨l, u⟩ (number l ++ '-' :: number u)

/-- A section without a prefix length is written as the address that it holds alone, or as its
segments with separators between. -/
inductive Section.IsWritten (s : Section) : List Char → Prop
  | address {x : Nat} (hx : s.values = {x}) : IsWritten s (HostAddress.chars ⟨s.version, x⟩)
  | segments {fields : List (List Char)} (hmany : ¬ ∃ x, s.values = {x})
      (hfields : List.Forall₂ (Bounds.IsWritten s.version.numeral) s.bounds fields) :
      IsWritten s (List.intercalate [s.version.separator] fields)

/-! ## Numbers and separators -/

namespace Text

theorem decimal_injective : Function.Injective decimal := by
  intro a b h
  have hread := ofDecimal?_decimal a
  rw [h, ofDecimal?_decimal] at hread
  exact (Option.some.inj hread).symm

theorem hexadecimal_injective : Function.Injective hexadecimal := by
  intro a b h
  have hread := ofHexadecimal?_hexadecimal a
  rw [h, ofHexadecimal?_hexadecimal] at hread
  exact (Option.some.inj hread).symm

end Text

namespace Version

/-- Different values of a segment are written differently. -/
theorem numeral_injective (version : Version) : Function.Injective version.numeral := by
  cases version with
  | v4 => exact Text.decimal_injective
  | v6 => exact Text.hexadecimal_injective

/-- Numbers are written with the digits of addresses, among which there is no mark. -/
theorem not_mem_numeral {c : Char} (hc : Text.hexDigit? c = none) (version : Version) (n : Nat) :
    c ∉ version.numeral n := by
  intro hmem
  cases version with
  | v4 =>
      have hdigit := Text.isDigit_of_mem hmem
      simp [Text.hexDigit?, hdigit] at hc
  | v6 =>
      have hdigit := Text.isSome_hexDigit?_of_mem hmem
      simp [hc] at hdigit

/-- No value of a segment is written with a hyphen. -/
theorem hyphen_not_mem_numeral (version : Version) (n : Nat) : '-' ∉ version.numeral n :=
  not_mem_numeral (by decide) version n

/-- No value of a segment is written with a separator of either version. -/
theorem separator_not_mem_numeral (a b : Version) (n : Nat) : a.separator ∉ b.numeral n :=
  not_mem_numeral (by cases a <;> decide) b n

theorem separator_ne_hyphen (version : Version) : version.separator ≠ '-' := by
  cases version <;> decide

/-- The two versions have different separators. -/
theorem separator_injective : Function.Injective separator := by
  rintro (_ | _) (_ | _) h
  · rfl
  · cases h
  · cases h
  · rfl

end Version

/-- Fields without separators in them are known from what they make up. -/
theorem eq_of_intercalate_eq {sep : Char} {fields others : List (List Char)}
    (hfields : ∀ field ∈ fields, sep ∉ field) (hothers : ∀ field ∈ others, sep ∉ field)
    (hne : fields ≠ []) (hne' : others ≠ [])
    (h : List.intercalate [sep] fields = List.intercalate [sep] others) : fields = others := by
  rw [← List.splitOn_intercalate sep hfields hne, h, List.splitOn_intercalate sep hothers hne']

/-- The characters of a field stand in what the fields make up. -/
theorem mem_intercalate_of_mem {sep c : Char} {fields : List (List Char)} {field : List Char}
    (hfield : field ∈ fields) (hc : c ∈ field) : c ∈ List.intercalate [sep] fields := by
  induction fields with
  | nil => cases hfield
  | cons first fields ih =>
      cases fields with
      | nil =>
          rw [List.mem_singleton.1 hfield] at hc
          rwa [List.intercalate_singleton]
      | cons next rest =>
          rw [List.intercalate_cons_cons, List.mem_append]
          rcases List.mem_cons.1 hfield with rfl | hrest
          · exact .inl (List.mem_append_left _ hc)
          · exact .inr (ih hrest)

theorem HostAddress.hyphen_not_mem_chars (a : HostAddress) : '-' ∉ a.chars := fun h =>
  absurd (isAddressChar_of_mem_chars h) (by decide)

/-! ## Segments -/

namespace Bounds

variable {version : Version} {a b : Bounds}

/-- The numbers that a segment is written with. -/
def ends (b : Bounds) : List Nat :=
  if b.isMultiple then [b.lower, b.upper] else [b.lower]

/-- The text of a segment is that of its ends, with a hyphen between them. -/
theorem chars_eq_intercalate (number : Nat → List Char) (b : Bounds) :
    b.chars number = List.intercalate ['-'] (b.ends.map number) := by
  unfold chars ends
  split <;> simp [List.intercalate_cons_cons, List.intercalate_singleton]

theorem eq_of_ends_eq (h : a.ends = b.ends) : a = b := by
  obtain ⟨al, au⟩ := a
  obtain ⟨bl, bu⟩ := b
  simp only [ends, isMultiple, bne_iff_ne, ne_eq] at h
  by_cases ha : al = au <;> by_cases hb : bl = bu <;> simp_all

/-- **A segment is known from its text.** -/
theorem eq_of_chars_eq (h : a.chars version.numeral = b.chars version.numeral) : a = b := by
  have hhyphen : ∀ b : Bounds, ∀ field ∈ b.ends.map version.numeral, '-' ∉ field := fun b =>
    List.forall_mem_map.2 fun n _ => version.hyphen_not_mem_numeral n
  have hne : ∀ b : Bounds, b.ends.map version.numeral ≠ [] := by
    intro b
    unfold ends
    split <;> simp
  rw [chars_eq_intercalate, chars_eq_intercalate] at h
  have hends := eq_of_intercalate_eq (hhyphen a) (hhyphen b) (hne a) (hne b) h
  exact eq_of_ends_eq (version.numeral_injective.list_map hends)

/-- A segment is written in one way only. -/
theorem isWritten_iff {number : Nat → List Char} (hb : b.lower ≤ b.upper) {cs : List Char} :
    b.IsWritten number cs ↔ cs = b.chars number := by
  constructor
  · rintro (d | h)
    · simp [chars, single, isMultiple]
    · simp [chars, isMultiple, Nat.ne_of_lt h]
  · rintro rfl
    obtain ⟨l, u⟩ := b
    rcases Nat.lt_or_eq_of_le hb with hlt | heq
    · have hchars : IsWritten number ⟨l, u⟩ _ := .between hlt
      simpa [chars, isMultiple, Nat.ne_of_lt hlt] using hchars
    · cases heq
      have hchars : IsWritten number (single l) _ := .single l
      simpa [chars, single, isMultiple] using hchars

/-- Fields in which segments are written are the texts of the segments. -/
theorem forall₂_isWritten_iff {number : Nat → List Char} {bs : List Bounds}
    (hbs : ∀ b ∈ bs, b.lower ≤ b.upper) {fields : List (List Char)} :
    List.Forall₂ (IsWritten number) bs fields ↔ fields = bs.map (·.chars number) := by
  induction bs generalizing fields with
  | nil => exact List.forall₂_nil_left_iff
  | cons b bs ih =>
      rw [List.forall_mem_cons] at hbs
      cases fields with
      | nil => simp
      | cons field fields =>
          rw [List.forall₂_cons, isWritten_iff hbs.1, ih hbs.2, List.map_cons, List.cons_eq_cons]

/-- A character of a segment is the hyphen or stands in one of its numbers. -/
theorem eq_or_mem_of_mem_chars {number : Nat → List Char} {c : Char} (hc : c ∈ b.chars number) :
    c = '-' ∨ ∃ n, c ∈ number n := by
  rw [chars_eq_intercalate] at hc
  refine (eq_or_mem_of_mem_intercalate hc).imp_right ?_
  rintro ⟨field, hfield, hc⟩
  obtain ⟨n, -, rfl⟩ := List.mem_map.1 hfield
  exact ⟨n, hc⟩

end Bounds

/-! ## Sections -/

namespace Section

variable {s t : Section}

/-- The text of the segments is that of each, with separators between them. -/
theorem segmentChars_eq (s : Section) : s.segmentChars
    = List.intercalate [s.version.separator] (s.bounds.map (·.chars s.version.numeral)) := by
  unfold segmentChars
  cases s.version <;> rfl

/-- No segment has a separator of either version in it. -/
theorem separator_not_mem_chars (version : Version) (b : Bounds) (s : Section) :
    version.separator ∉ b.chars s.version.numeral := by
  intro h
  rcases Bounds.eq_or_mem_of_mem_chars h with h | ⟨n, h⟩
  · exact version.separator_ne_hyphen h
  · exact version.separator_not_mem_numeral s.version n h

theorem bounds_ne_nil (hs : s.WellFormed) : s.bounds ≠ [] := by
  apply List.ne_nil_of_length_pos
  rw [hs.length_bounds]
  cases s.version <;> decide

/-- The separator stands in the text of segments, and that of the other version does not. -/
theorem separator_mem_segmentChars_iff (hs : s.WellFormed) {version : Version} :
    version.separator ∈ s.segmentChars ↔ version = s.version := by
  rw [segmentChars_eq]
  constructor
  · intro h
    rcases eq_or_mem_of_mem_intercalate h with h | ⟨field, hfield, h⟩
    · exact Version.separator_injective h
    · obtain ⟨b, -, rfl⟩ := List.mem_map.1 hfield
      exact absurd h (separator_not_mem_chars version b s)
  · rintro rfl
    have hlen : 2 ≤ s.bounds.length := by
      rw [hs.length_bounds]
      cases s.version <;> decide
    match s.bounds, hlen with
    | a :: b :: bs, _ => simp [List.intercalate_cons_cons]

/-- **A section is known from the text of its segments**, but for its prefix length. -/
theorem eq_of_segmentChars_eq (hs : s.WellFormed) (ht : t.WellFormed)
    (h : s.segmentChars = t.segmentChars) : s.version = t.version ∧ s.bounds = t.bounds := by
  have hversion : s.version = t.version := by
    rw [← separator_mem_segmentChars_iff ht, ← h, separator_mem_segmentChars_iff hs]
  have hfields : ∀ u : Section, ∀ field ∈ u.bounds.map (·.chars u.version.numeral),
      u.version.separator ∉ field := fun u =>
    List.forall_mem_map.2 fun b _ => separator_not_mem_chars u.version b u
  rw [segmentChars_eq, segmentChars_eq, hversion] at h
  have heq := eq_of_intercalate_eq (hversion ▸ hfields s) (hfields t)
    (mt List.map_eq_nil_iff.1 (bounds_ne_nil hs)) (mt List.map_eq_nil_iff.1 (bounds_ne_nil ht)) h
  refine ⟨hversion, List.map_injective_iff.2 (fun a b => Bounds.eq_of_chars_eq) heq⟩

/-- Segments are written with a hyphen if one of them has several values. -/
theorem hyphen_mem_segmentChars (hs : s.isMultiple = true) : '-' ∈ s.segmentChars := by
  obtain ⟨b, hb, hmultiple⟩ := List.any_eq_true.1 hs
  rw [segmentChars_eq]
  refine mem_intercalate_of_mem (List.mem_map_of_mem hb) ?_
  rw [Bounds.chars, if_pos hmultiple]
  exact List.mem_append_right _ List.mem_cons_self

/-- Without a prefix length, a section is written as its address, if it is the only one, or as its
segments. -/
theorem chars_of_prefixLen_eq_none (hp : s.prefixLen = none) :
    s.chars = if s.isMultiple then s.segmentChars else s.lowerAddress.chars := by
  have hblock : s.isSingleBlock = false := by rw [isSingleBlock, atOwnPrefix, hp, Option.any_none]
  rw [chars, baseChars, prefixChars, hp, hblock, Bool.or_false, List.append_nil]
  cases s.isMultiple <;> rfl

/-- A single address is known from its text. -/
theorem eq_of_lowerAddress_chars_eq (hs : s.WellFormed) (ht : t.WellFormed)
    (h : s.lowerAddress.chars = t.lowerAddress.chars) :
    s.version = t.version ∧ s.lowerValue = t.lowerValue := by
  have hread := HostAddress.ofChars?_chars s.lowerAddress (lowerValue_le_maxValue hs)
  rw [h, HostAddress.ofChars?_chars t.lowerAddress (lowerValue_le_maxValue ht)] at hread
  have heq := Option.some.inj hread
  exact ⟨congrArg HostAddress.version heq.symm, congrArg HostAddress.value heq.symm⟩

/-- **A section without a prefix length is known from its text.** -/
theorem eq_of_chars_eq (hs : s.WellFormed) (ht : t.WellFormed) (hsp : s.prefixLen = none)
    (htp : t.prefixLen = none) (h : s.chars = t.chars) : s = t := by
  have hparts : s.version = t.version ∧ s.bounds = t.bounds := by
    rw [chars_of_prefixLen_eq_none hsp, chars_of_prefixLen_eq_none htp] at h
    cases hsm : s.isMultiple <;> cases htm : t.isMultiple <;>
      simp only [hsm, htm, reduceIte, Bool.false_eq_true] at h
    case true.true => exact eq_of_segmentChars_eq hs ht h
    case true.false =>
      exact absurd (h ▸ hyphen_mem_segmentChars hsm) (HostAddress.hyphen_not_mem_chars _)
    case false.true =>
      exact absurd (h ▸ hyphen_mem_segmentChars htm) (HostAddress.hyphen_not_mem_chars _)
    case false.false =>
      obtain ⟨hversion, hlower⟩ := eq_of_lowerAddress_chars_eq hs ht h
      refine ⟨hversion, bounds_eq_of_values_eq hs ht hversion ?_⟩
      rw [(values_eq_singleton_iff hs).2 ⟨hsm, rfl⟩, (values_eq_singleton_iff ht).2 ⟨htm, rfl⟩,
        hlower]
  cases s
  cases t
  simp_all

/-- **A section without a prefix length is written as its shape says**, and in no other way. -/
theorem isWritten_iff (hs : s.WellFormed) (hp : s.prefixLen = none) {cs : List Char} :
    s.IsWritten cs ↔ cs = s.chars := by
  rw [chars_of_prefixLen_eq_none hp]
  constructor
  · rintro (hx | ⟨hmany, hfields⟩)
    · obtain ⟨hsm, rfl⟩ := (values_eq_singleton_iff hs).1 hx
      simp only [hsm, Bool.false_eq_true, reduceIte]
      rfl
    · have hsm : s.isMultiple = true := by
        by_contra hsm
        exact hmany ⟨_, (values_eq_singleton_iff hs).2 ⟨Bool.eq_false_iff.2 hsm, rfl⟩⟩
      rw [if_pos hsm, segmentChars_eq, (Bounds.forall₂_isWritten_iff hs.lower_le_upper).1 hfields]
  · rintro rfl
    cases hsm : s.isMultiple with
    | false => exact .address ((values_eq_singleton_iff hs).2 ⟨hsm, rfl⟩)
    | true =>
        rw [if_pos rfl, segmentChars_eq]
        refine .segments ?_ ((Bounds.forall₂_isWritten_iff hs.lower_le_upper).2 rfl)
        rintro ⟨x, hx⟩
        exact Bool.false_ne_true (((values_eq_singleton_iff hs).1 hx).1.symm.trans hsm)

/-- **The text of a section without a prefix length determines it**, among sections of both
versions. A single address is written as such, any other section segment by segment, with points
between decimal numbers for IPv4 and with colons between lower-case hexadecimal numbers for IPv6. -/
theorem text_injective_exact (s t : Section) (hs : s.WellFormed) (ht : t.WellFormed)
    (hsp : s.prefixLen = none) (htp : t.prefixLen = none) :
    (s.text = t.text → s = t) ∧ ∀ cs, s.text = String.ofList cs ↔ s.IsWritten cs := by
  refine ⟨fun h => eq_of_chars_eq hs ht hsp htp (String.ofList_injective h), fun cs => ?_⟩
  rw [isWritten_iff hs hsp, text, String.ofList_inj, eq_comm]

/-- The address that maps 1.2.3.4 differs from it in text, and the section 0.0.0.0-10 from the IPv6
section with the same numbers. -/
theorem text_injective_exact_versions :
    let mapped : Section := ofDigits .v6 [0, 0, 0, 0, 0, 0xffff, 0x102, 0x304] none
    let inner : Section := ofDigits .v4 [1, 2, 3, 4] none
    let short : Section := ⟨.v4, [⟨0, 0⟩, ⟨0, 0⟩, ⟨0, 0⟩, ⟨0, 10⟩], none⟩
    let long : Section := ⟨.v6, List.replicate 7 ⟨0, 0⟩ ++ [⟨0, 10⟩], none⟩
    mapped.text = "::ffff:1.2.3.4" ∧ mapped.text ≠ inner.text ∧ long.text ≠ short.text ∧
      long.IsWritten "0:0:0:0:0:0:0:0-a".toList := by
  intro mapped inner short long
  have hmapped : mapped.WellFormed := ⟨rfl, by decide, by decide, by decide⟩
  have hinner : inner.WellFormed := ⟨rfl, by decide, by decide, by decide⟩
  have hshort : short.WellFormed := ⟨rfl, by decide, by decide, by decide⟩
  have hlong : long.WellFormed := ⟨rfl, by decide, by decide, by decide⟩
  obtain ⟨hsingle, -⟩ := text_injective_exact mapped inner hmapped hinner rfl rfl
  obtain ⟨hmany, hwritten⟩ := text_injective_exact long short hlong hshort rfl rfl
  refine ⟨by decide, mt hsingle (by decide), mt hmany (by decide), (hwritten _).1 (by decide)⟩

end Section

end IpSpace
