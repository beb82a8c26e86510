import IpSpace.Proofs.BlockLists
import IpSpace.Proofs.Keys
import IpSpace.Proofs.RunOutput

/-!
# What a line of a range list stands for

A line is read in three steps, and each of them has its specification here. The entry of a line is
what stands in front of a comment, without the blanks at either end (`IsEntryOf`). The text of an
entry has one of three shapes (`Entry.Written`). An entry stands for the addresses of a range
(`Entry.Denotes`), or for none because its parts do not fit each other (`Entry.FailsWith`).

The shapes leave no choice about where an entry is cut: addresses have no blank, slash or hyphen in
them, since every text that is read as an address is made of the characters of addresses
(`HostAddress.isAddressChar_of_ofChars?`). So reading an entry finds the only shape it has, and the
outcome of reading the line is the one that the specification of this shape gives.
-/

namespace IpSpace

/-! ## Specification -/

/-- `entry` is what stands in front of the first number sign of `text`, if there is one, without the
blanks at either end. -/
structure IsEntryOf (text entry : List Char) : Prop where
  exists_eq : ∃ front back comment, text = front ++ entry ++ back ++ comment ∧
    (∀ c ∈ front, Text.isBlank c) ∧ (∀ c ∈ back, Text.isBlank c) ∧ (∀ c ∈ comment.head?, c = '#')
  hash_not_mem : '#' ∉ entry
  not_isBlank_head : ∀ c ∈ entry.head?, ¬ Text.isBlank c
  not_isBlank_last : ∀ c ∈ entry.getLast?, ¬ Text.isBlank c

namespace Entry

/-- The shapes of entries: an address; an address, a slash and one to three decimal digits; two
addresses with a hyphen between. Blanks may stand around the slash and the hyphen. The number that
the digits make is not bounded here. -/
inductive Written : List Char → Entry → Prop
  | single {as : List Char} {a : HostAddress} (ha : HostAddress.ofChars? as = some a) :
      Written as (single a)
  | block {as bs cs ds : List Char} {a : HostAddress} (ha : HostAddress.ofChars? as = some a)
      (hbs : ∀ c ∈ bs, Text.isBlank c) (hcs : ∀ c ∈ cs, Text.isBlank c)
      (hds : ∀ c ∈ ds, c.isDigit) (hne : ds ≠ []) (hlen : ds.length ≤ 3) :
      Written (as ++ bs ++ '/' :: cs ++ ds) (block a (Nat.ofDigitChars 10 ds 0))
  | between {as bs cs ds : List Char} {a b : HostAddress} (ha : HostAddress.ofChars? as = some a)
      (hbs : ∀ c ∈ bs, Text.isBlank c) (hcs : ∀ c ∈ cs, Text.isBlank c)
      (hb : HostAddress.ofChars? ds = some b) :
      Written (as ++ bs ++ '-' :: cs ++ ds) (between a b)

/-- What an entry stands for: the address alone; the addresses that share their first bits with the
address, as many as the prefix length says; the addresses from the lower to the higher of the
two. -/
def Denotes (r : AddressRange) : Entry → Prop
  | single a => r.version = a.version ∧ r.values = {a.value}
  | block a p => p ≤ a.version.bitCount ∧ r.version = a.version ∧
      r.values = alignedBlock (a.version.bitCount - p) (a.value / 2 ^ (a.version.bitCount - p))
  | between a b => b.version = a.version ∧ r.version = a.version ∧
      r.values = Set.Icc (min a.value b.value) (max a.value b.value)

/-- Why an entry stands for nothing: its prefix length, of at most eight bits, is too long for the
address, or its addresses are of two versions. -/
def FailsWith (cause : AddressError) : Entry → Prop
  | single _ => False
  | block a p => a.version.bitCount < p ∧ p ≤ 255 ∧ cause = .prefixTooLong a.version p
  | between a b => a.version ≠ b.version ∧
      cause = .sizeMismatch a.version.segmentCount b.version.segmentCount

end Entry

/-! ## Blanks and comments -/

namespace Text

/-- Trimming stops at the first character that is no blank. -/
theorem trimFront_append {bs cs : List Char} (hbs : ∀ c ∈ bs, isBlank c)
    (hcs : ∀ c ∈ cs.head?, ¬ isBlank c) : trimFront (bs ++ cs) = cs := by
  rw [trimFront, List.dropWhile_append_of_pos hbs]
  cases cs with
  | nil => rfl
  | cons c cs => exact List.dropWhile_cons_of_neg (hcs c rfl)

/-- What trimming takes away are blanks. -/
theorem exists_eq_append_trimFront (cs : List Char) :
    ∃ bs, (∀ c ∈ bs, isBlank c) ∧ cs = bs ++ trimFront cs :=
  ⟨cs.takeWhile isBlank, fun _ => List.mem_takeWhile_imp, List.takeWhile_append_dropWhile.symm⟩

/-- What it leaves does not begin with one. -/
theorem not_isBlank_of_mem_head?_trimFront (cs : List Char) {c : Char}
    (hc : c ∈ (trimFront cs).head?) : ¬ isBlank c := by
  have h := List.head?_dropWhile_not isBlank cs
  rw [Option.mem_def, trimFront] at hc
  rw [hc] at h
  exact Bool.eq_false_iff.1 h

/-- A text between blanks is trimmed to what stands between them. -/
theorem trim_append {front cs back : List Char} (hfront : ∀ c ∈ front, isBlank c)
    (hback : ∀ c ∈ back, isBlank c) (hhead : ∀ c ∈ cs.head?, ¬ isBlank c)
    (hlast : ∀ c ∈ cs.getLast?, ¬ isBlank c) : trim (front ++ cs ++ back) = cs := by
  have hreverse : ∀ c ∈ back.reverse, isBlank c := fun c hc => hback c (List.mem_reverse.1 hc)
  have hfirst : trimFront (front ++ cs ++ back) = if cs = [] then [] else cs ++ back := by
    by_cases hnil : cs = []
    · rw [if_pos hnil, hnil, List.append_nil]
      have h : trimFront (front ++ back ++ []) = [] :=
        trimFront_append (List.forall_mem_append.2 ⟨hfront, hback⟩) (by simp)
      rwa [List.append_nil] at h
    · rw [if_neg hnil, List.append_assoc]
      refine trimFront_append hfront ?_
      rwa [List.head?_append_of_ne_nil _ hnil]
  rw [trim, hfirst]
  by_cases hnil : cs = []
  · rw [if_pos hnil, hnil]
    rfl
  · rw [if_neg hnil, List.reverse_append, trimFront_append hreverse, List.reverse_reverse]
    rwa [List.head?_reverse]

/-- A text is what trimming leaves of it between blanks; those behind it are taken away last. -/
theorem exists_eq_append_trim (cs : List Char) :
    ∃ front back, (∀ c ∈ front, isBlank c) ∧ (∀ c ∈ back, isBlank c) ∧
      cs = front ++ trim cs ++ back ∧ trimFront cs = trim cs ++ back := by
  obtain ⟨front, hfront, hcs⟩ := exists_eq_append_trimFront cs
  obtain ⟨back, hback, hreverse⟩ := exists_eq_append_trimFront (trimFront cs).reverse
  have hrest : trimFront cs = trim cs ++ back.reverse := by
    rw [trim, ← List.reverse_append, ← hreverse, List.reverse_reverse]
  refine ⟨front, back.reverse, hfront, fun c hc => hback c (List.mem_reverse.1 hc), ?_, hrest⟩
  rw [List.append_assoc, ← hrest]
  exact hcs

/-- A trimmed text does not begin with a blank. -/
theorem not_isBlank_of_mem_head?_trim {cs : List Char} {c : Char} (hc : c ∈ (trim cs).head?) :
    ¬ isBlank c := by
  obtain ⟨front, back, -, -, -, hrest⟩ := exists_eq_append_trim cs
  have hne : trim cs ≠ [] := by
    intro hnil
    rw [hnil] at hc
    cases hc
  apply not_isBlank_of_mem_head?_trimFront cs
  rwa [hrest, List.head?_append_of_ne_nil _ hne]

/-- Nor does it end with one. -/
theorem not_isBlank_of_mem_getLast?_trim {cs : List Char} {c : Char}
    (hc : c ∈ (trim cs).getLast?) : ¬ isBlank c := by
  rw [trim, List.getLast?_reverse] at hc
  exact not_isBlank_of_mem_head?_trimFront _ hc

end Text

namespace RangeList

/-- **The entry part of a line is its entry**, and nothing else is. -/
theorem isEntryOf_iff {text entry : List Char} : IsEntryOf text entry ↔ entry = entryPart text := by
  constructor
  · rintro ⟨⟨front, back, comment, rfl, hfront, hback, hcomment⟩, hhash, hhead, hlast⟩
    have hblank : ¬ Text.isBlank '#' := by decide
    have hplain : ∀ c ∈ front ++ entry ++ back, (c != '#') = true := by
      intro c hc
      rw [bne_iff_ne]
      rintro rfl
      rw [List.mem_append, List.mem_append] at hc
      obtain (hc | hc) | hc := hc
      · exact hblank (hfront _ hc)
      · exact hhash hc
      · exact hblank (hback _ hc)
    -- The comment starts with a number sign or is empty, so the cut is right in front of it.
    have hcut : comment.takeWhile (· != '#') = [] := by
      cases comment with
      | nil => rfl
      | cons c cs => exact List.takeWhile_cons_of_neg (by simp [hcomment c rfl])
    rw [entryPart, List.takeWhile_append_of_pos hplain, hcut, List.append_nil,
      Text.trim_append hfront hback hhead hlast]
  · rintro rfl
    obtain ⟨front, back, hfront, hback, hline, -⟩ :=
      Text.exists_eq_append_trim (text.takeWhile (· != '#'))
    refine ⟨⟨front, back, text.dropWhile (· != '#'), ?_, hfront, hback, ?_⟩, ?_, ?_, ?_⟩
    · rw [entryPart, ← hline, List.takeWhile_append_dropWhile]
    · intro c hc
      have h := List.head?_dropWhile_not (· != '#') text
      rw [Option.mem_def.1 hc] at h
      simpa using h
    · intro hhash
      have hmem : '#' ∈ text.takeWhile (· != '#') := by
        rw [hline]
        exact List.mem_append_left _ (List.mem_append_right _ hhash)
      exact absurd (List.mem_takeWhile_imp hmem) (by decide)
    · intro c hc
      exact Text.not_isBlank_of_mem_head?_trim hc
    · intro c hc
      exact Text.not_isBlank_of_mem_getLast?_trim hc

end RangeList

/-! ## Characters of addresses -/

namespace Text

/-- Decimal digits are read as the number that they make. -/
theorem ofDecimal?_eq_some_iff {cs : List Char} {n : Nat} :
    ofDecimal? cs = some n ↔ (∀ c ∈ cs, c.isDigit) ∧ Nat.ofDigitChars 10 cs 0 = n := by
  have hvalue : cs.foldl (fun n c => n * 10 + (c.toNat - '0'.toNat)) 0
      = Nat.ofDigitChars 10 cs 0 := by
    simp only [Nat.ofDigitChars, Nat.mul_comm]
  unfold ofDecimal?
  rw [hvalue, ← List.all_eq_true]
  split
  · simp [*]
  · simp [*]

/-- What is read as a hexadecimal number is made of hexadecimal digits. -/
theorem isSome_hexDigit?_of_ofHexadecimal? {cs : List Char} {n : Nat}
    (h : ofHexadecimal? cs = some n) : ∀ c ∈ cs, (hexDigit? c).isSome := by
  obtain ⟨digits, hdigits, -⟩ := Option.map_eq_some_iff.1 h
  intro c hc
  obtain ⟨d, hd⟩ := exists_of_mapM_some hdigits hc
  rw [hd]
  rfl

end Text

/-- A character of a text is the separator or stands in one of the fields. -/
theorem eq_or_mem_of_mem_splitOn (sep : Char) {c : Char} {cs : List Char} (hc : c ∈ cs) :
    c = sep ∨ ∃ field ∈ cs.splitOn sep, c ∈ field := by
  apply eq_or_mem_of_mem_intercalate
  rwa [List.intercalate_splitOn]

namespace HostAddress

theorem isAddressChar_of_isDigit {c : Char} (h : c.isDigit) : Entry.isAddressChar c := by
  simp [Entry.isAddressChar, Text.hexDigit?, h]

theorem isAddressChar_of_octet? {cs : List Char} {d : Nat} (h : octet? cs = some d) :
    ∀ c ∈ cs, Entry.isAddressChar c := by
  unfold octet? at h
  split at h
  · cases h
  · intro c hc
    have hread := (Option.filter_eq_some_iff.1 h).1
    exact isAddressChar_of_isDigit ((Text.ofDecimal?_eq_some_iff.1 hread).1 c hc)

theorem isAddressChar_of_ofDotted? {cs : List Char} {value : Nat} (h : ofDotted? cs = some value) :
    ∀ c ∈ cs, Entry.isAddressChar c := by
  obtain ⟨digits, hdigits, -⟩ := Option.bind_eq_some_iff.1 h
  intro c hc
  obtain rfl | ⟨field, hfield, hc⟩ := eq_or_mem_of_mem_splitOn '.' hc
  · decide
  · obtain ⟨d, hd⟩ := exists_of_mapM_some hdigits hfield
    exact isAddressChar_of_octet? hd c hc

theorem isAddressChar_of_group? {cs : List Char} {d : Nat} (h : group? cs = some d) :
    ∀ c ∈ cs, Entry.isAddressChar c := by
  unfold group? at h
  split at h
  · cases h
  · intro c hc
    simp [Entry.isAddressChar, Text.isSome_hexDigit?_of_ofHexadecimal? h c hc]

theorem isAddressChar_of_ofFields? {fields : List (List Char)} {ds : List Nat}
    (h : ofFields? fields = some ds) : ∀ field ∈ fields, ∀ c ∈ field, Entry.isAddressChar c := by
  induction fields using ofFields?.induct generalizing ds with
  | case1 => exact List.forall_mem_nil _
  | case2 last hdot =>
      rw [ofFields?, if_pos hdot] at h
      obtain ⟨value, hvalue, -⟩ := Option.map_eq_some_iff.1 h
      rw [List.forall_mem_singleton]
      exact isAddressChar_of_ofDotted? hvalue
  | case3 last hdot =>
      rw [ofFields?, if_neg hdot] at h
      obtain ⟨d, hd, -⟩ := Option.map_eq_some_iff.1 h
      rw [List.forall_mem_singleton]
      exact isAddressChar_of_group? hd
  | case4 field rest hrest ih =>
      rw [ofFields?.eq_3 _ _ hrest] at h
      obtain ⟨d, hd, h⟩ := Option.bind_eq_some_iff.1 h
      obtain ⟨ds', hds', -⟩ := Option.bind_eq_some_iff.1 h
      rw [List.forall_mem_cons]
      exact ⟨isAddressChar_of_group? hd, ih hds'⟩

theorem isAddressChar_of_fields {cs : List Char} {ds : List Nat}
    (h : ofFields? (cs.splitOn ':') = some ds) : ∀ c ∈ cs, Entry.isAddressChar c := by
  intro c hc
  obtain rfl | ⟨field, hfield, hc⟩ := eq_or_mem_of_mem_splitOn ':' hc
  · decide
  · exact isAddressChar_of_ofFields? h field hfield c hc

theorem isAddressChar_of_side? {cs : List Char} {ds : List Nat} (h : side? cs = some ds) :
    ∀ c ∈ cs, Entry.isAddressChar c := by
  unfold side? at h
  split at h
  case isTrue hnil =>
    rw [List.isEmpty_iff.1 hnil]
    exact List.forall_mem_nil _
  case isFalse => exact isAddressChar_of_fields h

/-- What is in front of a double colon and what is behind it make up the text. -/
theorem eq_of_cutDoubleColon {cs front back : List Char}
    (h : cutDoubleColon cs = some (front, back)) : cs = front ++ ':' :: ':' :: back := by
  induction cs using cutDoubleColon.induct generalizing front with
  | case1 rest =>
      cases h
      rfl
  | case2 c rest hc ih =>
      rw [cutDoubleColon.eq_2 _ _ hc] at h
      obtain ⟨⟨front', back'⟩, hcut, heq⟩ := Option.map_eq_some_iff.1 h
      cases heq
      rw [List.cons_append, ← ih hcut]
  | case3 => cases h

theorem isAddressChar_of_ofGroups? {cs : List Char} {ds : List Nat} (h : ofGroups? cs = some ds) :
    ∀ c ∈ cs, Entry.isAddressChar c := by
  unfold ofGroups? at h
  split at h
  case h_1 => exact isAddressChar_of_fields (Option.filter_eq_some_iff.1 h).1
  case h_2 front back hcut =>
    split at h
    case isTrue => cases h
    case isFalse =>
      obtain ⟨fronts, hfronts, h⟩ := Option.bind_eq_some_iff.1 h
      obtain ⟨backs, hbacks, -⟩ := Option.bind_eq_some_iff.1 h
      rw [eq_of_cutDoubleColon hcut, List.forall_mem_append, List.forall_mem_cons,
        List.forall_mem_cons]
      exact ⟨isAddressChar_of_side? hfronts, by decide, by decide, isAddressChar_of_side? hbacks⟩

/-- What is read as an address is made of the characters of addresses. -/
theorem isAddressChar_of_ofChars? {cs : List Char} {a : HostAddress} (h : ofChars? cs = some a) :
    ∀ c ∈ cs, Entry.isAddressChar c := by
  unfold ofChars? at h
  split at h
  · obtain ⟨ds, hds, -⟩ := Option.map_eq_some_iff.1 h
    exact isAddressChar_of_ofGroups? hds
  · obtain ⟨value, hvalue, -⟩ := Option.map_eq_some_iff.1 h
    exact isAddressChar_of_ofDotted? hvalue

end HostAddress

/-! ## Shapes of entries -/

namespace Entry

theorem not_isBlank_of_isAddressChar {c : Char} (h : isAddressChar c) : ¬ Text.isBlank c :=
  (isPlain_of_isAddressChar h).not_isBlank

/-- Decimal digits are no blanks. -/
theorem not_isBlank_head?_of_isDigit {ds : List Char} (h : ∀ c ∈ ds, c.isDigit) :
    ∀ c ∈ ds.head?, ¬ Text.isBlank c := by
  intro c hc
  exact (isPlain_of_isDigit (h c (List.mem_of_mem_head? hc))).not_isBlank

/-- Nor does an address begin with one. -/
theorem not_isBlank_head?_of_ofChars? {cs : List Char} {a : HostAddress}
    (h : HostAddress.ofChars? cs = some a) : ∀ c ∈ cs.head?, ¬ Text.isBlank c := by
  intro c hc
  exact not_isBlank_of_isAddressChar
    (HostAddress.isAddressChar_of_ofChars? h c (List.mem_of_mem_head? hc))

/-- A prefix length is read from one to three digits that make at most 255. -/
theorem ofPrefixLen?_eq_some_iff {ds : List Char} {p : Nat} : ofPrefixLen? ds = some p ↔
    ds ≠ [] ∧ ds.length ≤ 3 ∧ (∀ c ∈ ds, c.isDigit) ∧ Nat.ofDigitChars 10 ds 0 = p ∧ p ≤ 255 := by
  unfold ofPrefixLen?
  constructor
  · intro h
    split at h
    case isTrue => cases h
    case isFalse hshape =>
      rw [List.isEmpty_iff, not_or, Nat.not_lt] at hshape
      obtain ⟨hread, hle⟩ := Option.filter_eq_some_iff.1 h
      obtain ⟨hdigits, hvalue⟩ := Text.ofDecimal?_eq_some_iff.1 hread
      exact ⟨hshape.1, hshape.2, hdigits, hvalue, of_decide_eq_true hle⟩
  · rintro ⟨hne, hlen, hdigits, hvalue, hle⟩
    rw [if_neg (by rw [List.isEmpty_iff, not_or, Nat.not_lt]; exact ⟨hne, hlen⟩)]
    exact Option.filter_eq_some_iff.2
      ⟨Text.ofDecimal?_eq_some_iff.2 ⟨hdigits, hvalue⟩, decide_eq_true hle⟩

/-- The address of an entry ends at the first character that is none of an address, and what comes
behind it begins at the first one after it that is no blank. -/
theorem cut_address {as bs : List Char} (rest : List Char) (has : ∀ c ∈ as, isAddressChar c)
    (hbs : ∀ c ∈ bs, Text.isBlank c)
    (hrest : ∀ c ∈ rest.head?, ¬ Text.isBlank c ∧ ¬ isAddressChar c) :
    (as ++ bs ++ rest).takeWhile isAddressChar = as ∧
      Text.trimFront ((as ++ bs ++ rest).dropWhile isAddressChar) = rest := by
  -- Whatever comes behind the address, a blank or the rest, does not belong to it.
  have hstop : ∀ c ∈ (bs ++ rest).head?, ¬ isAddressChar c := by
    intro c hc
    cases bs with
    | nil => exact (hrest c hc).2
    | cons b bs =>
        cases hc
        intro haddress
        exact not_isBlank_of_isAddressChar haddress (hbs c List.mem_cons_self)
  have hcut : (bs ++ rest).takeWhile isAddressChar = [] ∧
      (bs ++ rest).dropWhile isAddressChar = bs ++ rest := by
    cases h : bs ++ rest with
    | nil => exact ⟨rfl, rfl⟩
    | cons c cs =>
        rw [h] at hstop
        have hc := hstop c rfl
        exact ⟨List.takeWhile_cons_of_neg hc, List.dropWhile_cons_of_neg hc⟩
  rw [List.append_assoc, List.takeWhile_append_of_pos has, List.dropWhile_append_of_pos has, hcut.1,
    hcut.2, List.append_nil]
  exact ⟨rfl, Text.trimFront_append hbs fun c hc => (hrest c hc).1⟩

/-- The number of an entry fits eight bits, as the number that is read for a prefix length has
to. -/
def IsReadable : Entry → Prop
  | block _ p => p ≤ 255
  | _ => True

variable {cs : List Char} {e : Entry} {r : AddressRange} {cause : AddressError}

/-- What is written in one of the shapes is read, if its number can be. -/
theorem ofChars?_of_written (h : Written cs e) (hreadable : e.IsReadable) :
    ofChars? cs = some e := by
  unfold ofChars?
  cases h with
  | single ha =>
      obtain ⟨htake, hdrop⟩ := cut_address []
        (HostAddress.isAddressChar_of_ofChars? ha) (List.forall_mem_nil _) (by simp)
      rw [List.append_nil, List.append_nil] at htake hdrop
      rw [htake, hdrop, ha]
      rfl
  | @block as bs cs ds a ha hbs hcs hds hne hlen =>
      obtain ⟨htake, hdrop⟩ := cut_address ('/' :: cs ++ ds)
        (HostAddress.isAddressChar_of_ofChars? ha) hbs (by simp; decide)
      have hprefix : ofPrefixLen? ds = some (Nat.ofDigitChars 10 ds 0) :=
        ofPrefixLen?_eq_some_iff.2 ⟨hne, hlen, hds, rfl, hreadable⟩
      rw [List.append_assoc (as ++ bs), htake, hdrop, ha]
      simp [Text.trimFront_append hcs (not_isBlank_head?_of_isDigit hds), hprefix]
  | @between as bs cs ds a b ha hbs hcs hb =>
      obtain ⟨htake, hdrop⟩ := cut_address ('-' :: cs ++ ds)
        (HostAddress.isAddressChar_of_ofChars? ha) hbs (by simp; decide)
      rw [List.append_assoc (as ++ bs), htake, hdrop, ha]
      simp [Text.trimFront_append hcs (not_isBlank_head?_of_ofChars? hb), hb]

/-- What is read has one of the shapes. -/
theorem written_of_ofChars? (hlast : ∀ c ∈ cs.getLast?, ¬ Text.isBlank c)
    (h : ofChars? cs = some e) : Written cs e ∧ e.IsReadable := by
  unfold ofChars? at h
  obtain ⟨a, ha, h⟩ := Option.bind_eq_some_iff.1 h
  obtain ⟨bs, hbs, hrest⟩ := Text.exists_eq_append_trimFront (cs.dropWhile isAddressChar)
  have hcs : cs = cs.takeWhile isAddressChar ++ bs ++
      Text.trimFront (cs.dropWhile isAddressChar) := by
    rw [List.append_assoc, ← hrest, List.takeWhile_append_dropWhile]
  split at h
  case h_1 hnil =>
    -- blanks behind the address would end the text
    have hbs_nil : bs = [] := by
      by_contra hne
      rw [hnil, List.append_nil] at hcs
      refine hlast (bs.getLast hne) ?_ (hbs _ (List.getLast_mem hne))
      rw [hcs, List.getLast?_append_of_ne_nil _ hne, List.getLast?_eq_some_getLast hne]
      rfl
    cases h
    rw [hnil, hbs_nil, List.append_nil, List.append_nil] at hcs
    rw [← hcs] at ha
    exact ⟨.single ha, trivial⟩
  case h_2 rest hslash =>
    obtain ⟨p, hp, rfl⟩ := Option.map_eq_some_iff.1 h
    obtain ⟨spaces, hspaces, hdigits⟩ := Text.exists_eq_append_trimFront rest
    obtain ⟨hne, hlen, hds, rfl, hle⟩ := ofPrefixLen?_eq_some_iff.1 hp
    rw [hslash, hdigits, ← List.cons_append, ← List.append_assoc] at hcs
    rw [hcs]
    exact ⟨.block ha hbs hspaces hds hne hlen, hle⟩
  case h_3 rest hhyphen =>
    obtain ⟨b, hb, rfl⟩ := Option.map_eq_some_iff.1 h
    obtain ⟨spaces, hspaces, haddress⟩ := Text.exists_eq_append_trimFront rest
    rw [hhyphen, haddress, ← List.cons_append, ← List.append_assoc] at hcs
    rw [hcs]
    exact ⟨.between ha hbs hspaces hb, trivial⟩
  case h_4 => cases h

/-! ## Ranges of entries -/

/-- A range is known by its version and its values, which is how specifications give it. -/
theorem eq_range_iff {s : AddressRange} (hs : s.WellFormed) :
    s = r ↔ r.WellFormed ∧ r.version = s.version ∧ r.values = s.values := by
  constructor
  · rintro rfl
    exact ⟨hs, rfl, rfl⟩
  · rintro ⟨-, hversion, hvalues⟩
    exact AddressRange.eq_of_values_eq hs.lower_le_upper hversion.symm hvalues.symm

/-- The block around an address has the addresses that share their first bits with it. -/
theorem values_ofSection_blockAt {a : HostAddress} {p : Nat} (ha : a.value ≤ a.version.maxValue)
    (hp : p ≤ a.version.bitCount) :
    (AddressRange.ofSection ((Section.ofHost a).blockAt p)).values
      = alignedBlock (a.version.bitCount - p) (a.value / 2 ^ (a.version.bitCount - p)) := by
  have hhost : (Section.ofHost a).values = {a.value} := Section.values_ofDigits_split ha none
  have hsub := Section.alignedBlock_subset_Iic (Nat.sub_le a.version.bitCount p) ha
  have hvalues : ((Section.ofHost a).blockAt p).values
      = alignedBlock (a.version.bitCount - p) (a.value / 2 ^ (a.version.bitCount - p)) := by
    ext x
    rw [Section.mem_values_blockAt (Section.wellFormed_ofHost a), hhost, mem_alignedBlock]
    constructor
    · rintro ⟨-, y, rfl, hx⟩
      exact hx
    · intro hx
      exact ⟨hsub hx, a.value, rfl, hx⟩
  have hwf := Section.wellFormed_blockAt (Section.wellFormed_ofHost a) hp
  rw [alignedBlock_eq_Icc] at hvalues ⊢
  obtain ⟨hlower, hupper⟩ := Section.ends_of_values_eq_Icc hwf (Nat.le_add_right _ _) hvalues
  rw [AddressRange.values, AddressRange.ofSection, hlower, hupper]

/-- **An entry has a range exactly if it denotes one**, and has the range that it denotes. -/
theorem range_eq_ok_iff (h : Written cs e) :
    e.range = .ok r ↔ r.WellFormed ∧ e.Denotes r := by
  cases h with
  | @single _ a ha =>
      have hwf : AddressRange.WellFormed ⟨a.version, a.value, a.value⟩ :=
        ⟨Nat.le_refl _, HostAddress.le_maxValue_of_ofChars? ha⟩
      have hvalues : AddressRange.values ⟨a.version, a.value, a.value⟩ = {a.value} :=
        Set.Icc_self _
      rw [range, Except.ok.injEq, eq_range_iff hwf, hvalues]
      rfl
  | @block _ _ _ ds a ha =>
      have hle := HostAddress.le_maxValue_of_ofChars? ha
      generalize Nat.ofDigitChars 10 ds 0 = p
      -- A block entry yields a range only if its prefix length is within the address.
      rw [range, bind_eq_ok_iff]
      constructor
      · rintro ⟨s, hs, hr⟩
        obtain ⟨hp, rfl⟩ := Section.toBlockAt_eq_ok_iff.1 hs
        cases hr
        have hwf := Section.wellFormed_blockAt (Section.wellFormed_ofHost a) hp
        exact ⟨Section.wellFormed_ofSection hwf, hp, rfl, values_ofSection_blockAt hle hp⟩
      · rintro ⟨hr, hp, hversion, hvalues⟩
        have hwf := Section.wellFormed_blockAt (Section.wellFormed_ofHost a) hp
        rw [← values_ofSection_blockAt hle hp] at hvalues
        refine ⟨_, Section.toBlockAt_eq_ok_iff.2 ⟨hp, rfl⟩, congrArg Except.ok ?_⟩
        exact (eq_range_iff (Section.wellFormed_ofSection hwf)).2 ⟨hr, hversion, hvalues⟩
  | @between _ _ _ _ a b ha _ _ hb =>
      have hale := HostAddress.le_maxValue_of_ofChars? ha
      have hble := HostAddress.le_maxValue_of_ofChars? hb
      obtain ⟨halower, haupper⟩ := Section.ends_ofHost hale
      obtain ⟨hblower, hbupper⟩ := Section.ends_ofHost hble
      rw [range, AddressRange.ofAddresses, bind_eq_ok_iff]
      simp only [Address.ofHost, Address.ofSection, Address.version, halower, haupper, hblower,
        hbupper, checkSameVersion_eq_ok_iff]
      have hwf : a.version = b.version → AddressRange.WellFormed
          ⟨a.version, min a.value b.value, max a.value b.value⟩ := fun hversion =>
        ⟨Nat.le_trans (Nat.min_le_left _ _) (Nat.le_max_left _ _),
          Nat.max_le.2 ⟨hale, hversion ▸ hble⟩⟩
      constructor
      · rintro ⟨_, hversion, hr⟩
        cases hr
        exact ⟨hwf hversion, hversion.symm, rfl, rfl⟩
      · rintro ⟨hr, hversion, hrange⟩
        exact ⟨(), hversion.symm,
          congrArg Except.ok ((eq_range_iff (hwf hversion.symm)).2 ⟨hr, hrange⟩)⟩

/-- **An entry that is read has no range exactly if its parts do not fit each other.** -/
theorem range_eq_error_iff (h : e.IsReadable) : e.range = .error cause ↔ e.FailsWith cause := by
  cases e with
  | single a => exact ⟨nofun, nofun⟩
  | block a p =>
      rw [range, bind_eq_error_iff, Section.toBlockAt_eq_error_iff]
      constructor
      · rintro (⟨hp, hcause⟩ | ⟨_, -, hrest⟩)
        · exact ⟨hp, h, hcause⟩
        · cases hrest
      · rintro ⟨hp, -, hcause⟩
        exact .inl ⟨hp, hcause⟩
  | between a b =>
      rw [range, AddressRange.ofAddresses, bind_eq_error_iff, checkSameVersion_eq_error_iff]
      constructor
      · rintro (hcheck | ⟨_, -, hrest⟩)
        · exact hcheck
        · cases hrest
      · exact Or.inl

/-- An entry that stands for a range or fails has a number that can be read: no prefix length of an
address is longer than that. -/
theorem isReadable_of_denotes (h : e.Denotes r) : e.IsReadable := by
  cases e with
  | block a p => exact Nat.le_trans h.1 (Nat.le_of_lt_succ a.version.bitCount_lt)
  | _ => trivial

theorem isReadable_of_failsWith (h : e.FailsWith cause) : e.IsReadable := by
  cases e with
  | block a p => exact h.2.1
  | _ => trivial

end Entry

/-! ## Lines -/

namespace RangeList

variable {line : Nat} {text : List Char} {r : AddressRange} {cause : AddressError}

theorem ofLine_of_nil (h : entryPart text = []) : ofLine line text = .ok none := by
  rw [ofLine, h]
  rfl

/-- What a line with an entry yields, in the three ways that reading it can end. -/
theorem ofLine_of_ne_nil (h : entryPart text ≠ []) : ofLine line text =
    match Entry.ofChars? (entryPart text) with
    | none => .error (.malformed line (entryPart text))
    | some e => match e.range with
      | .ok r => .ok (some r)
      | .error cause => .error (.address line cause) := by
  unfold ofLine
  exact if_neg (by rwa [List.isEmpty_iff])

theorem ofLine_eq_ok_none_iff : ofLine line text = .ok none ↔ entryPart text = [] := by
  refine ⟨fun h => ?_, ofLine_of_nil⟩
  by_contra hnil
  rw [ofLine_of_ne_nil hnil] at h
  split at h
  · cases h
  · split at h <;> cases h

theorem ofLine_eq_malformed_iff : ofLine line text = .error (.malformed line (entryPart text)) ↔
    entryPart text ≠ [] ∧ Entry.ofChars? (entryPart text) = none := by
  by_cases hnil : entryPart text = []
  · rw [ofLine_of_nil hnil]
    exact ⟨nofun, fun h => absurd hnil h.1⟩
  · rw [ofLine_of_ne_nil hnil]
    cases Entry.ofChars? (entryPart text) with
    | none => simp [hnil]
    | some e => cases hrange : e.range <;> simp [hrange]

theorem ofLine_eq_ok_some_iff : ofLine line text = .ok (some r) ↔
    ∃ e, Entry.ofChars? (entryPart text) = some e ∧ e.range = .ok r := by
  by_cases hnil : entryPart text = []
  · rw [ofLine_of_nil hnil, hnil]
    exact ⟨nofun, nofun⟩
  · rw [ofLine_of_ne_nil hnil]
    cases Entry.ofChars? (entryPart text) with
    | none => simp
    | some e => cases hrange : e.range <;> simp [hrange]

theorem ofLine_eq_address_iff : ofLine line text = .error (.address line cause) ↔
    ∃ e, Entry.ofChars? (entryPart text) = some e ∧ e.range = .error cause := by
  by_cases hnil : entryPart text = []
  · rw [ofLine_of_nil hnil, hnil]
    exact ⟨nofun, nofun⟩
  · rw [ofLine_of_ne_nil hnil]
    cases Entry.ofChars? (entryPart text) with
    | none => simp
    | some e => cases hrange : e.range <;> simp [hrange]

/-- Errors tell the number of the line. -/
theorem eq_of_ofLine_eq_error {err : ListError} (h : ofLine line text = .error err) :
    err = .malformed line (entryPart text) ∨ ∃ cause, err = .address line cause := by
  by_cases hnil : entryPart text = []
  · rw [ofLine_eq_ok_none_iff.2 hnil] at h
    cases h
  · rw [ofLine_of_ne_nil hnil] at h
    split at h
    · cases h
      exact .inl rfl
    · split at h
      · cases h
      · cases h
        exact .inr ⟨_, rfl⟩

/-! ### Lines and shapes -/

theorem not_isBlank_getLast?_entryPart (text : List Char) :
    ∀ c ∈ (entryPart text).getLast?, ¬ Text.isBlank c :=
  fun _ hc => Text.not_isBlank_of_mem_getLast?_trim hc

/-- A line yields the range that the shape of its entry denotes. -/
theorem ofLine_eq_range_iff : ofLine line text = .ok (some r) ↔
    r.WellFormed ∧ ∃ e, Entry.Written (entryPart text) e ∧ e.Denotes r := by
  rw [ofLine_eq_ok_some_iff]
  constructor
  · rintro ⟨e, hread, hrange⟩
    obtain ⟨hwritten, -⟩ :=
      Entry.written_of_ofChars? (not_isBlank_getLast?_entryPart text) hread
    obtain ⟨hr, hdenotes⟩ := (Entry.range_eq_ok_iff hwritten).1 hrange
    exact ⟨hr, e, hwritten, hdenotes⟩
  · rintro ⟨hr, e, hwritten, hdenotes⟩
    exact ⟨e, Entry.ofChars?_of_written hwritten (Entry.isReadable_of_denotes hdenotes),
      (Entry.range_eq_ok_iff hwritten).2 ⟨hr, hdenotes⟩⟩

/-- It has the error about parts that do not fit each other. -/
theorem ofLine_eq_failure_iff : ofLine line text = .error (.address line cause) ↔
    ∃ e, Entry.Written (entryPart text) e ∧ e.FailsWith cause := by
  rw [ofLine_eq_address_iff]
  constructor
  · rintro ⟨e, hread, hrange⟩
    obtain ⟨hwritten, hreadable⟩ :=
      Entry.written_of_ofChars? (not_isBlank_getLast?_entryPart text) hread
    exact ⟨e, hwritten, (Entry.range_eq_error_iff hreadable).1 hrange⟩
  · rintro ⟨e, hwritten, hfails⟩
    have hreadable := Entry.isReadable_of_failsWith hfails
    exact ⟨e, Entry.ofChars?_of_written hwritten hreadable,
      (Entry.range_eq_error_iff hreadable).2 hfails⟩

/-- An entry cannot be read exactly if it is not written in a shape that denotes a range or fails:
what has a shape but cannot be read has a number too large for either. -/
theorem ofChars?_eq_none_iff : Entry.ofChars? (entryPart text) = none ↔
    ∀ e, Entry.Written (entryPart text) e → (∀ r, ¬ e.Denotes r) ∧
      ∀ cause, ¬ e.FailsWith cause := by
  constructor
  · intro hnone e hwritten
    have hunreadable : ¬ e.IsReadable := by
      intro hreadable
      rw [Entry.ofChars?_of_written hwritten hreadable] at hnone
      cases hnone
    exact ⟨fun r hdenotes => hunreadable (Entry.isReadable_of_denotes hdenotes),
      fun cause hfails => hunreadable (Entry.isReadable_of_failsWith hfails)⟩
  · intro hnothing
    by_contra hsome
    obtain ⟨e, hread⟩ := Option.ne_none_iff_exists'.1 hsome
    obtain ⟨hwritten, hreadable⟩ :=
      Entry.written_of_ofChars? (not_isBlank_getLast?_entryPart text) hread
    obtain ⟨hdenotes, hfails⟩ := hnothing e hwritten
    cases hrange : e.range with
    | ok r => exact hdenotes r ((Entry.range_eq_ok_iff hwritten).1 hrange).2
    | error cause => exact hfails cause ((Entry.range_eq_error_iff hreadable).1 hrange)

/-- **What a line stands for, and what is wrong with it.** A line without an entry stands for
nothing. One whose entry has one of the shapes stands for the range that this shape denotes; if the
parts of the entry do not fit each other, it has the error that says so. All other lines are
malformed, and the error quotes the entry. -/
theorem ofLine_exact (line : Nat) (text : List Char) :
    ∃ entry, (∀ cs, IsEntryOf text cs ↔ cs = entry) ∧
      (ofLine line text = .ok none ↔ entry = []) ∧
      (∀ r, ofLine line text = .ok (some r) ↔
        r.WellFormed ∧ ∃ e, Entry.Written entry e ∧ e.Denotes r) ∧
      (∀ cause, ofLine line text = .error (.address line cause) ↔
        ∃ e, Entry.Written entry e ∧ e.FailsWith cause) ∧
      (ofLine line text = .error (.malformed line entry) ↔
        entry ≠ [] ∧ ∀ e, Entry.Written entry e →
          (∀ r, ¬ e.Denotes r) ∧ ∀ cause, ¬ e.FailsWith cause) ∧
      ∀ err, ofLine line text = .error err →
        err = .malformed line entry ∨ ∃ cause, err = .address line cause := by
  refine ⟨entryPart text, fun cs => isEntryOf_iff, ofLine_eq_ok_none_iff,
    fun r => ofLine_eq_range_iff, fun cause => ofLine_eq_failure_iff, ?_,
    fun err => eq_of_ofLine_eq_error⟩
  rw [ofLine_eq_malformed_iff, ofChars?_eq_none_iff]

/-- A prefix length past the address is an error about the address, up to the largest number of
eight bits; past that the entry itself is malformed. -/
example : ofLine 4 "10.0.0.0/255 # all".toList = .error (.address 4 (.prefixTooLong .v4 255)) ∧
    ofLine 4 "10.0.0.0/256 # all".toList = .error (.malformed 4 "10.0.0.0/256".toList) := by
  decide

end RangeList

end IpSpace
