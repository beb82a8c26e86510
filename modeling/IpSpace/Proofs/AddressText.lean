import IpSpace.HostAddress
import IpSpace.Proofs.Digits

/-!
# Reading back the text of an address

Every address is read back from its standard text. The argument follows the layers of the text:

* a number from its decimal or hexadecimal digits (`ofDecimal?_decimal`,
  `ofHexadecimal?_hexadecimal`),
* a list of numbers from their digits with separators between, since no digit is a separator
  (`ofDotted?_dotted`, `side?_groups`),
* the eight groups from their compressed form, since the zeros left out are as many as are missing
  (`ofGroups?_compressed`); where the double colon stands is unambiguous because no other two colons
  stand side by side (`cutDoubleColon_groups_append`),
* the address from the form that its value has, where a colon tells the versions apart.
-/

namespace IpSpace

/-! ## Numbers -/

namespace Text

theorem hexDigit?_digitChar : ∀ d < 16, hexDigit? (Nat.digitChar d) = some d := by
  decide

/-- A hexadecimal number is read back. -/
theorem ofHexadecimal?_hexadecimal (n : Nat) : ofHexadecimal? (hexadecimal n) = some n := by
  unfold hexadecimal
  induction n using Nat.strongRecOn with
  | ind n ih =>
      rw [Nat.toDigits_eq_if (by decide)]
      by_cases hn : n < 16
      · rw [if_pos hn]
        simp [ofHexadecimal?, hexDigit?_digitChar n hn]
      · -- The digits in front write `n / 16`, and the last one `n % 16`.
        rw [if_neg hn]
        have hfront := ih (n / 16) (by omega)
        unfold ofHexadecimal? at hfront ⊢
        obtain ⟨ds, hds, hvalue⟩ := Option.map_eq_some_iff.1 hfront
        have hlast := hexDigit?_digitChar (n % 16) (Nat.mod_lt n (by decide))
        simp only [List.mapM_append, hds, List.mapM_cons, List.mapM_nil, hlast, Option.bind_eq_bind,
          Option.bind_some, Option.pure_def, Option.map_some, List.foldl_append, List.foldl_cons,
          List.foldl_nil, hvalue]
        rw [Digits.div_mul_add_mod]

/-- The digits of a hexadecimal number are hexadecimal digits. -/
theorem isSome_hexDigit?_of_mem {n : Nat} {c : Char} (hc : c ∈ hexadecimal n) :
    (hexDigit? c).isSome := by
  unfold hexadecimal at hc
  induction n using Nat.strongRecOn with
  | ind n ih =>
      rw [Nat.toDigits_eq_if (by decide)] at hc
      by_cases hn : n < 16
      · rw [if_pos hn, List.mem_singleton] at hc
        rw [hc, hexDigit?_digitChar n hn]
        rfl
      · rw [if_neg hn, List.mem_append, List.mem_singleton] at hc
        obtain hc | rfl := hc
        · exact ih (n / 16) (by omega) hc
        · rw [hexDigit?_digitChar (n % 16) (Nat.mod_lt n (by decide))]
          rfl

/-- The digits of a decimal number are decimal digits. -/
theorem isDigit_of_mem {n : Nat} {c : Char} (hc : c ∈ decimal n) : c.isDigit :=
  Nat.isDigit_of_mem_toDigits (by decide) (by decide) hc

/-- A decimal number is read back. -/
theorem ofDecimal?_decimal (n : Nat) : ofDecimal? (decimal n) = some n := by
  have hvalue := Nat.ofDigitChars_toDigits (n := n) (b := 10) (by decide) (by decide)
  unfold ofDecimal?
  rw [if_pos (List.all_eq_true.2 fun c hc => isDigit_of_mem hc), Option.some_inj]
  simpa only [decimal, Nat.ofDigitChars, Nat.mul_comm] using hvalue

theorem digitChar_ne_zero : ∀ d < 10, 0 < d → Nat.digitChar d ≠ '0' := by
  decide

/-- A positive decimal number does not begin with a zero. -/
theorem head?_decimal_ne {n : Nat} (hn : 0 < n) : (decimal n).head? ≠ some '0' := by
  unfold decimal
  induction n using Nat.strongRecOn with
  | ind n ih =>
      rw [Nat.toDigits_eq_if (by decide)]
      by_cases hlt : n < 10
      · rw [if_pos hlt, List.head?_cons, ne_eq, Option.some_inj]
        exact digitChar_ne_zero n hlt hn
      · rw [if_neg hlt, List.head?_append_of_ne_nil _ Nat.toDigits_ne_nil]
        exact ih (n / 10) (by omega) (by omega)

end Text

/-- A list whose members all pass is mapped member by member. -/
theorem mapM_map_eq_some {α β : Type} {f : β → Option α} {g : α → β} {l : List α}
    (h : ∀ a ∈ l, f (g a) = some a) : (l.map g).mapM f = some l := by
  induction l with
  | nil => rfl
  | cons a l ih =>
      rw [List.forall_mem_cons] at h
      simp [h.1, ih h.2]

/-- A character of fields with separators between them is the separator or stands in one of the
fields. -/
theorem eq_or_mem_of_mem_intercalate {sep c : Char} {fields : List (List Char)}
    (h : c ∈ List.intercalate [sep] fields) : c = sep ∨ ∃ field ∈ fields, c ∈ field := by
  induction fields with
  | nil => cases h
  | cons field fields ih =>
      cases fields with
      | nil =>
          rw [List.intercalate_singleton] at h
          exact .inr ⟨field, List.mem_cons_self, h⟩
      | cons next rest =>
          rw [List.intercalate_cons_cons, List.mem_append, List.mem_append,
            List.mem_singleton] at h
          obtain (h | h) | h := h
          · exact .inr ⟨field, List.mem_cons_self, h⟩
          · exact .inl h
          · refine (ih h).imp_right ?_
            rintro ⟨f, hf, hcf⟩
            exact ⟨f, List.mem_cons_of_mem _ hf, hcf⟩

namespace HostAddress

/-! ## Dotted addresses -/

/-- A part of a dotted address is read back. -/
theorem octet?_decimal {d : Nat} (hd : d < 256) : octet? (Text.decimal d) = some d := by
  have hne : Text.decimal d ≠ [] := Nat.toDigits_ne_nil
  have hlen : (Text.decimal d).length ≤ 3 :=
    (Nat.length_toDigits_le_iff (by decide) (by decide)).2 (by omega)
  have hzero : ¬ ((Text.decimal d).head? = some '0' ∧ 1 < (Text.decimal d).length) := by
    rintro ⟨hhead, hlong⟩
    obtain rfl | hpos := Nat.eq_zero_or_pos d
    · exact absurd hlong (by decide)
    · exact Text.head?_decimal_ne hpos hhead
  unfold octet?
  rw [if_neg (by simp only [List.isEmpty_iff, hne, false_or, not_or]; exact ⟨by omega, hzero⟩),
    Text.ofDecimal?_decimal]
  simp only [Option.filter_some, ite_eq_left_iff, decide_eq_true_eq]
  omega

theorem dot_not_mem_decimal {d : Nat} : '.' ∉ Text.decimal d := fun h =>
  absurd (Text.isDigit_of_mem h) (by decide)

/-- The number that a dotted text writes is read back. -/
theorem ofDotted?_dotted {digits : List Nat} (hlen : digits.length = 4)
    (hfit : Digits.Fit 8 digits) : ofDotted? (dotted digits) = some (Version.v4.join digits) := by
  have hsplit : (dotted digits).splitOn '.' = digits.map Text.decimal := by
    refine List.splitOn_intercalate '.' (fun field hfield => ?_) (fun h => ?_)
    · obtain ⟨d, -, rfl⟩ := List.mem_map.1 hfield
      exact dot_not_mem_decimal
    · simp [List.map_eq_nil_iff.1 h] at hlen
  unfold ofDotted?
  rw [hsplit, mapM_map_eq_some fun d hd => octet?_decimal (hfit d hd), Option.bind_some,
    if_pos hlen]

/-- The characters of a dotted text are digits and points. -/
theorem mem_dotted {digits : List Nat} {c : Char} (hc : c ∈ dotted digits) :
    c.isDigit ∨ c = '.' := by
  obtain rfl | ⟨field, hfield, hc⟩ := eq_or_mem_of_mem_intercalate hc
  · exact .inr rfl
  · obtain ⟨d, -, rfl⟩ := List.mem_map.1 hfield
    exact .inl (Text.isDigit_of_mem hc)

/-- The text of an IPv4 address is read back. -/
theorem ofDotted?_dotted_split {value : Nat} (h : value ≤ Version.v4.maxValue) :
    ofDotted? (dotted (Version.v4.split value)) = some value := by
  rw [ofDotted?_dotted (Version.length_split _ _) (Version.v4.fit_split value),
    Version.join_split h]

theorem colon_not_mem_dotted {digits : List Nat} : ':' ∉ dotted digits := by
  intro h
  obtain h | h := mem_dotted h
  · exact absurd h (by decide)
  · exact absurd h (by decide)

theorem dot_mem_dotted_split (value : Nat) : '.' ∈ dotted (Version.v4.split value) := by
  simp [Version.split, Version.segmentCount, Digits.split, dotted, List.intercalate_cons_cons]

/-! ## Groups -/

/-- A group is read back. -/
theorem group?_hexadecimal {d : Nat} (hd : d < 2 ^ 16) : group? (Text.hexadecimal d) = some d := by
  have hne : Text.hexadecimal d ≠ [] := Nat.toDigits_ne_nil
  have hlen : (Text.hexadecimal d).length ≤ 4 :=
    (Nat.length_toDigits_le_iff (by decide) (by decide)).2 (by omega)
  unfold group?
  rw [if_neg (by simp only [List.isEmpty_iff, hne, false_or]; omega),
    Text.ofHexadecimal?_hexadecimal]

theorem groups_cons_cons (d e : Nat) (ds : List Nat) :
    groups (d :: e :: ds) = Text.hexadecimal d ++ ':' :: groups (e :: ds) := by
  simp [groups, List.intercalate_cons_cons]

theorem groups_singleton (d : Nat) : groups [d] = Text.hexadecimal d :=
  List.intercalate_singleton

/-- The characters of groups are hexadecimal digits and colons. -/
theorem mem_groups {digits : List Nat} {c : Char} (hc : c ∈ groups digits) :
    (Text.hexDigit? c).isSome ∨ c = ':' := by
  obtain rfl | ⟨field, hfield, hc⟩ := eq_or_mem_of_mem_intercalate hc
  · exact .inr rfl
  · obtain ⟨d, -, rfl⟩ := List.mem_map.1 hfield
    exact .inl (Text.isSome_hexDigit?_of_mem hc)

theorem colon_not_mem_hexadecimal {d : Nat} : ':' ∉ Text.hexadecimal d := fun h =>
  absurd (Text.isSome_hexDigit?_of_mem h) (by decide)

theorem dot_not_mem_hexadecimal {d : Nat} : '.' ∉ Text.hexadecimal d := fun h =>
  absurd (Text.isSome_hexDigit?_of_mem h) (by decide)

/-- Fields that write groups are read back. -/
theorem ofFields?_map_hexadecimal {digits : List Nat} (hfit : Digits.Fit 16 digits) :
    ofFields? (digits.map Text.hexadecimal) = some digits := by
  induction digits with
  | nil => rfl
  | cons d ds ih =>
      rw [Digits.fit_cons] at hfit
      cases ds with
      | nil => simp [ofFields?, dot_not_mem_hexadecimal, group?_hexadecimal hfit.1]
      | cons e es =>
          have hrest := ih hfit.2
          rw [List.map_cons] at hrest
          simp [ofFields?, group?_hexadecimal hfit.1, hrest]

/-- Splitting groups at the colons gives the fields. -/
theorem splitOn_groups {digits : List Nat} (hne : digits ≠ []) :
    (groups digits).splitOn ':' = digits.map Text.hexadecimal := by
  refine List.splitOn_intercalate ':' (fun field hfield => ?_)
    (fun h => hne (List.map_eq_nil_iff.1 h))
  obtain ⟨d, -, rfl⟩ := List.mem_map.1 hfield
  exact colon_not_mem_hexadecimal

/-- Groups begin with a digit. -/
theorem head?_groups {d : Nat} {ds : List Nat} :
    ∃ c, (groups (d :: ds)).head? = some c ∧ c ∈ Text.hexadecimal d := by
  have hne : Text.hexadecimal d ≠ [] := Nat.toDigits_ne_nil
  refine ⟨(Text.hexadecimal d).head hne, ?_, List.head_mem hne⟩
  cases ds with
  | nil => rw [groups_singleton, List.head?_eq_some_head]
  | cons e es => rw [groups_cons_cons, List.head?_append_of_ne_nil _ hne, List.head?_eq_some_head]

theorem groups_ne_nil {digits : List Nat} (hne : digits ≠ []) : groups digits ≠ [] := by
  obtain ⟨d, ds, rfl⟩ := List.exists_cons_of_ne_nil hne
  obtain ⟨c, hc, -⟩ := @head?_groups d ds
  rintro hnil
  simp [hnil] at hc

/-- The groups on one side of a double colon are read back. -/
theorem side?_groups {digits : List Nat} (hfit : Digits.Fit 16 digits) :
    side? (groups digits) = some digits := by
  unfold side?
  by_cases hnil : digits = []
  · rw [hnil]
    rfl
  · rw [if_neg (by rw [List.isEmpty_iff]; exact groups_ne_nil hnil), splitOn_groups hnil,
      ofFields?_map_hexadecimal hfit]

/-! ## The double colon -/

/-- Characters other than colons are passed over. -/
theorem cutDoubleColon_append {cs : List Char} (hcs : ':' ∉ cs) (rest : List Char) :
    cutDoubleColon (cs ++ rest)
      = (cutDoubleColon rest).map fun (front, back) => (cs ++ front, back) := by
  induction cs with
  | nil => simp
  | cons c cs ih =>
      rw [List.mem_cons, not_or] at hcs
      rw [List.cons_append, cutDoubleColon, ih hcs.2, Option.map_map]
      · rfl
      · rintro rest' rfl
        exact absurd rfl hcs.1

/-- So is a colon that no other follows. -/
theorem cutDoubleColon_colon {cs : List Char} (hcs : cs.head? ≠ some ':') :
    cutDoubleColon (':' :: cs)
      = (cutDoubleColon cs).map fun (front, back) => (':' :: front, back) := by
  rw [cutDoubleColon]
  rintro rest - rfl
  exact hcs rfl

/-- Groups hold no double colon, and together with what stands behind them make none. -/
theorem cutDoubleColon_groups (digits : List Nat) (rest : List Char) :
    cutDoubleColon (groups digits ++ rest)
      = (cutDoubleColon rest).map fun (front, back) => (groups digits ++ front, back) := by
  induction digits with
  | nil => simp [groups]
  | cons d ds ih =>
      cases ds with
      | nil =>
          rw [groups_singleton]
          exact cutDoubleColon_append colon_not_mem_hexadecimal rest
      | cons e es =>
          have hhead : (groups (e :: es) ++ rest).head? ≠ some ':' := by
            obtain ⟨c, hc, hmem⟩ := @head?_groups e es
            rw [List.head?_append_of_ne_nil _ (groups_ne_nil (List.cons_ne_nil e es)), hc, ne_eq,
              Option.some_inj]
            rintro rfl
            exact colon_not_mem_hexadecimal hmem
          rw [groups_cons_cons, List.append_assoc, List.cons_append,
            cutDoubleColon_append colon_not_mem_hexadecimal, cutDoubleColon_colon hhead, ih,
            Option.map_map, Option.map_map]
          simp [Function.comp_def]

/-- Groups alone hold no double colon. -/
theorem cutDoubleColon_groups_eq_none (digits : List Nat) :
    cutDoubleColon (groups digits) = none := by
  have h := cutDoubleColon_groups digits []
  rw [List.append_nil] at h
  exact h

/-- Groups are cut off at the double colon behind them. -/
theorem cutDoubleColon_groups_append (digits : List Nat) (back : List Char) :
    cutDoubleColon (groups digits ++ ':' :: ':' :: back) = some (groups digits, back) := by
  simp [cutDoubleColon_groups, cutDoubleColon]

/-! ## Compressed addresses -/

/-- The zeros at the front of a list, and the rest. -/
theorem eq_replicate_takeWhile (digits : List Nat) :
    digits = List.replicate (digits.takeWhile (· == 0)).length 0
      ++ digits.drop (digits.takeWhile (· == 0)).length := by
  induction digits with
  | nil => rfl
  | cons d ds ih =>
      by_cases hd : d = 0
      · subst hd
        have hpos : ((0 : Nat) :: ds).takeWhile (· == 0) = 0 :: ds.takeWhile (· == 0) := rfl
        rw [hpos, List.length_cons, List.replicate_succ, List.cons_append, List.drop_succ_cons,
          ← ih]
      · rw [List.takeWhile_cons_of_neg (by simpa using hd)]
        rfl

/-- The run that is left out consists of zeros. -/
theorem eq_longestZeroRun (digits : List Nat) :
    digits = digits.take (longestZeroRun digits).1
      ++ List.replicate (longestZeroRun digits).2 0
      ++ digits.drop ((longestZeroRun digits).1 + (longestZeroRun digits).2) := by
  induction digits with
  | nil => rfl
  | cons d ds ih =>
      rw [longestZeroRun]
      simp only
      split
      · rw [List.take_zero, List.nil_append, Nat.zero_add]
        exact eq_replicate_takeWhile (d :: ds)
      · rw [List.take_succ_cons, Nat.add_right_comm, List.drop_succ_cons, List.cons_append,
          List.cons_append, ← ih]

theorem dot_not_mem_groups {digits : List Nat} : '.' ∉ groups digits := by
  intro h
  obtain h | h := mem_groups h
  · exact absurd h (by decide)
  · exact absurd h (by decide)

/-- Groups on both sides of a double colon are read back with the missing zeros between them. -/
theorem ofGroups?_doubleColon {front back : List Nat} (hfront : Digits.Fit 16 front)
    (hback : Digits.Fit 16 back) (hlt : front.length + back.length < 8) :
    ofGroups? (groups front ++ [':', ':'] ++ groups back)
      = some (front ++ List.replicate (8 - (front.length + back.length)) 0 ++ back) := by
  have hcut : cutDoubleColon (groups front ++ [':', ':'] ++ groups back)
      = some (groups front, groups back) := by
    rw [List.append_assoc]
    exact cutDoubleColon_groups_append front (groups back)
  unfold ofGroups?
  rw [hcut]
  simp [dot_not_mem_groups, side?_groups hfront, side?_groups hback, hlt]

/-- Eight groups are read back, whether or not some are left out. -/
theorem ofGroups?_compressed {digits : List Nat} (hlen : digits.length = 8)
    (hfit : Digits.Fit 16 digits) : ofGroups? (compressed digits) = some digits := by
  have hrun := eq_longestZeroRun digits
  unfold compressed
  simp only
  generalize hfront : digits.take (longestZeroRun digits).1 = front at hrun ⊢
  generalize hback : digits.drop ((longestZeroRun digits).1 + (longestZeroRun digits).2) = back
    at hrun ⊢
  by_cases hshort : (longestZeroRun digits).2 < 2
  · have hne : digits ≠ [] := List.ne_nil_of_length_pos (by omega)
    rw [if_pos hshort]
    unfold ofGroups?
    rw [cutDoubleColon_groups_eq_none]
    simp [splitOn_groups hne, ofFields?_map_hexadecimal hfit, hlen]
  · -- The zeros that are missing beside the given groups are those that were left out.
    have hgiven : front.length + back.length + (longestZeroRun digits).2 = 8 := by
      have hlength := congrArg List.length hrun
      simp only [List.length_append, List.length_replicate] at hlength
      omega
    have hmissing : 8 - (front.length + back.length) = (longestZeroRun digits).2 := by omega
    have hfrontFit : Digits.Fit 16 front := fun d hd => hfit d (List.mem_of_mem_take (hfront ▸ hd))
    have hbackFit : Digits.Fit 16 back := fun d hd => hfit d (List.mem_of_mem_drop (hback ▸ hd))
    rw [if_neg hshort, ofGroups?_doubleColon hfrontFit hbackFit (by omega), hmissing, ← hrun]

/-! ## Addresses -/

/-- An address that maps an IPv4 address has that address as its last two groups, behind a group of
ones and zeros. -/
theorem split_of_mapped? {value inner : Nat} (h : mapped? value = some inner) :
    Version.v6.split value = [0, 0, 0, 0, 0, 0xffff] ++ Digits.split 16 2 inner := by
  unfold mapped? at h
  split at h
  case isFalse => cases h
  case isTrue hones =>
    cases h
    simp [Version.split, Version.segmentBits, Version.segmentCount, Digits.split]
    omega

/-- The groups of a mapped address are read back. -/
theorem ofGroups?_mapped {inner : Nat} (hinner : inner ≤ Version.v4.maxValue) :
    ofGroups? ("::ffff:".toList ++ dotted (Version.v4.split inner))
      = some ([0, 0, 0, 0, 0, 0xffff] ++ Digits.split 16 2 inner) := by
  have hsplit : ("ffff:".toList ++ dotted (Version.v4.split inner)).splitOn ':'
      = ["ffff".toList, dotted (Version.v4.split inner)] := by
    have hcolon : ∀ field ∈ ["ffff".toList, dotted (Version.v4.split inner)], ':' ∉ field := by
      simpa using colon_not_mem_dotted
    have hfields := List.splitOn_intercalate ':' hcolon (List.cons_ne_nil _ _)
    simpa [List.intercalate_cons_cons] using hfields
  have hlast : ofFields? [dotted (Version.v4.split inner)] = some (Digits.split 16 2 inner) := by
    simp [ofFields?, dot_mem_dotted_split, ofDotted?_dotted_split hinner]
  -- What follows the double colon is one group of ones and an address of version 4.
  have hback : side? ("ffff:".toList ++ dotted (Version.v4.split inner))
      = some (0xffff :: Digits.split 16 2 inner) := by
    have hones : group? "ffff".toList = some 0xffff := by decide
    unfold side?
    rw [if_neg (by simp), hsplit, ofFields?, hones, hlast]
    · rfl
    · exact List.cons_ne_nil _ _
  have hcut : cutDoubleColon ("::ffff:".toList ++ dotted (Version.v4.split inner))
      = some ([], "ffff:".toList ++ dotted (Version.v4.split inner)) := rfl
  unfold ofGroups?
  rw [hcut]
  simp only [hback]
  simp [side?, Digits.length_split]

/-- A text of groups has a colon in it. -/
theorem colon_mem_compressed {digits : List Nat} (hlen : 2 ≤ digits.length) :
    ':' ∈ compressed digits := by
  unfold compressed
  simp only
  split
  · match digits, hlen with
    | d :: e :: ds, _ => simp [groups_cons_cons]
  · simp

theorem inner_le_of_mapped? {value inner : Nat} (h : mapped? value = some inner) :
    inner ≤ Version.v4.maxValue := by
  unfold mapped? at h
  split at h
  · cases h
    exact Nat.le_pred_of_lt (Nat.mod_lt value (Nat.two_pow_pos 32))
  · cases h

/-- The groups of an IPv6 address are read back from its text, which has a colon in it. -/
theorem ofGroups?_chars_v6 (value : Nat) :
    ofGroups? (chars ⟨.v6, value⟩) = some (Version.v6.split value) ∧ ':' ∈ chars ⟨.v6, value⟩ := by
  unfold chars
  simp only
  cases hmapped : mapped? value with
  | some inner =>
      refine ⟨?_, List.mem_append_left _ (by decide)⟩
      rw [ofGroups?_mapped (inner_le_of_mapped? hmapped), split_of_mapped? hmapped]
  | none =>
      have hlen : (Version.v6.split value).length = 8 := Version.length_split _ _
      exact ⟨ofGroups?_compressed hlen (Version.v6.fit_split value),
        colon_mem_compressed (by omega)⟩

/-- Every address is read back from its text. -/
theorem ofChars?_chars (a : HostAddress) (h : a.value ≤ a.version.maxValue) :
    ofChars? a.chars = some a := by
  obtain ⟨version, value⟩ := a
  unfold ofChars?
  cases version with
  | v4 =>
      rw [if_neg (by simpa [chars] using colon_not_mem_dotted), chars, ofDotted?_dotted_split h]
      rfl
  | v6 =>
      obtain ⟨hgroups, hcolon⟩ := ofGroups?_chars_v6 value
      rw [if_pos (by simpa using hcolon), hgroups, Option.map_some, Version.join_split h]

end HostAddress

end IpSpace
