import IpSpace.Proofs.SectionText
import IpSpace.Report.Layout

/-!
# What a layout tells

A JSON value is known from its text, and so is where the text ends, whatever follows: behind a value
of a document there is nothing, a comma or a line feed (`Layout.Follows`), and none of them goes on
with a number. `Layout.Tells` says this of two layouts, in terms of what is learned from their texts
being the same; it is put together along the layouts. A string ends at the first quote that no
backslash stands in front of, since what is escaped is read back (`Layout.unescape?_escape`). An
array or object is read row by row: a comma leads to the next row, and a line feed out of the
brackets (`Layout.TellsRows`).
-/

namespace IpSpace.Report

namespace Layout

/-! ## Specification -/

/-- What stands behind a value in a document. -/
def Follows (rest : List Char) : Prop :=
  ∀ c ∈ rest.head?, c = ',' ∨ c = '\n'

/-- If texts begin with the one and the other layout, at the same depth, and are the same, then `p`
holds, and they are the same behind the layouts too. -/
def Tells (x y : Layout) (p : Prop) : Prop :=
  ∀ depth rest rest', Follows rest → Follows rest' → x depth ++ rest = y depth ++ rest' →
    p ∧ rest = rest'

/-- Layouts on lines of their own, with a comma in front of each line. -/
def rows (items : List Layout) (depth : Nat) : List Char :=
  items.flatMap fun item => ',' :: (newline depth ++ item depth)

/-- `Tells` for layouts on lines of their own, which are followed by the end of a line. -/
def TellsRows (xs ys : List Layout) (p : Prop) : Prop :=
  ∀ depth rest rest', rows xs depth ++ '\n' :: rest = rows ys depth ++ '\n' :: rest' →
    p ∧ rest = rest'

variable {x y : Layout} {xs ys : List Layout} {p q : Prop}

/-- What tells a property tells whatever follows from it. -/
theorem Tells.imp (h : x.Tells y p) (hpq : p → q) : x.Tells y q :=
  fun depth rest rest' hrest hrest' heq => (h depth rest rest' hrest hrest' heq).imp_left hpq

/-- Documents with the same text. -/
theorem Tells.of_chars_eq (h : x.Tells y p) (heq : x.chars = y.chars) : p := by
  refine (h 0 [] [] (by simp [Follows]) (by simp [Follows]) ?_).1
  rw [List.append_nil, List.append_nil]
  exact heq

/-! ## Strings -/

/-- The first character of the text inside a string, and the text behind it. -/
def unescape? : List Char → Option (Char × List Char)
  | '\\' :: '"' :: rest => some ('"', rest)
  | '\\' :: '\\' :: rest => some ('\\', rest)
  | '\\' :: 'b' :: rest => some ('\x08', rest)
  | '\\' :: 'f' :: rest => some ('\x0c', rest)
  | '\\' :: 'n' :: rest => some ('\n', rest)
  | '\\' :: 'r' :: rest => some ('\r', rest)
  | '\\' :: 't' :: rest => some ('\t', rest)
  | '\\' :: 'u' :: rest =>
    (Text.ofHexadecimal? (rest.take 4)).map fun n => (Char.ofNat n, rest.drop 4)
  | c :: rest => some (c, rest)
  | [] => none

theorem unescape?_of_ne {c : Char} (hc : c ≠ '\\') (rest : List Char) :
    unescape? (c :: rest) = some (c, rest) := by
  unfold unescape?
  split <;> simp_all

/-- A number in hexadecimal, filled up to four digits. -/
def fourDigits (n : Nat) : List Char :=
  List.replicate (4 - (Text.hexadecimal n).length) '0' ++ Text.hexadecimal n

/-- Control characters have no more than four digits. -/
theorem ofHexadecimal?_fourDigits : ∀ n < 0x20,
    (fourDigits n).length = 4 ∧ Text.ofHexadecimal? (fourDigits n) = some n := by
  decide

/-- **What is escaped is read back.** -/
theorem unescape?_escape (c : Char) (rest : List Char) :
    unescape? (escape c ++ rest) = some (c, rest) := by
  unfold escape
  split
  iterate 7 rfl
  split
  case isTrue hcontrol =>
    obtain ⟨hlen, hread⟩ := ofHexadecimal?_fourDigits c.toNat hcontrol
    show (Text.ofHexadecimal? ((fourDigits c.toNat ++ rest).take 4)).map
      (fun n => (Char.ofNat n, (fourDigits c.toNat ++ rest).drop 4)) = some (c, rest)
    rw [List.take_left' hlen, List.drop_left' hlen, hread, Option.map_some, Char.ofNat_toNat]
  case isFalse hplain =>
    exact unescape?_of_ne (by assumption) rest

/-- An escaped character is found again in front of any text. -/
theorem escape_append_inj {c d : Char} {rest rest' : List Char}
    (h : escape c ++ rest = escape d ++ rest') : c = d ∧ rest = rest' := by
  have hread := congrArg unescape? h
  rw [unescape?_escape, unescape?_escape] at hread
  exact Prod.ext_iff.1 (Option.some.inj hread)

/-- No character is written with a quote in front. -/
theorem escape_append_ne_quote {c : Char} {rest rest' : List Char} :
    escape c ++ rest ≠ '"' :: rest' := by
  intro h
  have hread := congrArg unescape? h
  rw [unescape?_escape] at hread
  obtain ⟨rfl, -⟩ := Prod.ext_iff.1 (Option.some.inj hread)
  cases h

/-- A string ends where its closing quote is. -/
theorem escapes_append_inj {cs ds rest rest' : List Char}
    (h : cs.flatMap escape ++ '"' :: rest = ds.flatMap escape ++ '"' :: rest') :
    cs = ds ∧ rest = rest' := by
  induction cs generalizing ds with
  | nil =>
      cases ds with
      | nil => exact ⟨rfl, List.tail_eq_of_cons_eq h⟩
      | cons d ds =>
          rw [List.flatMap_cons, List.append_assoc] at h
          exact absurd h.symm escape_append_ne_quote
  | cons c cs ih =>
      cases ds with
      | nil =>
          rw [List.flatMap_cons, List.append_assoc] at h
          exact absurd h escape_append_ne_quote
      | cons d ds =>
          rw [List.flatMap_cons, List.flatMap_cons, List.append_assoc, List.append_assoc] at h
          obtain ⟨rfl, hrest⟩ := escape_append_inj h
          obtain ⟨rfl, rfl⟩ := ih hrest
          exact ⟨rfl, rfl⟩

/-- **A text in quotes tells itself from all others.** -/
theorem tells_string (cs ds : List Char) : (string cs).Tells (string ds) (cs = ds) := by
  intro depth rest rest' _ _ h
  refine escapes_append_inj ?_
  simpa [string] using h

/-! ## Numbers -/

/-- A number ends where its digits end. -/
theorem takeWhile_decimal {rest : List Char} (h : Follows rest) (n : Nat) :
    (Text.decimal n ++ rest).takeWhile Char.isDigit = Text.decimal n := by
  have hrest : rest.takeWhile Char.isDigit = [] := by
    cases rest with
    | nil => rfl
    | cons c rest =>
        obtain rfl | rfl := h c rfl
        · rfl
        · rfl
  rw [List.takeWhile_append_of_pos fun c hc => Text.isDigit_of_mem hc, hrest, List.append_nil]

/-- A number tells itself from all others. -/
theorem tells_number (m n : Nat) : (number m).Tells (number n) (m = n) := by
  intro depth rest rest' hrest hrest' h
  have hdigits := congrArg (List.takeWhile Char.isDigit) h
  rw [number, number, takeWhile_decimal hrest, takeWhile_decimal hrest'] at hdigits
  obtain rfl := Text.decimal_injective hdigits
  exact ⟨rfl, List.append_cancel_left h⟩

/-- No number begins like `null`. -/
theorem null_append_ne_number (n depth : Nat) (rest rest' : List Char) :
    null depth ++ rest ≠ number n depth ++ rest' := by
  intro h
  have hdigit : ∀ c ∈ Text.decimal n, c.isDigit := fun c hc => Text.isDigit_of_mem hc
  obtain ⟨c, cs, hcs⟩ : ∃ c cs, Text.decimal n = c :: cs :=
    List.exists_cons_of_ne_nil Nat.toDigits_ne_nil
  rw [hcs] at hdigit
  rw [number, hcs] at h
  obtain ⟨rfl, -⟩ := List.cons_eq_cons.1 h
  cases hdigit 'n' List.mem_cons_self

/-- A number may be missing. -/
theorem tells_optional (m n : Option Nat) :
    Tells (match m with | some p => number p | none => null)
      (match n with | some p => number p | none => null) (m = n) := by
  intro depth rest rest' hrest hrest' h
  rcases m with - | m <;> rcases n with - | n
  · exact ⟨rfl, List.append_cancel_left h⟩
  · exact absurd h (null_append_ne_number n depth rest rest')
  · exact absurd h.symm (null_append_ne_number m depth rest' rest)
  · exact (tells_number m n depth rest rest' hrest hrest' h).imp_left (congrArg some)

/-! ## Rows -/

/-- Every row begins with a comma and a new line. -/
theorem rows_cons (x : Layout) (xs : List Layout) (depth : Nat) (tail : List Char) :
    rows (x :: xs) depth ++ tail = ',' ::
      (newline depth ++ (x depth ++ (rows xs depth ++ tail))) := by
  simp [rows]

/-- Behind a layout in a row comes another row or the end of the line. -/
theorem follows_rows (xs : List Layout) (depth : Nat) (rest : List Char) :
    Follows (rows xs depth ++ '\n' :: rest) := by
  cases xs with
  | nil => simp [Follows, rows]
  | cons x xs => simp [Follows, rows_cons]

theorem TellsRows.nil : TellsRows [] [] True :=
  fun _ _ _ h => ⟨trivial, List.tail_eq_of_cons_eq h⟩

/-- One more row tells one more property. -/
theorem TellsRows.cons (h : x.Tells y p) (hs : TellsRows xs ys q) :
    TellsRows (x :: xs) (y :: ys) (p ∧ q) := by
  intro depth rest rest' heq
  rw [rows_cons, rows_cons] at heq
  have htail := List.append_cancel_left (List.tail_eq_of_cons_eq heq)
  obtain ⟨hp, hrows⟩ := h depth _ _ (follows_rows xs depth rest) (follows_rows ys depth rest') htail
  obtain ⟨hq, hrest⟩ := hs depth rest rest' hrows
  exact ⟨⟨hp, hq⟩, hrest⟩

theorem TellsRows.imp (h : TellsRows xs ys p) (hpq : p → q) : TellsRows xs ys q :=
  fun depth rest rest' heq => (h depth rest rest' heq).imp_left hpq

/-- The first row is told from the end of the line by its comma. -/
theorem TellsRows.nil_cons : TellsRows [] (y :: ys) q := by
  intro depth rest rest' h
  rw [rows_cons] at h
  cases h

/-- A row tells the list that has it from one that has no more. -/
theorem TellsRows.cons_nil : TellsRows (x :: xs) [] q := by
  intro depth rest rest' h
  rw [rows_cons] at h
  cases h

/-- **Rows of one kind are known one by one, and so is how many there are.** -/
theorem TellsRows.map {α : Type} {f : α → Layout} {as bs : List α}
    (h : ∀ a ∈ as, ∀ b ∈ bs, (f a).Tells (f b) (a = b)) :
    TellsRows (as.map f) (bs.map f) (as = bs) := by
  induction as generalizing bs with
  | nil =>
      cases bs with
      | nil => exact TellsRows.nil.imp fun _ => rfl
      | cons b bs => exact .nil_cons
  | cons a as ih =>
      cases bs with
      | nil => exact .cons_nil
      | cons b bs =>
          have hfirst := h a List.mem_cons_self b List.mem_cons_self
          have hrest :=
            ih fun a ha b hb => h a (List.mem_cons_of_mem _ ha) b (List.mem_cons_of_mem _ hb)
          exact (TellsRows.cons hfirst hrest).imp fun ⟨hab, has⟩ => hab ▸ has ▸ rfl

/-! ## Brackets -/

theorem comma_intercalate (line : Layout → List Char) (x : Layout) (xs : List Layout) :
    ',' :: List.intercalate [','] ((x :: xs).map line) = (x :: xs).flatMap (',' :: line ·) := by
  induction xs generalizing x with
  | nil => simp
  | cons y xs ih =>
      rw [List.flatMap_cons, ← ih, List.map_cons, List.map_cons, List.intercalate_cons_cons,
        List.append_assoc]
      rfl

/-- Behind an opening bracket, and a comma in its place, the members stand in rows. -/
theorem members_cons (opening closing : Char) (x : Layout) (xs : List Layout) (depth : Nat)
    (rest : List Char) : ∃ tail, members opening closing (x :: xs) depth ++ rest = opening :: tail ∧
      ',' :: tail = rows (x :: xs) (depth + 1) ++ '\n' ::
        (List.replicate (2 * depth) ' ' ++ closing :: rest) := by
  refine ⟨_, rfl, ?_⟩
  rw [rows, ← comma_intercalate]
  simp [newline]

/-- Behind the opening bracket of an array or object with members comes a line feed. -/
theorem members_cons_append_ne {opening closing : Char} (hclosing : closing ≠ '\n') (x : Layout)
    (xs : List Layout) (depth : Nat) (rest rest' : List Char) :
    members opening closing (x :: xs) depth ++ rest
      ≠ members opening closing [] depth ++ rest' := by
  intro h
  obtain ⟨tail, htail, hrows⟩ := members_cons opening closing x xs depth rest
  rw [rows_cons, newline] at hrows
  rw [htail, List.tail_eq_of_cons_eq hrows] at h
  exact hclosing (List.cons_eq_cons.1 (List.tail_eq_of_cons_eq h)).1.symm

/-- Brackets with nothing between them are told from brackets with members by the line feed behind
the opening one. -/
theorem tells_members {opening closing : Char} (hclosing : closing ≠ '\n') (h : TellsRows xs ys p) :
    (members opening closing xs).Tells (members opening closing ys) p := by
  intro depth rest rest' _ _ heq
  rcases xs with - | ⟨x, xs⟩ <;> rcases ys with - | ⟨y, ys⟩
  · exact ⟨(h 0 [] [] rfl).1, List.append_cancel_left heq⟩
  · exact absurd heq.symm (members_cons_append_ne hclosing y ys depth rest' rest)
  · exact absurd heq (members_cons_append_ne hclosing x xs depth rest rest')
  · obtain ⟨tail, htail, hrows⟩ := members_cons opening closing x xs depth rest
    obtain ⟨tail', htail', hrows'⟩ := members_cons opening closing y ys depth rest'
    rw [htail, htail'] at heq
    rw [List.tail_eq_of_cons_eq heq, hrows'] at hrows
    obtain ⟨hp, hrest⟩ := h _ _ _ hrows.symm
    exact ⟨hp, List.tail_eq_of_cons_eq (List.append_cancel_left hrest)⟩

/-- **An array is known member by member, and so is how many members it has.** -/
theorem tells_array {α : Type} {f : α → Layout} {as bs : List α}
    (h : ∀ a ∈ as, ∀ b ∈ bs, (f a).Tells (f b) (a = b)) :
    (array (as.map f)).Tells (array (bs.map f)) (as = bs) :=
  tells_members (by decide) (.map h)

/-! ## Objects -/

/-- A field of an object. -/
def field : String × Layout → Layout := fun (name, value) => fun depth =>
  string name.toList depth ++ [':', ' '] ++ value depth

/-- A field tells what its value does. -/
theorem Tells.field {name : String} (h : x.Tells y p) :
    (field (name, x)).Tells (field (name, y)) p := by
  intro depth rest rest' hrest hrest' heq
  refine h depth rest rest' hrest hrest' ?_
  simpa only [Layout.field, List.append_assoc, List.append_cancel_left_eq] using heq

/-- `Tells` for the fields of objects with the same names. -/
def TellsFields (fields others : List (String × Layout)) (p : Prop) : Prop :=
  TellsRows (fields.map field) (others.map field) p

section Fields

variable {name : String} {fields others : List (String × Layout)}

theorem TellsFields.nil : TellsFields [] [] True :=
  TellsRows.nil

/-- One more field tells one more property. -/
theorem TellsFields.cons (h : x.Tells y p) (hs : TellsFields fields others q) :
    TellsFields ((name, x) :: fields) ((name, y) :: others) (p ∧ q) :=
  TellsRows.cons h.field hs

/-- **An object is known field by field.** -/
theorem tells_object (h : TellsFields fields others p) : (object fields).Tells (object others) p :=
  tells_members (by decide) h

end Fields

end Layout

end IpSpace.Report
