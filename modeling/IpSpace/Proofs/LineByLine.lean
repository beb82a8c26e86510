import IpSpace.Proofs.EntryLines
import Mathlib.Data.List.ReduceOption

/-!
# Range lists line by line

A range list is read one line after the other, up to the first one that is wrong. What the lines of
a text are is said by `HasLines`, in which a carriage return in front of a line feed belongs to the
end of a line; reading a list trims it with the other blanks, to the same effect
(`RangeList.ofChars_eq_ofLines`).

The number of a line matters only for errors, which move with it (`RangeList.ofLine_add`). So a list
of lines can be read in two parts, of which the second begins at the number behind the first
(`RangeList.ofLines_append`), and a text that ends with a line feed can be continued by any other
(`RangeList.ofChars_append_exact`).
-/

namespace IpSpace

/-! ## Specification -/

namespace ListError

/-- The number of the line that an error is about. -/
def line? : ListError → Option Nat
  | malformed line _ | address line _ => some line
  | unreadable => none

/-- The same error, `count` lines further down. -/
def later (count : Nat) : ListError → ListError
  | malformed line entry => malformed (line + count) entry
  | address line cause => address (line + count) cause
  | unreadable => unreadable

end ListError

/-- A line without a carriage return at its end. -/
def withoutReturn (l : List Char) : List Char :=
  if l.getLast? = some '\r' then l.dropLast else l

/-- The lines of a text. A line feed ends a line, together with a carriage return in front of it;
what stands behind the last line feed is a line if there is anything. -/
inductive HasLines : List Char → List (List Char) → Prop
  | nil : HasLines [] []
  | last {l : List Char} (hfeed : '\n' ∉ l) (hne : l ≠ []) : HasLines l [l]
  | cons {l rest : List Char} {ls : List (List Char)} (hfeed : '\n' ∉ l)
      (hrest : HasLines rest ls) :
      HasLines (l ++ '\n' :: rest) (withoutReturn l :: ls)

/-- A line holds a range or nothing, wherever it stands. -/
def Holds (l : List Char) (found : Option AddressRange) : Prop :=
  ∀ line, RangeList.ofLine line l = .ok found

/-! ## The lines of a text -/

/-- A carriage return at the end of a line is trimmed. -/
theorem RangeList.entryPart_withoutReturn (l : List Char) :
    entryPart (withoutReturn l) = entryPart l := by
  unfold withoutReturn
  split
  case isFalse => rfl
  case isTrue hlast =>
    obtain ⟨front, rfl⟩ := List.getLast?_eq_some_iff.1 hlast
    rw [List.dropLast_concat]
    obtain ⟨⟨blanks, back, comment, hfront, hblanks, hback, hcomment⟩, hhash, hfirst, hend⟩ :=
      (@isEntryOf_iff front (entryPart front)).2 rfl
    refine isEntryOf_iff.1 ⟨?_, hhash, hfirst, hend⟩
    -- the carriage return joins the comment, or the blanks if there is none
    cases comment with
    | nil =>
        refine ⟨blanks, back ++ ['\r'], [], ?_, hblanks, ?_, by simp⟩
        · rw [List.append_nil] at hfront
          rw [List.append_nil, ← List.append_assoc, ← hfront]
        · exact List.forall_mem_append.2 ⟨hback, List.forall_mem_singleton.2 (by decide)⟩
    | cons c cs =>
        refine ⟨blanks, back, c :: cs ++ ['\r'], ?_, hblanks, hback, by simpa using hcomment⟩
        rw [← List.append_assoc, ← hfront]

namespace HasLines

variable {text rest l : List Char} {ls : List (List Char)}

/-- A character in front of a text goes to the first line, unless it is a line feed. -/
theorem exists_cons (c : Char) (h : HasLines rest ls) : ∃ ls', HasLines (c :: rest) ls' := by
  by_cases hc : c = '\n'
  · exact ⟨_, hc ▸ cons (List.not_mem_nil) h⟩
  · have hmem : ∀ {l : List Char}, '\n' ∉ l → '\n' ∉ c :: l := fun hl hmem =>
      (List.mem_cons.1 hmem).elim (fun heq => hc heq.symm) hl
    cases h with
    | nil => exact ⟨_, last (hmem List.not_mem_nil) (List.cons_ne_nil c [])⟩
    | last hfeed hne => exact ⟨_, last (hmem hfeed) (List.cons_ne_nil _ _)⟩
    | cons hfeed hrest => exact ⟨_, cons (hmem hfeed) hrest⟩

/-- Every text has lines. -/
theorem exists_lines (text : List Char) : ∃ ls, HasLines text ls := by
  induction text with
  | nil => exact ⟨[], nil⟩
  | cons c cs ih =>
      obtain ⟨ls, hls⟩ := ih
      exact hls.exists_cons c

/-- The lines that a list is read by are those of the text, up to a carriage return at the end. -/
theorem forall₂_lines (h : HasLines text ls) :
    List.Forall₂ (fun l raw => l = raw ∨ l = withoutReturn raw) ls (RangeList.lines text) := by
  induction h with
  | nil => exact .nil
  | last hfeed hne =>
      rw [RangeList.lines_eq_singleton hfeed hne]
      exact .cons (.inl rfl) .nil
  | cons hfeed _ ih =>
      rw [RangeList.lines_append hfeed]
      exact .cons (.inr rfl) ih

/-- A line and what follows its line feed are known from the text. -/
theorem append_lineFeed_inj {l' rest' : List Char} (hl : '\n' ∉ l) (hl' : '\n' ∉ l')
    (h : l ++ '\n' :: rest = l' ++ '\n' :: rest') : l = l' ∧ rest = rest' := by
  have hlines := congrArg RangeList.lines h
  rw [RangeList.lines_append hl, RangeList.lines_append hl'] at hlines
  obtain ⟨rfl, -⟩ := List.cons.inj hlines
  exact ⟨rfl, List.tail_eq_of_cons_eq (List.append_cancel_left h)⟩

/-- A text has no other lines than its own. -/
theorem unique {text' : List Char} {ls' : List (List Char)} (h : HasLines text ls)
    (h' : HasLines text' ls') (heq : text = text') : ls = ls' := by
  have hmem : ∀ l rest : List Char, '\n' ∈ l ++ '\n' :: rest := fun l rest =>
    List.mem_append_right l List.mem_cons_self
  induction h generalizing text' ls' with
  | nil =>
      cases h' with
      | nil => rfl
      | last _ hne => exact absurd heq.symm hne
      | cons => exact absurd heq (by simp)
  | last hfeed hne =>
      cases h' with
      | nil => exact absurd heq hne
      | last => rw [heq]
      | cons => exact absurd (heq ▸ hmem _ _) hfeed
  | cons hfeed _ ih =>
      cases h' with
      | nil => exact absurd heq (by simp)
      | last hfeed' => exact absurd (heq ▸ hmem _ _) hfeed'
      | cons hfeed' hrest' =>
          obtain ⟨rfl, hrest⟩ := append_lineFeed_inj hfeed hfeed' heq
          rw [ih hrest' hrest]

/-- Behind a line feed, the lines of another text follow. -/
theorem append {b : List Char} {bs : List (List Char)} (h : HasLines text ls)
    (hend : ∀ c ∈ text.getLast?, c = '\n') (hb : HasLines b bs) :
    HasLines (text ++ b) (ls ++ bs) := by
  induction h with
  | nil => exact hb
  | last hfeed hne =>
      have hlast := hend _ (List.getLast?_eq_some_getLast hne)
      exact absurd (hlast ▸ List.getLast_mem hne) hfeed
  | @cons l rest ls hfeed _ ih =>
      rw [List.append_assoc, List.cons_append, List.cons_append]
      refine cons hfeed (ih fun c hc => hend c ?_)
      rw [Option.mem_def] at hc ⊢
      simp [List.getLast?_append, List.getLast?_cons, hc]

end HasLines

namespace RangeList

variable {n : Nat} {l : List Char} {ls as bs : List (List Char)} {err : ListError}
  {rs : List AddressRange}

/-! ## One line -/

/-- An error moves with its line, and nothing else about a line depends on where it stands. -/
theorem ofLine_add (line count : Nat) (l : List Char) :
    ofLine (line + count) l = (ofLine line l).mapError (ListError.later count) := by
  by_cases hnil : entryPart l = []
  · rw [ofLine_of_nil hnil, ofLine_of_nil hnil]
    rfl
  · rw [ofLine_of_ne_nil hnil, ofLine_of_ne_nil hnil]
    cases Entry.ofChars? (entryPart l) with
    | none => rfl
    | some e =>
        dsimp only
        cases e.range <;> rfl

/-- What a line holds in one place it holds everywhere. -/
theorem holds_of_ofLine {found : Option AddressRange} (h : ofLine n l = .ok found) :
    Holds l found := by
  have hzero : ofLine 0 l = .ok found := by
    rw [← Nat.zero_add n, ofLine_add] at h
    cases hl : ofLine 0 l with
    | error e => rw [hl] at h; cases h
    | ok x => rwa [hl] at h
  intro line
  rw [← Nat.zero_add line, ofLine_add, hzero]
  rfl

/-- An error of a line tells its number. -/
theorem line?_of_ofLine (h : ofLine n l = .error err) : err.line? = some n := by
  rcases eq_of_ofLine_eq_error h with rfl | ⟨cause, rfl⟩ <;> rfl

/-- A line holds nothing if there are only blanks on it, or only blanks in front of a comment. -/
theorem holds_none_iff : Holds l none ↔ IsEntryOf l [] := by
  rw [isEntryOf_iff, eq_comm]
  exact ⟨fun h => ofLine_eq_ok_none_iff.1 (h 0), fun h _ => ofLine_of_nil h⟩

/-! ## Many lines -/

theorem ofLines_cons (n : Nat) (l : List Char) (ls : List (List Char)) : ofLines n (l :: ls) = do
    let found ← ofLine n l
    let ranges ← ofLines (n + 1) ls
    return found.toList ++ ranges :=
  rfl

/-- A list of lines is read in two parts. -/
theorem ofLines_append (n : Nat) (as bs : List (List Char)) : ofLines n (as ++ bs) = do
    let xs ← ofLines n as
    let ys ← ofLines (n + as.length) bs
    return xs ++ ys := by
  induction as generalizing n with
  | nil => cases hbs : ofLines n bs <;> simp [ofLines, hbs] <;> rfl
  | cons l as ih =>
      rw [List.cons_append, ofLines_cons, ofLines_cons, ih, List.length_cons,
        show n + (as.length + 1) = n + 1 + as.length by omega]
      cases ofLine n l with
      | error e => rfl
      | ok found =>
          cases ofLines (n + 1) as with
          | error e => rfl
          | ok xs =>
              cases ofLines (n + 1 + as.length) bs with
              | error e => rfl
              | ok ys => exact congrArg Except.ok (List.append_assoc _ xs ys).symm

/-- The error of a list moves with its lines. -/
theorem ofLines_add (n count : Nat) (ls : List (List Char)) :
    ofLines (n + count) ls = (ofLines n ls).mapError (ListError.later count) := by
  induction ls generalizing n with
  | nil => rfl
  | cons l ls ih =>
      rw [ofLines_cons, ofLines_cons, ofLine_add, Nat.add_right_comm, ih]
      cases ofLine n l with
      | error e => rfl
      | ok found => cases ofLines (n + 1) ls <;> rfl

/-- **A list of lines is read if every line is**, and its ranges are those of the lines, in their
order. -/
theorem ofLines_eq_ok_iff : ofLines n ls = .ok rs ↔
    ∃ found, List.Forall₂ Holds ls found ∧ found.reduceOption = rs := by
  induction ls generalizing n rs with
  | nil => simp [ofLines]
  | cons l ls ih =>
      rw [ofLines_cons, bind_eq_ok_iff]
      constructor
      · rintro ⟨x, hx, h⟩
        obtain ⟨ranges, hranges, h⟩ := bind_eq_ok_iff.1 h
        obtain ⟨found, hfound, rfl⟩ := ih.1 hranges
        refine ⟨x :: found, .cons (holds_of_ofLine hx) hfound, ?_⟩
        cases x <;> exact Except.ok.inj h
      · rintro ⟨_, hfound, rfl⟩
        obtain ⟨x, found, hx, hrest, rfl⟩ := List.forall₂_cons_left_iff.1 hfound
        refine ⟨x, hx n, bind_eq_ok_iff.2 ⟨_, ih.2 ⟨found, hrest, rfl⟩, ?_⟩⟩
        cases x <;> rfl

/-- **A list of lines has the error of its first bad line.** -/
theorem ofLines_eq_error_iff : ofLines n ls = .error err ↔
    ∃ front bad rest, ls = front ++ bad :: rest ∧ (∀ l ∈ front, ∃ found, Holds l found) ∧
      ofLine (n + front.length) bad = .error err := by
  -- The error may be that of the first line; otherwise there is one line more in front of it.
  induction ls generalizing n with
  | nil => simp [ofLines]
  | cons l ls ih =>
      rw [ofLines_cons, bind_eq_error_iff]
      constructor
      · rintro (hbad | ⟨x, hx, h⟩)
        · exact ⟨[], l, ls, rfl, List.forall_mem_nil _, hbad⟩
        · rcases bind_eq_error_iff.1 h with h | ⟨_, -, h⟩
          · obtain ⟨front, bad, rest, rfl, hfront, hbad⟩ := ih.1 h
            have hall := List.forall_mem_cons.2 ⟨⟨x, holds_of_ofLine hx⟩, hfront⟩
            refine ⟨l :: front, bad, rest, rfl, hall, ?_⟩
            rwa [List.length_cons, Nat.add_comm front.length, ← Nat.add_assoc]
          · cases h
      · rintro ⟨front, bad, rest, hls, hfront, hbad⟩
        cases front with
        | nil =>
            obtain ⟨rfl, rfl⟩ := List.cons.inj hls
            exact .inl hbad
        | cons l' front =>
            obtain ⟨rfl, rfl⟩ := List.cons.inj hls
            rw [List.forall_mem_cons] at hfront
            obtain ⟨⟨x, hx⟩, hfront⟩ := hfront
            rw [List.length_cons, Nat.add_comm front.length, ← Nat.add_assoc] at hbad
            have hrest := ih.2 ⟨front, bad, rest, rfl, hfront, hbad⟩
            exact .inr ⟨x, hx n, bind_eq_error_iff.2 (.inl hrest)⟩

/-! ## Texts -/

/-- Lines are read alike whether or not they end with a carriage return. -/
theorem ofLines_congr {raws : List (List Char)}
    (h : List.Forall₂ (fun l raw => l = raw ∨ l = withoutReturn raw) ls raws) (n : Nat) :
    ofLines n ls = ofLines n raws := by
  induction h generalizing n with
  | nil => rfl
  | @cons l raw _ _ hraw _ ih =>
      have hentry : entryPart l = entryPart raw := by
        rcases hraw with rfl | rfl
        · rfl
        · exact entryPart_withoutReturn raw
      have hline : ofLine n l = ofLine n raw := by
        unfold ofLine
        rw [hentry]
      rw [ofLines_cons, ofLines_cons, hline, ih]

/-- **A text is read by its lines.** -/
theorem ofChars_eq_ofLines {text : List Char} (h : HasLines text ls) :
    ofChars text = ofLines 1 ls :=
  (ofLines_congr h.forall₂_lines 1).symm

/-- **Range lists are read line by line.** A text that is empty or ends with a line feed can be
continued by any other. An error in it stays. If there is none, the ranges of the continuation
follow its own, and an error in the continuation is found as many lines further down as it has.
Every text is read if each of its lines is: the ranges are those of the lines in their order, where
lines without an entry add nothing. Otherwise the error is the one of the first bad line, and tells
the number of that line. -/
theorem ofChars_append_exact (a b : List Char) (hend : ∀ c ∈ a.getLast?, c = '\n') :
    ∃ as bs, (∀ ls, HasLines a ls ↔ ls = as) ∧ (∀ ls, HasLines b ls ↔ ls = bs) ∧
      (∀ err, ofChars a = .error err → ofChars (a ++ b) = .error err) ∧
      (∀ xs ys, ofChars a = .ok xs → ofChars b = .ok ys → ofChars (a ++ b) = .ok (xs ++ ys)) ∧
      (∀ xs err, ofChars a = .ok xs → ofChars b = .error err →
        ofChars (a ++ b) = .error (err.later as.length)) ∧
      (∀ ys, ofChars b = .ok ys ↔
        ∃ found, List.Forall₂ Holds bs found ∧ found.reduceOption = ys) ∧
      (∀ l, Holds l none ↔ IsEntryOf l []) ∧
      ∀ err, ofChars b = .error err ↔
        ∃ front bad rest, bs = front ++ bad :: rest ∧ (∀ l ∈ front, ∃ found, Holds l found) ∧
          ofLine (front.length + 1) bad = .error err ∧ err.line? = some (front.length + 1) := by
  obtain ⟨as, ha⟩ := HasLines.exists_lines a
  obtain ⟨bs, hb⟩ := HasLines.exists_lines b
  -- As the first part ends with a line break, no line goes across the cut.
  have hwhole : ofChars (a ++ b) = do
      let xs ← ofChars a
      let ys ← (ofChars b).mapError (ListError.later as.length)
      return xs ++ ys := by
    rw [ofChars_eq_ofLines (ha.append hend hb), ofLines_append, ofLines_add, ofChars_eq_ofLines ha,
      ofChars_eq_ofLines hb]
  refine ⟨as, bs, fun ls => ⟨fun h => h.unique ha rfl, fun h => h ▸ ha⟩,
    fun ls => ⟨fun h => h.unique hb rfl, fun h => h ▸ hb⟩, ?_, ?_, ?_, ?_,
    fun l => holds_none_iff, ?_⟩
  · intro err herr
    rw [hwhole, herr]
    rfl
  · intro xs ys hxs hys
    rw [hwhole, hxs, hys]
    rfl
  · intro xs err hxs herr
    rw [hwhole, hxs, herr]
    rfl
  · intro ys
    rw [ofChars_eq_ofLines hb, ofLines_eq_ok_iff]
  · intro err
    rw [ofChars_eq_ofLines hb, ofLines_eq_error_iff]
    constructor
    · rintro ⟨front, bad, rest, hls, hfront, hbad⟩
      rw [Nat.add_comm] at hbad
      exact ⟨front, bad, rest, hls, hfront, hbad, line?_of_ofLine hbad⟩
    · rintro ⟨front, bad, rest, hls, hfront, hbad, -⟩
      rw [Nat.add_comm] at hbad
      exact ⟨front, bad, rest, hls, hfront, hbad⟩

/-- A list of three lines, the first a comment and the last blank but for its carriage return, is
continued by one whose second and last line is wrong. -/
theorem ofChars_append_exact_returns :
    let a := "# used\r\n10.0.1.0/31\n \r\n".toList
    let b := "10.0.0.9-10.0.0.5 # reversed\n10.0.0.300".toList
    (∀ c ∈ a.getLast?, c = '\n') ∧
      ofChars (a ++ a) = .ok [⟨.v4, 0xa000100, 0xa000101⟩, ⟨.v4, 0xa000100, 0xa000101⟩] ∧
      ofChars (a ++ b) = .error (.malformed 5 "10.0.0.300".toList) ∧
      ofChars (b ++ ['\n'] ++ a) = .error (.malformed 2 "10.0.0.300".toList) := by
  intro a b
  have hend : ∀ c ∈ a.getLast?, c = '\n' := by simp [a]
  have hread : ofChars a = .ok [⟨.v4, 0xa000100, 0xa000101⟩] := by decide
  have hbad : ofChars b = .error (.malformed 2 "10.0.0.300".toList) := by decide
  obtain ⟨as, -, has, -, -, htwice, -⟩ := ofChars_append_exact a a hend
  obtain ⟨as', -, has', -, -, -, hlater, -⟩ := ofChars_append_exact a b hend
  obtain ⟨-, -, -, -, hstays, -⟩ := ofChars_append_exact (b ++ ['\n']) a (by simp)
  have hlines : as' = [_, _, _] :=
    ((has' _).1 (.cons (l := "# used\r".toList) (by decide)
      (.cons (l := "10.0.1.0/31".toList) (by decide)
        (.cons (l := " \r".toList) (by decide) .nil)))).symm
  refine ⟨hend, htwice _ _ hread hread, ?_, hstays _ (by decide)⟩
  rw [hlater _ _ hread hbad, hlines]
  rfl

end RangeList

end IpSpace
