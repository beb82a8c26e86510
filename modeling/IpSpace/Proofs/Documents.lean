import IpSpace.Proofs.KeyOrder
import IpSpace.Proofs.Layouts
import IpSpace.Report.Record

/-!
# Documents lose nothing

Documents of ranges and of blocks are known from their texts (`document_injective_exact`). Each
record carries the key of its range or block, and the texts of two keys are the same only if their
numbers are (`tells_rangeKey`, `tells_addressKey`), so that what the record is about is read back
from its key. The readable text of a block would not do: a block and its first address, with the
same prefix length, are written in the same way. The key in turn says nothing of the zone, and for
it the readable text is needed (`tells_blockRecord`).
-/

namespace IpSpace

/-! ## Readable texts -/

/-- The zone of an address is known from its text and its section. -/
theorem Address.eq_of_chars_eq {a b : Address} (hbody : a.body = b.body) (h : a.chars = b.chars) :
    a = b := by
  obtain ⟨s, zone⟩ := a
  obtain ⟨t, zone'⟩ := b
  obtain rfl : s = t := hbody
  have hlonger : ∀ z : String, chars ⟨s, some z⟩ ≠ chars ⟨s, none⟩ := by
    intro z heq
    have hlen := congrArg List.length heq
    simp [chars, Section.chars] at hlen
    omega
  rcases zone with - | z <;> rcases zone' with - | z'
  · rfl
  · exact absurd h.symm (hlonger z')
  · exact absurd h (hlonger z)
  · have hzone : z.toList = z'.toList := by simpa [chars] using h
    rw [String.toList_inj.1 hzone]

namespace Section

variable {s : Section}

/-- The lowest address of a section is that of its own lowest address. -/
theorem lowerAddress_lower (s : Section) : s.lower.lowerAddress = s.lowerAddress := by
  simp [lowerAddress, lowerValue, lower, ofDigits, Function.comp_def, Bounds.single]

/-- **A block is written like its first address** with the same prefix length. -/
theorem chars_lower_of_isSingleBlock (h : s.isSingleBlock = true) : s.lower.chars = s.chars := by
  have hsingle : s.lower.isMultiple = false := by
    simp [isMultiple, lower, ofDigits, Bounds.isMultiple, Bounds.single]
  rw [chars, chars, baseChars, baseChars, h, hsingle, lowerAddress_lower, Bool.or_true]
  rfl

end Section

namespace Report

/-! ## Keys -/

/-- The two versions have different tags. -/
theorem tag_injective : Function.Injective fun version : Version => version.tag.toList := by
  rintro (_ | _) (_ | _) h
  · rfl
  · cases h
  · cases h
  · rfl

/-- Tags tell versions apart. -/
theorem tells_tag (a b : Version) :
    (Layout.string a.tag.toList).Tells (.string b.tag.toList) (a = b) :=
  (Layout.tells_string _ _).imp fun h => tag_injective h

theorem tells_numbers (ms ns : List Nat) : (numbers ms).Tells (numbers ns) (ms = ns) :=
  Layout.tells_array fun m _ n _ => Layout.tells_number m n

/-- The two ends of a segment. -/
theorem tells_pair (a b : Nat × Nat) :
    (numbers [a.1, a.2]).Tells (numbers [b.1, b.2]) (a = b) :=
  (tells_numbers _ _).imp fun h => by simpa [Prod.ext_iff] using h

/-- **The record of a flat form tells it from all others.** -/
theorem tells_addressKey (a b : AddressKey) : (addressKey a).Tells (addressKey b) (a = b) := by
  refine Layout.Tells.imp (Layout.tells_object (.cons (tells_tag a.version b.version)
    (.cons (Layout.tells_array fun c _ d _ => tells_pair c d)
      (.cons (Layout.tells_optional a.prefixLen b.prefixLen) .nil)))) ?_
  rintro ⟨hversion, hsegments, hlen, -⟩
  cases a
  cases b
  simp_all

/-- The record of the flat form of a range tells it from all others. -/
theorem tells_rangeKey (a b : RangeKey) : (rangeKey a).Tells (rangeKey b) (a = b) := by
  refine Layout.Tells.imp (Layout.tells_object (.cons (tells_tag a.version b.version)
    (.cons (tells_numbers a.lower b.lower) (.cons (tells_numbers a.upper b.upper) .nil)))) ?_
  rintro ⟨hversion, hlower, hupper, -⟩
  cases a
  cases b
  simp_all

/-! ## Records -/

/-- **The record of a range tells it from all others**, by its flat form alone. -/
theorem tells_rangeRecord {r s : AddressRange} (hr : r.WellFormed) (hs : s.WellFormed) :
    (rangeRecord r).Tells (rangeRecord s) (r = s) := by
  refine Layout.Tells.imp (Layout.tells_object (.cons (Layout.tells_string _ _)
    (.cons (Layout.tells_string _ _) (.cons (tells_rangeKey r.toKey s.toKey) .nil)))) ?_
  rintro ⟨-, -, hkey, -⟩
  exact (AddressRange.toKey_inj hr hs).1 hkey

/-- **The record of a block tells it from all others**, by its flat form and its text,
which has the zone. -/
theorem tells_blockRecord {a b : Address} (ha : a.body.WellFormed) (hb : b.body.WellFormed) :
    (blockRecord a).Tells (blockRecord b) (a = b) := by
  refine Layout.Tells.imp (Layout.tells_object (.cons (Layout.tells_string a.chars b.chars)
    (.cons (Layout.tells_string _ _) (.cons (tells_addressKey a.body.toKey b.body.toKey) .nil)))) ?_
  rintro ⟨htext, -, hkey, -⟩
  exact Address.eq_of_chars_eq ((Section.toKey_inj ha hb).1 hkey) htext

/-! ## Documents -/

/-- **Documents lose nothing.** Two lists of ranges have the same document only if they are equal,
and so do two lists of blocks, whatever their prefix lengths and zones; yet there are different
blocks with the same readable text. -/
theorem document_injective_exact (ranges ranges' : List AddressRange)
    (blocks blocks' : List Address) (hranges : ∀ r ∈ ranges ++ ranges', r.WellFormed)
    (hblocks : ∀ b ∈ blocks ++ blocks', b.body.WellFormed) :
    (rangeDocument ranges = rangeDocument ranges' ↔ ranges = ranges') ∧
      (blockDocument blocks = blockDocument blocks' ↔ blocks = blocks') ∧
      ∃ s t : Section, s.WellFormed ∧ t.WellFormed ∧ s ≠ t ∧
        (Address.ofSection s).text = (Address.ofSection t).text := by
  rw [List.forall_mem_append] at hranges hblocks
  refine ⟨⟨fun h => ?_, congrArg rangeDocument⟩, ⟨fun h => ?_, congrArg blockDocument⟩, ?_⟩
  · exact (Layout.tells_array fun r hr s hs =>
      tells_rangeRecord (hranges.1 r hr) (hranges.2 s hs)).of_chars_eq h
  · exact (Layout.tells_array fun a ha b hb =>
      tells_blockRecord (hblocks.1 a ha) (hblocks.2 b hb)).of_chars_eq h
  · let block : Section := ⟨.v4, [⟨10, 10⟩, ⟨0, 255⟩, ⟨0, 255⟩, ⟨0, 255⟩], some 8⟩
    have hblock : block.WellFormed := ⟨rfl, by decide, by decide, by decide⟩
    have htext : block.lower.chars = block.chars := Section.chars_lower_of_isSingleBlock (by decide)
    exact ⟨block.lower, block, Section.wellFormed_lower hblock, hblock, by decide,
      congrArg String.ofList htext⟩

/-- The block 10.0.0.0/8 and its first address, both written so, are told apart by their records. So
are the ranges 1.2.3.4 and 1.2.3.4-1.2.3.5, and one range from two of it. -/
theorem document_injective_exact_blocks :
    let block : Section := ⟨.v4, [⟨10, 10⟩, ⟨0, 255⟩, ⟨0, 255⟩, ⟨0, 255⟩], some 8⟩
    let one : AddressRange := ⟨.v4, 0x01020304, 0x01020304⟩
    let two : AddressRange := ⟨.v4, 0x01020304, 0x01020305⟩
    (one.WellFormed ∧ two.WellFormed ∧ block.WellFormed ∧ block.lower.WellFormed) ∧
      block.text = "10.0.0.0/8" ∧ block.lower.text = "10.0.0.0/8" ∧
      blockDocument [.ofSection block] ≠ blockDocument [.ofSection block.lower] ∧
      rangeDocument [one] ≠ rangeDocument [two] ∧
        rangeDocument [one] ≠ rangeDocument [one, one] := by
  intro block one two
  have hone : one.WellFormed := by decide
  have htwo : two.WellFormed := by decide
  have hblock : block.WellFormed := ⟨rfl, by decide, by decide, by decide⟩
  have hlower := Section.wellFormed_lower hblock
  have hranges : ∀ r ∈ [one] ++ [two], r.WellFormed := by decide
  have htwice : ∀ r ∈ [one] ++ [one, one], r.WellFormed := by decide
  have hblocks : ∀ b ∈ [Address.ofSection block] ++ [.ofSection block.lower],
      b.body.WellFormed := by
    simpa [Address.ofSection] using ⟨hblock, hlower⟩
  obtain ⟨hfirst, hboth, -⟩ := document_injective_exact _ _ _ _ hranges hblocks
  obtain ⟨hsecond, -⟩ := document_injective_exact _ _ _ _ htwice hblocks
  refine ⟨⟨hone, htwo, hblock, hlower⟩, by decide, by decide, ?_, ?_, ?_⟩
  · exact mt hboth.1 (by decide)
  · exact mt hfirst.1 (by decide)
  · exact mt hsecond.1 (by decide)

end Report

end IpSpace
