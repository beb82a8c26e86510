import IpSpace.Proofs.KeyOrder
import IpSpace.Proofs.MaskedBytes
import Mathlib.Data.Set.Function

/-!
# Addresses as numbers, segments and bytes

An address is written as a number, as the list of its segments or as the list of its bytes, and each
of the three says the same. Numbers up to the largest address and lists of as many segments as an
address has are in one-to-one correspondence by splitting and joining (`Version.invOn_join_split`),
which carries the order of numbers over to the lexicographic order of lists
(`Version.lt_iff_lex_split`). So it does not matter from which of the three a section of one address
is built: the checks that come first have nothing to refuse but a prefix length past the width of
the address, and they refuse it in all of them (`Section.ofValues_split`, `Section.ofBytes_bytes`).
-/

namespace IpSpace

open Digits (Fit)

/-! ## Specification -/

namespace Version

/-- The lists that are the segments of some address: of the right length, and with no value past the
largest one of a segment. -/
def segmentLists (version : Version) : Set (List Nat) :=
  {digits | digits.length = version.segmentCount ∧ ∀ d ∈ digits, d ≤ version.segmentMax}

/-- The bytes of an address, most significant first. -/
def bytes (version : Version) (x : Nat) : List Nat :=
  Digits.split 8 version.byteCount x

end Version

/-! ## Numbers and segments -/

/-- Lists are compared by the first place where they differ. -/
theorem compare_eq_lt_iff_lex {ds es : List Nat} :
    compare ds es = .lt ↔ List.Lex (· < ·) ds es := by
  induction ds generalizing es with
  | nil =>
      cases es with
      | nil => decide
      | cons e es => exact iff_of_true rfl .nil
  | cons d ds ih =>
      cases es with
      | nil => exact iff_of_false (by simp) (by simp)
      | cons e es =>
          rw [List.compare_cons_cons, Ordering.then_eq_lt, Nat.compare_eq_lt, Nat.compare_eq_eq, ih,
            List.cons_lex_cons_iff]

namespace Version

variable {version : Version} {x y : Nat} {digits : List Nat}

theorem fit_of_mem_segmentLists (h : digits ∈ version.segmentLists) :
    Fit version.segmentBits digits :=
  fun d hd => le_segmentMax_iff.1 (h.2 d hd)

theorem split_mem_segmentLists (version : Version) (x : Nat) :
    version.split x ∈ version.segmentLists :=
  ⟨version.length_split x, fun d hd => le_segmentMax_iff.2 (version.fit_split x d hd)⟩

theorem join_le_of_mem_segmentLists (h : digits ∈ version.segmentLists) :
    version.join digits ≤ version.maxValue :=
  join_le_maxValue h.1 (fit_of_mem_segmentLists h)

/-- **Splitting and joining are inverse to each other.** -/
theorem invOn_join_split (version : Version) :
    Set.InvOn version.join version.split (Set.Iic version.maxValue) version.segmentLists :=
  ⟨fun _ hx => join_split hx, fun _ h => split_join h.1 (fit_of_mem_segmentLists h)⟩

/-- **Addresses are ordered like their lists of segments.** -/
theorem lt_iff_lex_split (hx : x ≤ version.maxValue) (hy : y ≤ version.maxValue) :
    x < y ↔ List.Lex (· < ·) (version.split x) (version.split y) := by
  rw [← compare_eq_lt_iff_lex, compare_split hx hy, Nat.compare_eq_lt]

/-! ## Bytes -/

theorem length_bytes (version : Version) (x : Nat) : (version.bytes x).length = version.byteCount :=
  Digits.length_split _ _ _

theorem fit_bytes (version : Version) (x : Nat) : Fit 8 (version.bytes x) :=
  Digits.fit_split _ _ _

/-- The bytes of an address write it. -/
theorem value_bytes (hx : x ≤ version.maxValue) : Digits.value 8 (version.bytes x) = x := by
  apply Digits.value_split
  rwa [mul_byteCount, bitCount_eq, ← le_maxValue_iff]

end Version

/-! ## Building a section of one address -/

namespace Section

variable {version : Version} {x p : Nat} {prefixLen : Option Nat}

/-- Of an address, only the prefix length can be refused. -/
theorem ofValue_of_lt (hx : x ≤ version.maxValue) (hp : version.bitCount < p) :
    ofValue version x (some p) = .error (.prefixTooLong version p) := by
  rw [ofValue, if_neg (Nat.not_lt.2 hx)]
  exact bind_eq_error_iff.2 (.inl (checkPrefixLen_eq_error_iff.2 ⟨hp, rfl⟩))

/-- **An address is built from its segments as from its number.** -/
theorem ofValues_split (hx : x ≤ version.maxValue) :
    ofValues version (version.split x) prefixLen = ofValue version x prefixLen := by
  by_cases hp : ∀ p ∈ prefixLen, p ≤ version.bitCount
  · rw [ofValue_of_le hx hp]
    exact ofBounds_eq_ok_iff.2
      ⟨wellFormed_ofDigits (version.length_split x) (version.fit_split x) hp, rfl⟩
  · simp only [not_forall, Nat.not_le] at hp
    obtain ⟨p, rfl, hlt⟩ := hp
    rw [ofValue_of_lt hx hlt]
    exact ofBounds_of_lt (wellFormed_ofDigits_split version x) hlt

/-- **An address is built from its bytes as from its number.** -/
theorem ofBytes_bytes (hx : x ≤ version.maxValue) :
    ofBytes (version.bytes x) prefixLen = ofValue version x prefixLen := by
  rw [ofBytes_eq_ofValue (version.fit_bytes x) (version.length_bytes x), Version.value_bytes hx]

end Section

/-- **Numbers, segments and bytes of addresses say the same.** Splitting takes the numbers up to the
largest address to lists of as many segments as an address has, joining takes these back, and each
undoes the other. The order of the numbers is the lexicographic order of the lists. A section of one
address is built from its number, its segments or its bytes with the same outcome, whatever the
prefix length: the section of this address alone with this prefix length, or, exactly if the prefix
length is past the width of the address, an error. -/
theorem Version.split_join_exact (version : Version) :
    (Set.MapsTo version.split (Set.Iic version.maxValue) version.segmentLists ∧
      Set.MapsTo version.join version.segmentLists (Set.Iic version.maxValue) ∧
      Set.InvOn version.join version.split (Set.Iic version.maxValue) version.segmentLists) ∧
    (∀ x ≤ version.maxValue, ∀ y ≤ version.maxValue,
      x < y ↔ List.Lex (· < ·) (version.split x) (version.split y)) ∧
    ∀ x ≤ version.maxValue, ∀ prefixLen : Option Nat,
      (Section.ofValues version (version.split x) prefixLen = Section.ofValue version x prefixLen ∧
        Section.ofBytes (version.bytes x) prefixLen = Section.ofValue version x prefixLen) ∧
      ((∀ p ∈ prefixLen, p ≤ version.bitCount) → ∃ s, Section.ofValue version x prefixLen = .ok s ∧
        s.WellFormed ∧ s.version = version ∧ s.values = {x} ∧ s.prefixLen = prefixLen) ∧
      ∀ p ∈ prefixLen, version.bitCount < p →
        Section.ofValue version x prefixLen = .error (.prefixTooLong version p) := by
  refine ⟨⟨?_, ?_, version.invOn_join_split⟩, fun x hx y hy => lt_iff_lex_split hx hy,
    fun x hx prefixLen => ⟨⟨Section.ofValues_split hx, Section.ofBytes_bytes hx⟩, ?_, ?_⟩⟩
  · exact fun x _ => version.split_mem_segmentLists x
  · exact fun digits h => join_le_of_mem_segmentLists h
  · intro hp
    refine ⟨_, Section.ofValue_of_le hx hp, ?_, rfl, ?_, rfl⟩
    · exact Section.wellFormed_ofDigits (version.length_split x) (version.fit_split x) hp
    · exact Section.values_ofDigits_split hx prefixLen
  · rintro p rfl hlt
    exact Section.ofValue_of_lt hx hlt

/-- The largest IPv6 address is `ffff` in all segments and 255 in all bytes, and is refused with the
prefix length 129 however it is written. The address 0.1.0.0 comes before 0.1.0.1 and behind
0.0.255.255. -/
theorem Version.split_join_exact_edges :
    (List.Lex (· < ·) (v4.split 0xffff) (v4.split 0x10000) ∧
      List.Lex (· < ·) (v4.split 0x10000) (v4.split 0x10001)) ∧
    v6.join (List.replicate 8 0xffff) = 2 ^ 128 - 1 ∧
    Section.ofValues .v6 (List.replicate 8 0xffff) (some 64)
      = Section.ofBytes (List.replicate 16 255) (some 64) ∧
    Section.ofValues .v6 (List.replicate 8 0xffff) (some 129) = .error (.prefixTooLong .v6 129) ∧
    Section.ofBytes (List.replicate 16 255) (some 129) = .error (.prefixTooLong .v6 129) := by
  have hmax : 2 ^ 128 - 1 ≤ v6.maxValue := Nat.le_refl _
  have hsplit : v6.split (2 ^ 128 - 1) = List.replicate 8 0xffff := by decide
  have hbytes : v6.bytes (2 ^ 128 - 1) = List.replicate 16 255 := by decide
  obtain ⟨-, horder, -⟩ := split_join_exact .v4
  obtain ⟨⟨-, -, hinv⟩, -, hbuild⟩ := split_join_exact .v6
  obtain ⟨⟨hvalues, hread⟩, -, -⟩ := hbuild _ hmax (some 64)
  obtain ⟨⟨hvalues', hread'⟩, -, hrefused⟩ := hbuild _ hmax (some 129)
  have herror := hrefused 129 rfl (by decide)
  rw [hsplit] at hvalues hvalues'
  rw [hbytes] at hread hread'
  refine ⟨⟨?_, ?_⟩, ?_, hvalues.trans hread.symm, hvalues'.trans herror, hread'.trans herror⟩
  · exact (horder _ (by decide) _ (by decide)).1 (by decide)
  · exact (horder _ (by decide) _ (by decide)).1 (by decide)
  · rw [← hsplit]
    exact hinv.1 hmax

end IpSpace
