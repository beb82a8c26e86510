import IpSpace.Proofs.MaskedSections
import IpSpace.Proofs.MaskLengths

/-!
# Addresses from bytes with a mask

Bytes are read in one step: there are four or sixteen of them, and the address is the number they
write (`Section.ofBytes_of_length`). Bytes with a mask are read twice, and what becomes of the mask
depends on its bits alone. A network mask gives way to its prefix length and leaves the address as
it is (`Address.ofBytesMasked_of_begins`). Any other mask is applied, which cannot fail: the address
under the mask is a single one, and so the address of a section
(`Address.ofBytesMasked_of_not_begins`).
-/

namespace IpSpace

open Digits (Fit)

variable {version : Version} {bytes mask : List Nat} {prefixLen : Option Nat} {p : Nat}

/-! ## Numbers of bytes -/

namespace Version

/-- An address has eight bits in each byte. -/
theorem mul_byteCount (version : Version) : 8 * version.byteCount = version.bitCount := by
  cases version <;> rfl

theorem ofByteCount?_byteCount (version : Version) :
    ofByteCount? version.byteCount = some version := by
  cases version <;> rfl

theorem ofByteCount?_eq_none_iff {count : Nat} :
    ofByteCount? count = none ↔ count ≠ 4 ∧ count ≠ 16 := by
  have hv4 : v4.byteCount = 4 := rfl
  have hv6 : v6.byteCount = 16 := rfl
  rw [ofByteCount?, hv4, hv6]
  by_cases h4 : count = 4
  · simp [h4]
  · by_cases h16 : count = 16
    · simp [h16]
    · simp [h4, h16]

theorem eq_byteCount_of_ofByteCount? {count : Nat} (h : ofByteCount? count = some version) :
    count = version.byteCount := by
  unfold ofByteCount? at h
  split at h
  · cases h
    assumption
  · split at h
    · cases h
      assumption
    · cases h

/-- The number that the bytes of an address write is the address. -/
theorem value_le_maxValue (hbytes : Fit 8 bytes) (hlen : bytes.length = version.byteCount) :
    Digits.value 8 bytes ≤ version.maxValue := by
  have hlt := Digits.value_lt hbytes
  rw [hlen, mul_byteCount] at hlt
  exact Nat.le_sub_one_of_lt hlt

end Version

namespace Section

/-- A section of one address is built from every address and every prefix length of a version. -/
theorem ofValue_of_le {x : Nat} (hx : x ≤ version.maxValue)
    (hp : ∀ p ∈ prefixLen, p ≤ version.bitCount) :
    ofValue version x prefixLen = .ok (ofDigits version (version.split x) prefixLen) := by
  rw [ofValue, check_eq_ok_iff]
  refine ⟨Nat.not_lt.2 hx, ?_⟩
  rcases prefixLen with - | p
  · rfl
  · exact bind_eq_ok_iff.2 ⟨(), checkPrefixLen_eq_ok_iff.2 (hp p rfl), rfl⟩

/-- **Bytes of the right number are read as the number they write.** -/
theorem ofBytes_eq_ofValue (hbytes : Fit 8 bytes) (hlen : bytes.length = version.byteCount) :
    ofBytes bytes prefixLen = ofValue version (Digits.value 8 bytes) prefixLen := by
  have hwidth : 8 * bytes.length ≤ 128 := by
    rw [hlen, version.mul_byteCount, version.bitCount_eq]
    exact version.segmentBits_mul_segmentCount_le
  rw [ofBytes, hlen, version.ofByteCount?_byteCount]
  show ofValue version (Digits.join 8 bytes) prefixLen = _
  rw [Digits.join_eq_value hbytes hwidth]

/-- What bytes are read to, if the prefix length is within the address. -/
theorem ofBytes_of_length (hbytes : Fit 8 bytes) (hlen : bytes.length = version.byteCount)
    (hp : ∀ p ∈ prefixLen, p ≤ version.bitCount) : ofBytes bytes prefixLen
      = .ok (ofDigits version (version.split (Digits.value 8 bytes)) prefixLen) := by
  rw [ofBytes_eq_ofValue hbytes hlen, ofValue_of_le (version.value_le_maxValue hbytes hlen) hp]

theorem ofBytes_of_ofByteCount?_eq_none (h : Version.ofByteCount? bytes.length = none) :
    ofBytes bytes prefixLen = .error (.byteCount bytes.length) := by
  rw [ofBytes, h]

/-- A single address stays one under any mask. -/
theorem applyMask_singleton {s m : Section} {x : Nat} (hs : s.WellFormed) (hm : m.WellFormed)
    (hversion : s.version = m.version) (hx : s.values = {x}) : ∃ r, s.applyMask .and m = .ok r ∧
      r.WellFormed ∧ r.version = s.version ∧ r.prefixLen = s.prefixLen ∧
      r.values = {x &&& m.lowerValue} := by
  have hmasked : (BitOp.and.eval · m.lowerValue) '' s.values = {x &&& m.lowerValue} := by
    rw [hx, Set.image_singleton]
    rfl
  have hmax : x ≤ s.version.maxValue := le_maxValue_of_mem_values (hx.symm ▸ Set.mem_singleton x)
  have happly := appliesMask hs hm hversion .and
  rw [hmasked] at happly
  exact happly.succeeds ⟨_, wellFormed_ofDigits_split s.version _, rfl,
    values_ofDigits_split (Nat.le_trans Nat.and_le_left hmax) none⟩

end Section

/-! ## Addresses -/

namespace Address

/-- The address `x` alone, with the given prefix length and without a zone. -/
structure Single (version : Version) (x : Nat) (prefixLen : Option Nat) (a : Address) : Prop where
  zone_eq : a.zone = none
  wellFormed : a.body.WellFormed
  version_eq : a.version = version
  values_eq : a.body.values = {x}
  prefixLen_eq : a.body.prefixLen = prefixLen

/-- **Bytes are read as a single address.** -/
theorem ofBytes_single (hbytes : Fit 8 bytes) (hlen : bytes.length = version.byteCount)
    (hp : ∀ p ∈ prefixLen, p ≤ version.bitCount) :
    ∃ a, ofBytes bytes prefixLen = .ok a ∧ a.Single version (Digits.value 8 bytes) prefixLen := by
  rw [ofBytes, Section.ofBytes_of_length hbytes hlen hp]
  refine ⟨_, rfl, rfl, ?_, rfl, ?_, rfl⟩
  · exact Section.wellFormed_ofDigits (version.length_split _) (version.fit_split _) hp
  · exact Section.values_ofDigits_split (version.value_le_maxValue hbytes hlen) prefixLen

theorem ofBytesMasked_of_length_ne (h : bytes.length ≠ mask.length) :
    ofBytesMasked bytes mask = .error (.sizeMismatch bytes.length mask.length) := by
  unfold ofBytesMasked
  exact if_pos h

/-- Where the numbers agree, the mask is read first. -/
theorem ofBytesMasked_of_length_eq (h : bytes.length = mask.length) :
    ofBytesMasked bytes mask = Section.ofBytes mask none >>= fun m =>
      match m.maskPrefixLen? .network with
      | some p => ofBytes bytes (some p)
      | none => Section.ofBytes bytes none >>= fun s => (s.applyMask .and m).map ofSection := by
  unfold ofBytesMasked
  exact if_neg (not_not_intro h)

theorem ofBytesMasked_of_ofByteCount?_eq_none (h : bytes.length = mask.length)
    (hcount : Version.ofByteCount? bytes.length = none) :
    ofBytesMasked bytes mask = .error (.byteCount bytes.length) := by
  rw [ofBytesMasked_of_length_eq h, Section.ofBytes_of_ofByteCount?_eq_none (h ▸ hcount), h]
  rfl

section Masks

variable (hbytes : Fit 8 bytes) (hmask : Fit 8 mask) (hlen : bytes.length = version.byteCount)
  (hmaskLen : mask.length = version.byteCount)

include hmask hmaskLen

/-- The bytes of a mask are a section of their own, and its scan reads the bits of their number. -/
theorem exists_ofBytes_mask : ∃ m, Section.ofBytes mask none = .ok m ∧ m.WellFormed ∧
    m.version = version ∧ m.lowerValue = Digits.value 8 mask ∧
    ∀ p, m.maskPrefixLen? .network = some p ↔
      p ≤ version.bitCount ∧ Section.Mask.Begins version.bitCount p true (Digits.value 8 mask) := by
  have hmax := version.value_le_maxValue hmask hmaskLen
  have hwf := Section.wellFormed_ofDigits_split version (Digits.value 8 mask)
  have hvalues := Section.values_ofDigits_split hmax none
  refine ⟨_, Section.ofBytes_of_length hmask hmaskLen (by simp), hwf, rfl, ?_, fun p => ?_⟩
  · exact (Section.ends_of_values_eq_Icc hwf (Nat.le_refl _) (by rw [hvalues, Set.Icc_self])).1
  · rw [Section.maskPrefixLen?_eq_some_iff hwf, hvalues, Set.singleton_eq_singleton_iff]
    exact and_congr_right fun _ => Section.Mask.eq_word_iff hmax

include hbytes hlen

/-- **A network mask becomes the prefix length.** -/
theorem ofBytesMasked_of_begins (hp : p ≤ version.bitCount)
    (hbegins : Section.Mask.Begins version.bitCount p true (Digits.value 8 mask)) :
    ∃ a, ofBytesMasked bytes mask = .ok a ∧ a.Single version (Digits.value 8 bytes) (some p) := by
  obtain ⟨m, hm, -, -, -, hscan⟩ := exists_ofBytes_mask hmask hmaskLen
  have hprefix : ∀ q ∈ some p, q ≤ version.bitCount := by
    intro q hq
    rwa [← Option.some.inj hq]
  obtain ⟨a, ha, hsingle⟩ := ofBytes_single hbytes hlen hprefix
  refine ⟨a, ?_, hsingle⟩
  rw [ofBytesMasked_of_length_eq (hlen.trans hmaskLen.symm)]
  refine bind_eq_ok_iff.2 ⟨m, hm, ?_⟩
  rw [(hscan p).2 ⟨hp, hbegins⟩]
  exact ha

/-- **Any other mask is applied.** -/
theorem ofBytesMasked_of_not_begins
    (hnot : ∀ p ≤ version.bitCount, ¬ Section.Mask.Begins version.bitCount p true
      (Digits.value 8 mask)) :
    ∃ a, ofBytesMasked bytes mask = .ok a ∧
      a.Single version (Digits.value 8 bytes &&& Digits.value 8 mask) none := by
  obtain ⟨m, hm, hmwf, hmversion, hmvalue, hscan⟩ := exists_ofBytes_mask hmask hmaskLen
  have hnone : m.maskPrefixLen? .network = none := by
    rw [Option.eq_none_iff_forall_ne_some]
    intro p hp
    obtain ⟨hle, hbegins⟩ := (hscan p).1 hp
    exact hnot p hle hbegins
  obtain ⟨r, hr, hrwf, hrversion, hrlen, hrvalues⟩ := Section.applyMask_singleton
    (Section.wellFormed_ofDigits_split version (Digits.value 8 bytes)) hmwf hmversion.symm
    (Section.values_ofDigits_split (version.value_le_maxValue hbytes hlen) none)
  refine ⟨ofSection r, ?_, rfl, hrwf, hrversion, hmvalue ▸ hrvalues, hrlen⟩
  rw [ofBytesMasked_of_length_eq (hlen.trans hmaskLen.symm)]
  refine bind_eq_ok_iff.2 ⟨m, hm, ?_⟩
  rw [hnone]
  refine bind_eq_ok_iff.2 ⟨_, Section.ofBytes_of_length hbytes hlen (by simp), ?_⟩
  exact map_eq_ok_iff.2 ⟨r, hr, rfl⟩

end Masks

/-- **What goes wrong is the numbers of bytes.** -/
theorem ofBytesMasked_eq_error_iff (hbytes : Fit 8 bytes) (hmask : Fit 8 mask)
    {cause : AddressError} :
    ofBytesMasked bytes mask = .error cause ↔
      bytes.length ≠ mask.length ∧ cause = .sizeMismatch bytes.length mask.length ∨
      (bytes.length = mask.length ∧ bytes.length ≠ 4 ∧ bytes.length ≠ 16) ∧
        cause = .byteCount bytes.length := by
  by_cases hsame : bytes.length = mask.length
  · rw [← Version.ofByteCount?_eq_none_iff]
    rcases hversion : Version.ofByteCount? bytes.length with - | version
    · rw [ofBytesMasked_of_ofByteCount?_eq_none hsame hversion]
      simp [hsame, eq_comm]
    · have hlen := Version.eq_byteCount_of_ofByteCount? hversion
      have hok : ∃ a, ofBytesMasked bytes mask = .ok a := by
        by_cases hbegins : ∃ p ≤ version.bitCount,
            Section.Mask.Begins version.bitCount p true (Digits.value 8 mask)
        · obtain ⟨p, hp, hbegins⟩ := hbegins
          have h := ofBytesMasked_of_begins hbytes hmask hlen (hsame ▸ hlen) hp hbegins
          exact h.imp fun a ha => ha.1
        · have hnot : ∀ p ≤ version.bitCount,
              ¬ Section.Mask.Begins version.bitCount p true (Digits.value 8 mask) :=
            fun p hp hbegins' => hbegins ⟨p, hp, hbegins'⟩
          have h := ofBytesMasked_of_not_begins hbytes hmask hlen (hsame ▸ hlen) hnot
          exact h.imp fun a ha => ha.1
      obtain ⟨a, ha⟩ := hok
      simp [ha, hsame]
  · rw [ofBytesMasked_of_length_ne hsame]
    simp [hsame, eq_comm]

/-- **Addresses from bytes with a mask.** There is a size mismatch exactly if there are not as many
bytes in the mask as in the address, and an invalid value exactly if there are, but neither four nor
sixteen. Otherwise there is a single address. If the mask has `p` ones in front and zeros behind
them, it is the address that the bytes write, with the prefix length `p`; for any other mask it is
the one that they write under the mask, without a prefix length. -/
theorem ofBytesMasked_exact (bytes mask : List Nat) (hbytes : Fit 8 bytes) (hmask : Fit 8 mask) :
    ((∃ cause, ofBytesMasked bytes mask = .error cause ∧ cause.kind = .mismatch) ↔
      bytes.length ≠ mask.length) ∧
    ((∃ cause, ofBytesMasked bytes mask = .error cause ∧ cause.kind = .invalid) ↔
      bytes.length = mask.length ∧ bytes.length ≠ 4 ∧ bytes.length ≠ 16) ∧
    ∀ version : Version, bytes.length = version.byteCount → mask.length = version.byteCount →
      (∀ p ≤ version.bitCount, Section.Mask.Begins version.bitCount p true (Digits.value 8 mask) →
        ∃ a, ofBytesMasked bytes mask = .ok a ∧ a.Single version (Digits.value 8 bytes) (some p)) ∧
      ((∀ p ≤ version.bitCount,
          ¬ Section.Mask.Begins version.bitCount p true (Digits.value 8 mask)) →
        ∃ a, ofBytesMasked bytes mask = .ok a ∧
          a.Single version (Digits.value 8 bytes &&& Digits.value 8 mask) none) := by
  refine ⟨?_, ?_, fun version hlen hmaskLen => ⟨fun p hp hbegins => ?_, fun hnot => ?_⟩⟩
  · simp only [ofBytesMasked_eq_error_iff hbytes hmask]
    constructor
    · rintro ⟨_, ⟨hne, rfl⟩ | ⟨-, rfl⟩, hkind⟩
      · exact hne
      · cases hkind
    · intro hne
      exact ⟨_, Or.inl ⟨hne, rfl⟩, rfl⟩
  · simp only [ofBytesMasked_eq_error_iff hbytes hmask]
    constructor
    · rintro ⟨_, ⟨-, rfl⟩ | ⟨hcount, rfl⟩, hkind⟩
      · cases hkind
      · exact hcount
    · intro hcount
      exact ⟨_, Or.inr ⟨hcount, rfl⟩, rfl⟩
  · exact ofBytesMasked_of_begins hbytes hmask hlen hmaskLen hp hbegins
  · exact ofBytesMasked_of_not_begins hbytes hmask hlen hmaskLen hnot

/-- The bytes 10.1.2.3 with the mask 255.255.0.0 are the address 10.1.2.3 of prefix length 16. With
the mask 255.0.255.0, whose ones are not all in front, they are the address 10.0.2.0. -/
theorem ofBytesMasked_exact_halves :
    Fit 8 [10, 1, 2, 3] ∧ Fit 8 [255, 255, 0, 0] ∧ Fit 8 [255, 0, 255, 0] ∧
      (∃ a, ofBytesMasked [10, 1, 2, 3] [255, 255, 0, 0] = .ok a ∧
        a.Single .v4 0x0a010203 (some 16)) ∧
      ∃ a, ofBytesMasked [10, 1, 2, 3] [255, 0, 255, 0] = .ok a ∧ a.Single .v4 0x0a000200 none := by
  have hbytes : Fit 8 [10, 1, 2, 3] := by simp
  have hnetwork : Fit 8 [255, 255, 0, 0] := by simp
  have hother : Fit 8 [255, 0, 255, 0] := by simp
  obtain ⟨-, -, hread⟩ := ofBytesMasked_exact _ _ hbytes hnetwork
  obtain ⟨-, -, happly⟩ := ofBytesMasked_exact _ _ hbytes hother
  have hbegins : Section.Mask.Begins 32 16 true (Digits.value 8 [255, 255, 0, 0]) := by
    unfold Section.Mask.Begins
    decide
  have hnot : ∀ p ≤ 32, ¬ Section.Mask.Begins 32 p true (Digits.value 8 [255, 0, 255, 0]) := by
    intro p hp hbegins
    -- The ninth bit is a zero, and the seventeenth a one.
    have hzero := hbegins 8 (by decide)
    have hone := hbegins 16 (by decide)
    have hvalue : Digits.value 8 [255, 0, 255, 0] = 0xff00ff00 := rfl
    rw [hvalue] at hzero hone
    by_cases h : 8 < p
    · rw [if_pos h] at hzero
      revert hzero
      decide
    · rw [if_neg (by omega)] at hone
      revert hone
      decide
  exact ⟨hbytes, hnetwork, hother, (hread .v4 rfl rfl).1 16 (by decide) hbegins,
    (happly .v4 rfl rfl).2 hnot⟩

end Address

end IpSpace
