import IpSpace.Proofs.HostConversion

/-!
# Which addresses the tests for a host see

The tests for a host of zeros and for a host of ones ask the two ends of every segment. The ends of
all segments together are the lowest and the highest address, so the tests say exactly that these
two have the host (`hasHostAt_iff_ends`).

All addresses of a section have the host if giving it to them changes none (`allHave_iff_give`),
which is again a matter of the segments. A segment with host bits that begins with the host and has
more than one value goes on with a value that has not. So all addresses have the host exactly if the
section passes the test and no segment with host bits has more than one value (`hostTests_iff`); a
section that passes the test and has such a segment holds addresses without the host
(`isZeroHostAt_isMaxHostAt_between`).
-/

namespace IpSpace

variable {s : Section} {host : Host} {p : Nat}

/-! ## Addresses with a host -/

namespace Host

variable {version : Version} {x : Nat}

/-- Whether the address `x` has the host behind its first `p` bits: all bits of the host mask are
those of the host. -/
def Has (host : Host) (version : Version) (p x : Nat) : Prop :=
  x &&& version.hostMask p = host.low (version.bitCount - p)

/-- An address has the host if its last bits are those of the host. -/
theorem has_iff_mod : host.Has version p x ↔
    x % 2 ^ (version.bitCount - p) = host.low (version.bitCount - p) := by
  rw [Has, Version.hostMask, Nat.and_two_pow_sub_one_eq_mod]

/-- Giving the host to an address keeps its network and replaces the rest. -/
theorem give_eq_network_add (hx : x ≤ version.maxValue) :
    host.give version p x = x / 2 ^ (version.bitCount - p) * 2 ^ (version.bitCount - p)
      + host.low (version.bitCount - p) := by
  have hmask : host.mask version p
      = host.segmentMask version.bitCount (version.bitCount - p) := by
    cases host <;> rfl
  have hlt : x < 2 ^ version.bitCount := by
    rwa [Version.maxValue, Nat.le_sub_one_iff_lt (Nat.two_pow_pos _)] at hx
  rw [host.give_eq, hmask]
  exact host.eval_segmentMask hlt (Nat.sub_le _ _)

/-- An address has the host if giving it the host changes nothing. -/
theorem has_iff_give_eq (hx : x ≤ version.maxValue) :
    host.Has version p x ↔ host.give version p x = x := by
  have hparts := Digits.div_mul_add_mod x (2 ^ (version.bitCount - p))
  rw [has_iff_mod, give_eq_network_add hx]
  omega

/-- An address that has been given the host has it. -/
theorem has_give (hx : x ≤ version.maxValue) : host.Has version p (host.give version p x) := by
  rw [has_iff_mod, give_eq_network_add hx, Nat.mul_add_mod_self_right, low_mod]

end Host

namespace Section

/-! ## All addresses of a section -/

/-- All addresses of a section have the host if giving it to them changes none. -/
theorem allHave_iff_give (s : Section) (host : Host) (p : Nat) :
    (∀ x ∈ s.values, host.Has s.version p x) ↔ s.values = host.give s.version p '' s.values := by
  constructor
  · intro hall
    have hsame : ∀ x ∈ s.values, host.give s.version p x = x := fun x hx =>
      (Host.has_iff_give_eq (le_maxValue_of_mem_values hx)).1 (hall x hx)
    rw [Set.image_congr hsame, Set.image_id']
  · intro hgive x hx
    rw [hgive] at hx
    obtain ⟨y, hy, rfl⟩ := hx
    exact Host.has_give (le_maxValue_of_mem_values hy)

/-- All addresses of a section have the host if the values of its segments do. -/
theorem allHave_iff_segments (hs : s.WellFormed) (host : Host) (p : Nat) :
    (∀ x ∈ s.values, host.Has s.version p x) ↔
      ∀ b h, (b, h) ∈ s.hosts p → ∀ d ∈ b.values, d % 2 ^ h = host.low h := by
  rw [allHave_iff_give, values_eq_give_iff hs]

/-! ## The ends of a section -/

/-- An address given by a value from each segment of a section has the host if these values do. -/
private theorem has_iff_digits {f : Bounds → Nat} {q : Option Nat} {x : Nat}
    (hwf : (ofDigits s.version (s.bounds.map f) q).WellFormed)
    (hvalues : (ofDigits s.version (s.bounds.map f) q).values = {x}) :
    host.Has s.version p x ↔ ∀ b h, (b, h) ∈ s.hosts p → f b % 2 ^ h = host.low h := by
  have hhosts : (ofDigits s.version (s.bounds.map f) q).hosts p
      = (s.hosts p).map (Prod.map (Bounds.single ∘ f) id) :=
    List.ext_getElem (by simp [hosts, ofDigits]) (by simp [hosts, ofDigits])
  have hall := allHave_iff_segments hwf host p
  rw [hvalues, hhosts] at hall
  simp only [Set.mem_singleton_iff, forall_eq] at hall
  refine hall.trans ⟨fun hdigits b h hmem => ?_, fun hdigits c h hmem d hd => ?_⟩
  · exact hdigits _ h (List.mem_map.2 ⟨(b, h), hmem, rfl⟩) (f b) ⟨Nat.le_refl _, Nat.le_refl _⟩
  · obtain ⟨⟨b, bits⟩, hb, heq⟩ := List.mem_map.1 hmem
    cases heq
    rw [Nat.le_antisymm hd.2 hd.1]
    exact hdigits b bits hb

/-- **The test for a host asks whether the lowest and the highest address have it.** -/
theorem hasHostAt_iff_ends (hs : s.WellFormed) (host : Host) (p : Nat) :
    s.hasHostAt host p = true ↔
      host.Has s.version p s.lowerValue ∧ host.Has s.version p s.upperValue := by
  have hlower : host.Has s.version p s.lowerValue ↔ _ :=
    has_iff_digits (wellFormed_lower hs) (values_lower hs)
  have hupper : host.Has s.version p s.upperValue ↔ _ :=
    has_iff_digits (wellFormed_upper hs) (values_upper hs)
  rw [hasHostAt_iff, hlower, hupper]
  exact ⟨fun hends => ⟨fun b h hmem => (hends b h hmem).1, fun b h hmem => (hends b h hmem).2⟩,
    fun hends b h hmem => ⟨hends.1 b h hmem, hends.2 b h hmem⟩⟩

/-! ## Between the ends -/

/-- No segment with host bits has more than one value. -/
def FixesHost (s : Section) (p : Nat) : Prop :=
  ∀ b h, (b, h) ∈ s.hosts p → h = 0 ∨ b.lower = b.upper

/-- All addresses have the host if the test is passed and does not pass over any value. -/
theorem allHave_iff_test (hs : s.WellFormed) (host : Host) (p : Nat) :
    (∀ x ∈ s.values, host.Has s.version p x) ↔ s.hasHostAt host p = true ∧ s.FixesHost p := by
  rw [allHave_iff_give]
  constructor
  · intro hgive
    have hall := (allHave_iff_give s host p).2 hgive
    have hhas : s.hasHostAt host p = true := (hasHostAt_iff_ends hs host p).2
      ⟨hall _ (lowerValue_mem hs), hall _ (upperValue_mem hs)⟩
    exact ⟨hhas, (values_eq_give_iff_of_hasHostAt hs hhas).1 hgive⟩
  · rintro ⟨hhas, hfixes⟩
    exact (values_eq_give_iff_of_hasHostAt hs hhas).2 hfixes

/-- **What the tests for a host of zeros and for a host of ones say.** They say that the lowest and
the highest address have it. That is so of all addresses exactly if, besides, no segment with host
bits has more than one value. -/
theorem hostTests_iff (s : Section) (hs : s.WellFormed) (p : Nat) :
    let mask := s.version.hostMask p
    (s.isZeroHostAt p = true ↔ s.lowerValue &&& mask = 0 ∧ s.upperValue &&& mask = 0) ∧
    (s.isMaxHostAt p = true ↔ s.lowerValue &&& mask = mask ∧ s.upperValue &&& mask = mask) ∧
    ((∀ x ∈ s.values, x &&& mask = 0) ↔ s.isZeroHostAt p = true ∧ s.FixesHost p) ∧
    ((∀ x ∈ s.values, x &&& mask = mask) ↔ s.isMaxHostAt p = true ∧ s.FixesHost p) := by
  intro mask
  refine ⟨?_, ?_, ?_, ?_⟩
  · exact hasHostAt_iff_ends hs .zeros p
  · exact hasHostAt_iff_ends hs .ones p
  · exact allHave_iff_test hs .zeros p
  · exact allHave_iff_test hs .ones p

/-- The addresses 10.0-3.16.0 have several networks of twenty bits, and each of them has a host of
zeros behind these. -/
theorem hostTests_iff_networks :
    let s : Section := ⟨.v4, [⟨10, 10⟩, ⟨0, 3⟩, ⟨16, 16⟩, ⟨0, 0⟩], none⟩
    s.WellFormed ∧ ∀ x ∈ s.values, x &&& Version.v4.hostMask 20 = 0 := by
  intro s
  have hs : s.WellFormed := ⟨by decide, by decide, by decide, by decide⟩
  obtain ⟨-, -, hzeros, -⟩ := hostTests_iff s hs 20
  have hbounds : ∀ pair ∈ s.hosts 20, pair.2 = 0 ∨ pair.1.lower = pair.1.upper := by decide
  exact ⟨hs, hzeros.2 ⟨by decide, fun b h hmem => hbounds (b, h) hmem⟩⟩

/-- Both ends of 10.0.0.0-16 have a host of zeros behind 28 bits, and both ends of 10.0.0.15-31 a
host of ones; the addresses between them do not. -/
theorem isZeroHostAt_isMaxHostAt_between :
    let s : Section := ⟨.v4, [⟨10, 10⟩, ⟨0, 0⟩, ⟨0, 0⟩, ⟨0, 16⟩], none⟩
    let t : Section := ⟨.v4, [⟨10, 10⟩, ⟨0, 0⟩, ⟨0, 0⟩, ⟨15, 31⟩], none⟩
    let mask := Version.v4.hostMask 28
    (s.isZeroHostAt 28 = true ∧ ¬ ∀ x ∈ s.values, x &&& mask = 0) ∧
      (t.isMaxHostAt 28 = true ∧ ¬ ∀ x ∈ t.values, x &&& mask = mask) := by
  intro s t mask
  have hs : s.WellFormed := ⟨by decide, by decide, by decide, by decide⟩
  have ht : t.WellFormed := ⟨by decide, by decide, by decide, by decide⟩
  refine ⟨⟨by decide, fun hall => ?_⟩, by decide, fun hall => ?_⟩
  · have hfixes := ((allHave_iff_test hs .zeros 28).1 hall).2
    exact absurd (hfixes ⟨0, 16⟩ 4 (by decide)) (by decide)
  · have hfixes := ((allHave_iff_test ht .ones 28).1 hall).2
    exact absurd (hfixes ⟨15, 31⟩ 4 (by decide)) (by decide)

end Section

end IpSpace
