import IpSpace.Proofs.HostTests

/-!
# Which addresses the tests for a network see

Whether two addresses share their first bits, and whether the last bits of an address are those of a
host, can be told segment by segment (`Version.share_iff_split`, `Host.has_iff_split`): giving a
host to an address gives it to each of its segments, with the host bits that the prefix length
leaves there (`Host.split_give`).

The tests of a section look at the two ends of every segment. That is enough for one segment, where
networks are in the order of the values: all values share a network if the ends do, and if the host
occurs, it occurs in the network of the lower end or at the start of the next one. It is enough for
the whole section because any values picked from the segments make up an address
(`Section.exists_mem_values_iff`). So the tests say what they are asked: whether all addresses are
in one network, and whether one of them has the host (`Section.networkTests_exact`).
-/

namespace IpSpace

open Digits (Fit)

/-! ## Addresses by their segments -/

namespace Version

variable {version : Version} {x y : Nat}

/-- The segments of an address determine it. -/
theorem split_inj (hx : x ≤ version.maxValue) (hy : y ≤ version.maxValue) :
    version.split x = version.split y ↔ x = y := by
  constructor
  · intro h
    rw [← join_split hx, h, join_split hy]
  · rintro rfl
    rfl

end Version

namespace Host

variable {host : Host} {version : Version} {p x : Nat}

/-- An address that is given a host is an address. -/
theorem give_le_maxValue (host : Host) (hx : x ≤ version.maxValue) :
    host.give version p x ≤ version.maxValue := by
  have hmask := host.mask_le_maxValue version p
  rw [Version.le_maxValue_iff] at hx hmask ⊢
  rw [host.give_eq]
  exact host.op.eval_lt hx hmask

/-- **Giving a host to an address gives it to each of its segments.** -/
theorem split_give (host : Host) (version : Version) (p x : Nat) :
    version.split (host.give version p x) = (version.split x).mapIdx fun index d =>
      d / 2 ^ version.hostBits p index * 2 ^ version.hostBits p index
        + host.low (version.hostBits p index) := by
  have hparts : version.split (host.give version p x)
      = List.zipWith host.op.eval (version.split x) (version.split (host.mask version p)) := by
    rw [host.give_eq]
    exact host.op.split_eval _ _ _ _
  rw [hparts, host.split_mask]
  refine List.ext_getElem (by simp) fun index hleft hright => ?_
  rw [List.length_mapIdx] at hright
  have hdigit := version.fit_split x _ (List.getElem_mem hright)
  simp only [List.getElem_zipWith, List.getElem_map, List.getElem_range, List.getElem_mapIdx]
  exact host.eval_segmentMask hdigit (Section.hostBits_le version p index)

/-- An address has a host if its segments do. -/
theorem has_iff_split (hx : x ≤ version.maxValue) : host.Has version p x ↔
    ∀ index (h : index < (version.split x).length),
      (version.split x)[index] % 2 ^ version.hostBits p index
        = host.low (version.hostBits p index) := by
  rw [has_iff_give_eq hx, ← Version.split_inj (host.give_le_maxValue hx) hx, split_give,
    List.ext_getElem_iff]
  simp only [List.length_mapIdx, true_and, List.getElem_mapIdx]
  refine forall_congr' fun index => ?_
  constructor
  · intro hall h
    have hparts := Digits.div_mul_add_mod (version.split x)[index] (2 ^ version.hostBits p index)
    have hgiven := hall h h
    omega
  · intro hall h _
    rw [← hall h]
    exact Digits.div_mul_add_mod _ _

end Host

/-- Two addresses share their first bits if their segments do. To share them is to be the same
address once the others are cleared. -/
theorem Version.share_iff_split {version : Version} {p x y : Nat} (hx : x ≤ version.maxValue)
    (hy : y ≤ version.maxValue) :
    x / 2 ^ (version.bitCount - p) = y / 2 ^ (version.bitCount - p) ↔
      ∀ index (hxs : index < (version.split x).length) (hys : index < (version.split y).length),
        (version.split x)[index] / 2 ^ version.hostBits p index
          = (version.split y)[index] / 2 ^ version.hostBits p index := by
  have hcleared : Host.give .zeros version p x = Host.give .zeros version p y ↔
      x / 2 ^ (version.bitCount - p) = y / 2 ^ (version.bitCount - p) := by
    rw [Host.give_eq_network_add hx, Host.give_eq_network_add hy, Nat.add_left_inj,
      Nat.mul_left_inj (Nat.two_pow_pos _).ne']
  rw [← hcleared, ← split_inj (Host.give_le_maxValue _ hx) (Host.give_le_maxValue _ hy),
    Host.split_give, Host.split_give, List.ext_getElem_iff]
  simp only [List.length_mapIdx, length_split, true_and, List.getElem_mapIdx, Nat.add_left_inj,
    Nat.mul_left_inj (Nat.two_pow_pos _).ne']

/-! ## Segments -/

namespace Bounds

variable {b : Bounds} {h : Nat}

/-- All values have the same network if the two ends do. -/
theorem isSingleNetwork_iff (hb : b.lower ≤ b.upper) : b.isSingleNetwork h = true ↔
    ∀ d ∈ b, ∀ e ∈ b, d / 2 ^ h = e / 2 ^ h := by
  rw [isSingleNetwork, beq_iff_eq]
  constructor
  · intro hends d hd e he
    have hnetwork : ∀ c ∈ b, c / 2 ^ h = b.lower / 2 ^ h := by
      intro c hc
      have hlower := Nat.div_le_div_right hc.1 (c := 2 ^ h)
      have hupper := Nat.div_le_div_right hc.2 (c := 2 ^ h)
      omega
    rw [hnetwork d hd, hnetwork e he]
  · intro hall
    exact hall b.lower ⟨Nat.le_refl _, hb⟩ b.upper ⟨hb, Nat.le_refl _⟩

/-- If a host of zeros occurs, it does at the lower end or at the start of the next network. -/
theorem includesZeroHost_iff (hb : b.lower ≤ b.upper) :
    b.includesZeroHost h = true ↔ ∃ d ∈ b, d % 2 ^ h = 0 := by
  have hlower := Digits.div_mul_add_mod b.lower (2 ^ h)
  have hrest := Nat.mod_lt b.lower (Nat.two_pow_pos h)
  rw [includesZeroHost, Bool.or_eq_true, beq_iff_eq, decide_eq_true_eq, Bits.blockEnd]
  constructor
  · rintro (hzero | hnext)
    · exact ⟨b.lower, ⟨Nat.le_refl _, hb⟩, hzero⟩
    · refine ⟨(b.lower / 2 ^ h + 1) * 2 ^ h, ?_, Nat.mul_mod_left _ _⟩
      rw [mem_iff, Nat.succ_mul]
      omega
  · rintro ⟨d, ⟨hle, hge⟩, hd⟩
    have hparts := Digits.div_mul_add_mod d (2 ^ h)
    rcases Nat.lt_or_eq_of_le (Nat.div_le_div_right (c := 2 ^ h) hle) with hlt | heq
    · have hstart := Nat.mul_le_mul_right (2 ^ h) (Nat.succ_le_of_lt hlt)
      rw [Nat.succ_mul] at hstart
      omega
    · -- In the network of the lower end, no value lies before the one with a host of zeros.
      rw [heq] at hlower
      omega

/-- If a host of ones occurs, it does at the end of the network of the lower end. -/
theorem includesMaxHost_iff : b.includesMaxHost h = true ↔ ∃ d ∈ b, d % 2 ^ h = 2 ^ h - 1 := by
  have hones : 2 ^ h - 1 < 2 ^ h := Nat.sub_lt (Nat.two_pow_pos h) Nat.one_pos
  rw [includesMaxHost, decide_eq_true_eq, Bits.blockEnd]
  constructor
  · intro hend
    have hlower := Digits.div_mul_add_mod b.lower (2 ^ h)
    have hrest := Nat.mod_lt b.lower (Nat.two_pow_pos h)
    refine ⟨b.lower / 2 ^ h * 2 ^ h + (2 ^ h - 1), ⟨by omega, hend⟩, ?_⟩
    exact (Digits.mul_add_div_mod hones).2
  · rintro ⟨d, ⟨hle, hge⟩, hd⟩
    have hparts := Digits.div_mul_add_mod d (2 ^ h)
    have hstart := Nat.mul_le_mul_right (2 ^ h) (Nat.div_le_div_right (c := 2 ^ h) hle)
    omega

end Bounds

/-- Whether some value of a range has a host. -/
theorem Host.includedIn_iff {host : Host} {b : Bounds} {h : Nat} (hb : b.lower ≤ b.upper) :
    host.includedIn b h = true ↔ ∃ d ∈ b, d % 2 ^ h = host.low h := by
  cases host with
  | zeros => exact Bounds.includesZeroHost_iff hb
  | ones => exact Bounds.includesMaxHost_iff

/-! ## Sections -/

namespace Section

variable {s : Section} {host : Host} {p x : Nat}

/-- The segments of an address lie within the bounds of a section that holds it. -/
theorem getElem_split_mem (hx : x ∈ s.values) {index : Nat}
    (hsplit : index < (s.version.split x).length) (hb : index < s.bounds.length) :
    (s.version.split x)[index] ∈ s.bounds[index] :=
  hx.2.get hb hsplit

/-- **Any values picked from the segments make up an address**, so there is an address with some
property of every segment as soon as there is a value for each. -/
theorem exists_mem_values_iff (hs : s.WellFormed) {P : Nat → Nat → Prop} :
    (∃ x ∈ s.values, ∀ index (h : index < (s.version.split x).length),
      P index (s.version.split x)[index]) ↔
    ∀ index (h : index < s.bounds.length), ∃ d ∈ s.bounds[index], P index d := by
  constructor
  · rintro ⟨x, hx, hall⟩ index h
    have hsplit : index < (s.version.split x).length := by
      rwa [Version.length_split, ← hs.length_bounds]
    exact ⟨_, getElem_split_mem hx hsplit h, hall index hsplit⟩
  · -- One value of each segment makes up an address of the section.
    intro hall
    choose digit hmem hdigit using hall
    let digits := List.ofFn fun index : Fin s.bounds.length => digit index index.2
    have hpicks : Picks s.bounds digits := by
      refine List.forall₂_iff_get.2 ⟨List.length_ofFn.symm, fun index hb _ => ?_⟩
      simpa [digits] using hmem index hb
    have hlen : digits.length = s.version.segmentCount := by
      rw [← hpicks.length_eq, hs.length_bounds]
    have hfit : Fit s.version.segmentBits digits :=
      (areDigits_values hs.within).fit (picks_iff_draws.1 hpicks)
    have hsplit := Version.split_join hlen hfit
    refine ⟨s.version.join digits, ⟨Version.join_le_maxValue hlen hfit, hsplit.symm ▸ hpicks⟩, ?_⟩
    simp only [hsplit]
    intro index h
    simpa [digits] using hdigit index (hpicks.length_eq ▸ h)

/-- **The test for a single network asks whether all addresses share their first bits**, which they
do if the lowest and the highest one do. -/
theorem isSingleNetworkAt_iff (hs : s.WellFormed) : s.isSingleNetworkAt p = true ↔
    ∀ x ∈ s.values, ∀ y ∈ s.values, x / 2 ^ (s.bitCount - p) = y / 2 ^ (s.bitCount - p) := by
  rw [isSingleNetworkAt, allHosts_iff]
  constructor
  · intro hall x hx y hy
    refine (Version.share_iff_split (le_maxValue_of_mem_values hx)
      (le_maxValue_of_mem_values hy)).2 fun index hxs hys => ?_
    have hb : index < s.bounds.length := by rwa [hs.length_bounds, ← Version.length_split]
    exact (Bounds.isSingleNetwork_iff (hs.lower_le_upper _ (List.getElem_mem hb))).1 (hall index hb)
      _ (getElem_split_mem hx hxs hb) _ (getElem_split_mem hy hys hb)
  · intro hall index hb
    have hends :=
      (Version.share_iff_split (lowerValue_le_maxValue hs) (upperValue_le_maxValue hs)).1
      (hall _ (lowerValue_mem hs) _ (upperValue_mem hs)) index
    simp only [split_lowerValue hs, split_upperValue hs, List.length_map, List.getElem_map] at hends
    exact beq_iff_eq.2 (hends hb hb)

/-- **The test for a host asks whether some address has it.** -/
theorem includesHostAt_iff (hs : s.WellFormed) : s.includesHostAt host p = true ↔
    ∃ x ∈ s.values, host.Has s.version p x := by
  have hsegments : s.includesHostAt host p = true ↔
      ∀ index (h : index < s.bounds.length), ∃ d ∈ s.bounds[index],
        d % 2 ^ s.version.hostBits p index = host.low (s.version.hostBits p index) := by
    rw [includesHostAt_eq, allHosts_iff]
    exact forall₂_congr fun index h =>
      Host.includedIn_iff (hs.lower_le_upper _ (List.getElem_mem h))
  rw [hsegments, ← exists_mem_values_iff hs (P := fun index d =>
    d % 2 ^ s.version.hostBits p index = host.low (s.version.hostBits p index))]
  exact exists_congr fun x => and_congr_right fun hx =>
    (Host.has_iff_split (le_maxValue_of_mem_values hx)).symm

/-- A test of every segment reads a prefix length past the width of the address as the full
width. -/
theorem allHosts_eq_of_lt (hs : s.WellFormed) (hp : s.bitCount < p) (test : Bounds → Nat → Bool) :
    s.allHosts p test = s.allHosts s.bitCount test := by
  rw [allHosts, ← hosts_min hs, Nat.min_eq_right (Nat.le_of_lt hp)]
  rfl

/-- **What the tests for networks say.** A section is in a single network of a length exactly if all
its addresses agree in as many first bits. It includes a host of zeros, or a host of ones, exactly
if the other bits of some address are all zero, or all one. A length past the width of the address
is read as the full width. -/
theorem networkTests_exact (s : Section) (hs : s.WellFormed) :
    (∀ p ≤ s.bitCount,
      (s.isSingleNetworkAt p = true ↔ ∀ x ∈ s.values, ∀ y ∈ s.values,
        x / 2 ^ (s.bitCount - p) = y / 2 ^ (s.bitCount - p)) ∧
      (s.includesZeroHostAt p = true ↔ ∃ x ∈ s.values, x % 2 ^ (s.bitCount - p) = 0) ∧
      (s.includesMaxHostAt p = true ↔
        ∃ x ∈ s.values, x % 2 ^ (s.bitCount - p) = 2 ^ (s.bitCount - p) - 1)) ∧
    ∀ p, s.bitCount < p →
      s.isSingleNetworkAt p = s.isSingleNetworkAt s.bitCount ∧
      s.includesZeroHostAt p = s.includesZeroHostAt s.bitCount ∧
      s.includesMaxHostAt p = s.includesMaxHostAt s.bitCount := by
  have hincludes : ∀ (host : Host) (p : Nat), s.includesHostAt host p = true ↔
      ∃ x ∈ s.values, x % 2 ^ (s.bitCount - p) = host.low (s.bitCount - p) := by
    intro host p
    rw [includesHostAt_iff hs]
    exact exists_congr fun x => and_congr_right fun _ => Host.has_iff_mod
  constructor
  · intro p _
    exact ⟨isSingleNetworkAt_iff hs, hincludes .zeros p, hincludes .ones p⟩
  · intro p hp
    exact ⟨allHosts_eq_of_lt hs hp _, allHosts_eq_of_lt hs hp _, allHosts_eq_of_lt hs hp _⟩

/-- The addresses 10.1.24-40.5-255 are in several networks of twenty bits. Their third segments
include 10.1.32, but none of them has a host of zeros, since the last segment has none; one has a
host of ones. -/
theorem networkTests_exact_partial :
    let s : Section := ⟨.v4, [⟨10, 10⟩, ⟨1, 1⟩, ⟨24, 40⟩, ⟨5, 255⟩], none⟩
    s.WellFormed ∧
      (¬ ∀ x ∈ s.values, ∀ y ∈ s.values, x / 2 ^ 12 = y / 2 ^ 12) ∧
      (¬ ∃ x ∈ s.values, x % 2 ^ 12 = 0) ∧ ∃ x ∈ s.values, x % 2 ^ 12 = 2 ^ 12 - 1 := by
  intro s
  have hs : s.WellFormed := ⟨by decide, by decide, by decide, by decide⟩
  obtain ⟨hsingle, hzeros, hones⟩ := (networkTests_exact s hs).1 20 (by decide)
  exact ⟨hs, mt hsingle.2 (by decide), mt hzeros.2 (by decide), hones.1 (by decide)⟩

end Section

end IpSpace
