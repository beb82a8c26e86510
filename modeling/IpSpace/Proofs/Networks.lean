import IpSpace.Proofs.Values
import IpSpace.Section.Convert

/-!
# Networks

The network of an address for a prefix length is the set of all addresses that share its first bits.
Widening a section to whole networks is done segment by segment, with the host bits that the prefix
length leaves in each. The result holds exactly the addresses whose network meets the section
(`Section.mem_values_blockAt`).
-/

namespace IpSpace

namespace Bounds

/-- Widening to whole networks stays within the width of a segment. -/
theorem block_within {width h : Nat} {b : Bounds} (hb : b.Within width) (hh : h ≤ width) :
    (b.block h).Within width where
  lower_le_upper := by
    have hpos := Nat.two_pow_pos h
    have hdiv := Nat.mul_le_mul_right (2 ^ h) (Nat.div_le_div_right (c := 2 ^ h) hb.lower_le_upper)
    simp only [block, Bits.blockStart, Bits.blockEnd]
    omega
  upper_lt := by
    have hsplit : 2 ^ width = 2 ^ (width - h) * 2 ^ h := by
      rw [← Nat.pow_add, Nat.sub_add_cancel hh]
    have hlt : b.upper / 2 ^ h < 2 ^ (width - h) :=
      Nat.div_lt_of_lt_mul (by rw [Nat.mul_comm, ← hsplit]; exact hb.upper_lt)
    have hmul := Nat.mul_le_mul_right (2 ^ h) (Nat.succ_le_of_lt hlt)
    rw [Nat.succ_mul] at hmul
    have hpos := Nat.two_pow_pos h
    simp only [block, Bits.blockEnd]
    omega

/-- The values of the widened range are those whose network meets the range. -/
theorem mem_block_iff {h d : Nat} {b : Bounds} (hb : b.lower ≤ b.upper) :
    d ∈ b.block h ↔ ∃ e ∈ b, d / 2 ^ h = e / 2 ^ h := by
  have hpos := Nat.two_pow_pos h
  have hlower : Bits.blockStart h b.lower ≤ d ↔ b.lower / 2 ^ h ≤ d / 2 ^ h :=
    (Nat.le_div_iff_mul_le hpos).symm
  have hupper : d ≤ Bits.blockEnd h b.upper ↔ d / 2 ^ h ≤ b.upper / 2 ^ h := by
    rw [← Nat.lt_succ_iff (m := d / 2 ^ h), Nat.div_lt_iff_lt_mul hpos, Nat.succ_mul, Bits.blockEnd]
    omega
  rw [mem_iff, block, hlower, hupper]
  constructor
  · rintro ⟨hl, hu⟩
    -- The start of the network of `d`, or the lower end where that lies further up.
    refine ⟨max b.lower (d / 2 ^ h * 2 ^ h), ⟨Nat.le_max_left _ _, ?_⟩, ?_⟩
    · exact Nat.max_le.2 ⟨hb, (Nat.le_div_iff_mul_le hpos).1 hu⟩
    · refine Nat.le_antisymm ?_ ?_
      · exact (Nat.le_div_iff_mul_le hpos).2 (Nat.le_max_right _ _)
      · rw [← Nat.lt_succ_iff, Nat.div_lt_iff_lt_mul hpos, Nat.max_lt, ← Nat.div_lt_iff_lt_mul hpos,
          Nat.succ_mul]
        exact ⟨Nat.lt_succ_of_le hl, by omega⟩
  · rintro ⟨e, he, heq⟩
    rw [heq]
    exact ⟨Nat.div_le_div_right he.1, Nat.div_le_div_right he.2⟩

/-- A range is one whole network exactly if widening its lower end to a network yields the range. -/
theorem block_single_iff {h : Nat} {b : Bounds} :
    (single b.lower).block h = b ↔ b.isSingleNetwork h = true ∧ b.isBlock h = true := by
  have hpos := Nat.two_pow_pos h
  have hlower := Digits.div_mul_add_mod b.lower (2 ^ h)
  have hupper := Digits.div_mul_add_mod b.upper (2 ^ h)
  have hends : (single b.lower).block h = b ↔ b.lower / 2 ^ h * 2 ^ h = b.lower ∧
      b.lower / 2 ^ h * 2 ^ h + (2 ^ h - 1) = b.upper := by
    cases b
    simp only [block, single, Bits.blockStart, Bits.blockEnd, mk.injEq]
  rw [hends, isSingleNetwork, isBlock, Bool.and_eq_true, beq_iff_eq, beq_iff_eq, beq_iff_eq]
  constructor
  · rintro ⟨hl, hu⟩
    obtain ⟨hdiv, hmod⟩ := Digits.mul_add_div_mod (q := b.lower / 2 ^ h)
      (Nat.sub_lt hpos Nat.one_pos)
    rw [hu] at hdiv hmod
    exact ⟨hdiv.symm, by omega, hmod⟩
  · rintro ⟨hnetwork, hzero, hone⟩
    rw [← hnetwork] at hupper
    exact ⟨by omega, by omega⟩

end Bounds

/-! ## Boxes of networks -/

section Box

variable {width : Nat}

/-- The bounds of a box, widened to whole networks of the prefix length `p`. -/
def widen (width p : Nat) (bounds : List Bounds) : List Bounds :=
  bounds.mapIdx fun index b => b.block (width - (p - index * width))

theorem widen_cons (p : Nat) (b : Bounds) (bs : List Bounds) :
    widen width p (b :: bs) = b.block (width - p) :: widen width (p - width) bs := by
  simp only [widen, List.mapIdx_cons, Nat.zero_mul, Nat.sub_zero]
  congr 2
  funext index b
  rw [Nat.succ_mul, Nat.add_comm, Nat.sub_sub]

@[simp]
theorem length_widen (p : Nat) (bounds : List Bounds) :
    (widen width p bounds).length = bounds.length := by
  simp [widen]

theorem within_widen {p : Nat} {bounds : List Bounds} (h : ∀ b ∈ bounds, b.Within width) :
    ∀ b ∈ widen width p bounds, b.Within width := by
  intro c hc
  obtain ⟨index, hindex, rfl⟩ := List.mem_mapIdx.1 hc
  exact Bounds.block_within (h _ (List.getElem_mem hindex)) (Nat.sub_le _ _)

/-- A widened box holds the words that share their first `p` bits with a word of the box. -/
theorem mem_box_widen {p : Nat} {bounds : List Bounds} (h : ∀ b ∈ bounds, b.Within width)
    {y : Nat} :
    y ∈ box width (widen width p bounds) ↔ y < 2 ^ (width * bounds.length) ∧
      ∃ x ∈ box width bounds,
        y / 2 ^ (width * bounds.length - p) = x / 2 ^ (width * bounds.length - p) := by
  induction bounds generalizing p y with
  | nil =>
      simp only [widen, List.mapIdx_nil, mem_box_nil, List.length_nil, Nat.mul_zero, Nat.pow_zero,
        Nat.lt_one_iff, exists_eq_left, Nat.zero_sub, Nat.div_one, and_self]
  | cons b bs ih =>
      rw [List.forall_mem_cons] at h
      have hblock := Bounds.block_within h.1 (Nat.sub_le width p)
      rw [widen_cons, mem_box_cons hblock.upper_lt, length_widen, ih h.2,
        Bounds.mem_block_iff h.1.lower_le_upper, List.length_cons]
      constructor
      · -- A digit and a rest that share bits with those of `y` make up the word to be found.
        rintro ⟨⟨d, hd, hdy⟩, hlt, r, hr, hry⟩
        have hrlt := lt_of_mem_box hr
        have hylt : y / 2 ^ (width * bs.length) < 2 ^ width := by
          have := (Bounds.mem_block_iff (h := width - p) h.1.lower_le_upper).2 ⟨d, hd, hdy⟩
          exact Nat.lt_of_le_of_lt this.2 hblock.upper_lt
        refine ⟨?_, d * 2 ^ (width * bs.length) + r, (mul_add_mem_box_cons h.1.upper_lt hrlt).2
          ⟨hd, hr⟩, ?_⟩
        · rw [← Digits.div_mul_add_mod y (2 ^ (width * bs.length))]
          exact Digits.mul_add_lt hylt hlt
        · rw [Digits.div_pow_eq_iff, (Digits.mul_add_div_mod hrlt).1,
            (Digits.mul_add_div_mod hrlt).2]
          exact ⟨hdy, hry⟩
      · rintro ⟨-, x, hx, hxy⟩
        rw [Digits.div_pow_eq_iff] at hxy
        rw [mem_box_cons h.1.upper_lt] at hx
        exact ⟨⟨_, hx.1, hxy.1⟩, Nat.mod_lt _ (Nat.two_pow_pos _), _, hx.2, hxy.2⟩

end Box

/-! ## Sections of networks -/

namespace Section

variable {s : Section}

theorem blockAt_bounds (s : Section) (p : Nat) :
    (s.blockAt p).bounds = widen s.version.segmentBits p s.bounds := by
  simp only [blockAt, hosts, widen, Version.hostBits, List.mapIdx_eq_zipIdx_map, List.map_map]
  rfl

/-- A test of every segment with its host bits, by the places of the segments. -/
theorem allHosts_iff {p : Nat} {test : Bounds → Nat → Bool} : s.allHosts p test = true ↔
    ∀ index (h : index < s.bounds.length),
      test s.bounds[index] (s.version.hostBits p index) = true := by
  rw [allHosts, List.all_eq_true]
  constructor
  · intro hall index h
    exact hall _ (List.mem_mapIdx.2 ⟨index, h, rfl⟩)
  · intro hall pair hpair
    obtain ⟨index, h, rfl⟩ := List.mem_mapIdx.1 hpair
    exact hall index h

/-- A prefix length past the width of an address leaves no host bits, just as the full width. -/
theorem hostBits_min (version : Version) (p : Nat) {index : Nat}
    (hindex : index < version.segmentCount) :
    version.hostBits (min p version.bitCount) index = version.hostBits p index := by
  have hwidth := Nat.mul_le_mul_right version.segmentBits (Nat.succ_le_of_lt hindex)
  rw [Nat.succ_mul] at hwidth
  rw [Version.hostBits, Version.hostBits, Version.bitCount]
  omega

/-- So it is read as the full width. -/
theorem hosts_min (hs : s.WellFormed) (p : Nat) : s.hosts (min p s.bitCount) = s.hosts p := by
  refine List.ext_getElem (by simp [hosts]) fun index h _ => ?_
  simp only [hosts, List.length_mapIdx] at h
  simp only [hosts, List.getElem_mapIdx, bitCount, hostBits_min _ _ (hs.length_bounds ▸ h)]

/-- A section is one whole network, segment by segment, exactly if widening its lowest address to a
network yields its bounds. -/
theorem isSingleBlockAt_iff_bounds {p : Nat} :
    s.isSingleBlockAt p = true ↔ (s.lower.blockAt p).bounds = s.bounds := by
  have hlen : (s.lower.blockAt p).bounds.length = s.bounds.length := by
    rw [blockAt_bounds, length_widen, lower, ofDigits, List.length_map, List.length_map]
  have hget :
      ∀ index (h : index < s.bounds.length) (hwide : index < (s.lower.blockAt p).bounds.length),
      (s.lower.blockAt p).bounds[index]
        = (Bounds.single s.bounds[index].lower).block (s.version.hostBits p index) := by
    intro index h hwide
    simp [blockAt, hosts, lower, ofDigits]
  rw [isSingleBlockAt, Bool.and_eq_true, isSingleNetworkAt, isBlockAt, allHosts_iff, allHosts_iff]
  constructor
  · rintro ⟨hnetwork, hblock⟩
    refine List.ext_getElem hlen fun index hwide h => ?_
    rw [hget index h hwide]
    exact Bounds.block_single_iff.2 ⟨hnetwork index h, hblock index h⟩
  · -- Equal lists have equal segments, and each of them is one network and a block.
    intro heq
    have hall : ∀ index (h : index < s.bounds.length),
        s.bounds[index].isSingleNetwork (s.version.hostBits p index) = true ∧
          s.bounds[index].isBlock (s.version.hostBits p index) = true := by
      intro index h
      rw [← Bounds.block_single_iff, ← hget index h (hlen ▸ h)]
      exact List.getElem_of_eq heq _
    exact ⟨fun index h => (hall index h).1, fun index h => (hall index h).2⟩

/-- Widening a section to whole networks yields a section. -/
theorem wellFormed_blockAt (h : s.WellFormed) {p : Nat} (hp : p ≤ s.bitCount) :
    (s.blockAt p).WellFormed := by
  refine wellFormed_of_within ?_ ?_ ?_
  · rw [blockAt_bounds, length_widen]
    exact h.length_bounds
  · rw [blockAt_bounds]
    exact within_widen h.within
  · rintro q hq
    exact Option.some.inj hq ▸ hp

/-- A section widened to whole networks holds the addresses that share their first `p` bits with an
address of the section. -/
theorem mem_values_blockAt (h : s.WellFormed) {p y : Nat} :
    y ∈ (s.blockAt p).values ↔ y ≤ s.version.maxValue ∧
      ∃ x ∈ s.values, y / 2 ^ (s.bitCount - p) = x / 2 ^ (s.bitCount - p) := by
  have hlen : (s.blockAt p).bounds.length = (s.blockAt p).version.segmentCount := by
    rw [blockAt_bounds, length_widen]
    exact h.length_bounds
  rw [values_eq_box hlen, blockAt_bounds, values_eq_box h.length_bounds, Version.le_maxValue_iff,
    bitCount, Version.bitCount_eq, ← h.length_bounds]
  exact mem_box_widen h.within

end Section

end IpSpace
