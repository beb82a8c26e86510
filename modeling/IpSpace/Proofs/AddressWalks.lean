import IpSpace.Proofs.FixedSegments
import IpSpace.Proofs.HostTests
import IpSpace.Proofs.PrefixWalks
import Mathlib.Data.List.Sort

/-!
# Walks over addresses

With the full width as prefix length there are no host bits, and the networks of an address are its
segments (`Version.networks_bitCount`). So a list of the tuples of a set is a list of its addresses,
and as tuples are in the order of the addresses, it is in ascending order
(`ListsNetworks.exists_enumerates`). That holds of the walk over the addresses of a section, which
counts a product, and of the walk over the addresses of a range, which counts through an interval
and carries from one segment into the one before it (`Section.fixing_addresses_exact`).

The walk over the addresses with a host that is not zero is the walk over all addresses with a test
in its counter. The test looks at the host bits of every segment by themselves; together these are
the host bits of the address (`Version.zeroHost_split_iff`). So it leaves out exactly the addresses
whose host is zero (`Section.nonZeroHosts_exact`).

## Shape of the proof

`Enumerates xs whole` says that a list holds the members of a set in ascending order. There is one
such list (`Enumerates.unique`), so for a range it is known outright (`Enumerates.eq_range'`); a
test leaves a list of the members that pass (`Enumerates.filter`), and members are counted by the
length (`Enumerates.ncard_eq`).
-/

namespace IpSpace

/-! ## Lists of the members of a set -/

/-- The members of a set of numbers, each once and in ascending order. -/
structure Enumerates (xs : List Nat) (whole : Set Nat) : Prop where
  ascending : xs.Pairwise (· < ·)
  mem_iff : ∀ x, x ∈ xs ↔ x ∈ whole

namespace Enumerates

variable {xs ys : List Nat} {whole : Set Nat}

/-- A set has one list of its members. -/
theorem unique (hx : Enumerates xs whole) (hy : Enumerates ys whole) : xs = ys := by
  apply hx.ascending.eq_of_mem_iff hy.ascending
  intro x
  rw [hx.mem_iff, hy.mem_iff]

/-- The list of the numbers from `lower` to `upper`. -/
theorem eq_range' {lower upper : Nat} (h : Enumerates xs (Set.Icc lower upper)) :
    xs = List.range' lower (upper + 1 - lower) := by
  apply h.unique
  refine ⟨List.pairwise_lt_range' 1, fun x => ?_⟩
  rw [List.mem_range'_1, Set.mem_Icc]
  omega

/-- The members that pass a test. -/
theorem filter (h : Enumerates xs whole) (test : Nat → Bool) :
    Enumerates (xs.filter test) {x ∈ whole | test x = true} where
  ascending := h.ascending.filter _
  mem_iff x := by
    rw [List.mem_filter, h.mem_iff]
    exact Iff.rfl

/-- There are as many members as the list is long. -/
theorem ncard_eq (h : Enumerates xs whole) : whole.ncard = xs.length := by
  have hwhole : whole = {x | x ∈ xs} := by
    ext x
    exact (h.mem_iff x).symm
  rw [hwhole, ncard_mem_of_pairwise_lt h.ascending]

/-- The members that pass a test and those that fail it make up the whole. -/
theorem length_filter_add_ncard (h : Enumerates xs whole) (test : Nat → Bool) :
    (xs.filter test).length + {x ∈ whole | test x = false}.ncard = xs.length := by
  have hfail := h.filter fun x => !test x
  have hset : {x ∈ whole | (!test x) = true} = {x ∈ whole | test x = false} := by
    simp only [Bool.not_eq_true']
  rw [← hset, hfail.ncard_eq]
  exact (List.length_eq_length_filter_add test).symm

end Enumerates

/-! ## Tuples of addresses -/

/-- **Without host bits, the networks of an address are its segments.** -/
theorem Version.networks_bitCount (version : Version) (x : Nat) :
    version.networks version.bitCount x = version.split x := by
  have hlen : (version.networks version.bitCount x).length = (version.split x).length := by
    rw [length_networks, Section.wheelCount_bitCount, length_split]
  refine List.ext_getElem hlen fun index hnetwork hsplit => ?_
  rw [length_split] at hsplit
  rw [getElem_networks hnetwork (by rwa [length_split]), Section.hostBits_bitCount hsplit,
    Nat.pow_zero, Nat.div_one]

/-- **Without host bits, the tuples of a set are its addresses**, in ascending order. -/
theorem ListsNetworks.exists_enumerates {version : Version} {whole : Set Nat} {ts : List Tuple}
    (h : ListsNetworks version version.bitCount whole ts) :
    ∃ xs : List Nat, ts = xs.map version.split ∧ Enumerates xs whole := by
  have haddress : ∀ t ∈ ts, ∃ x ∈ whole, version.split x = t ∧ version.join t = x := by
    intro t ht
    obtain ⟨x, hx, rfl⟩ := (h.mem_iff t).1 ht
    rw [Version.networks_bitCount]
    exact ⟨x, hx, rfl, Version.join_split (h.subset hx)⟩
  refine ⟨ts.map version.join, ?_, ?_, fun x => ?_⟩
  · rw [List.map_map]
    conv_lhs => rw [← List.map_id ts]
    refine List.map_congr_left fun t ht => ?_
    obtain ⟨x, -, hsplit, hjoin⟩ := haddress t ht
    exact (hjoin.symm ▸ hsplit).symm
  · refine List.pairwise_map.2 (h.pairwise.imp_of_mem fun {t u} ht hu htu => ?_)
    obtain ⟨x, hx, hsplitx, hjoinx⟩ := haddress t ht
    obtain ⟨y, hy, hsplity, hjoiny⟩ := haddress u hu
    rw [hjoinx, hjoiny]
    -- Addresses in the wrong order would have segments in the wrong order.
    by_contra hle
    have horder := Version.networks_le (p := version.bitCount) (h.subset hx) (Nat.not_lt.1 hle)
    rw [Version.networks_bitCount, Version.networks_bitCount, hsplitx, hsplity] at horder
    exact not_le_of_gt htu horder
  · rw [List.mem_map]
    constructor
    · rintro ⟨t, ht, rfl⟩
      obtain ⟨x, hx, -, hjoin⟩ := haddress t ht
      rwa [hjoin]
    · intro hx
      refine ⟨version.split x, (h.mem_iff _).2 ⟨x, hx, version.networks_bitCount x⟩, ?_⟩
      exact Version.join_split (h.subset hx)

namespace Section

variable {s : Section} {p x : Nat}

/-! ## Addresses of a section -/

/-- The member `x` of a section, as a section by itself. -/
def member (s : Section) (x : Nat) : Section :=
  (ofHost ⟨s.version, x⟩).withPrefixLen s.prefixLen

/-- A member by itself holds one address. -/
theorem values_member (hx : x ∈ s.values) : (s.member x).values = {x} :=
  values_ofDigits_split (le_maxValue_of_mem_values hx) s.prefixLen

/-- Every address is a network of the full width. -/
theorem prefixCount_bitCount (hs : s.WellFormed) : s.prefixCount s.bitCount = s.count := by
  have hcounts : s.networkCounts s.bitCount = s.bounds.map Bounds.count := by
    refine List.ext_getElem (by simp [networkCounts, hosts]) fun index hhost hb => ?_
    rw [List.length_map, hs.length_bounds] at hb
    simp [networkCounts, hosts, bitCount, hostBits_bitCount hb, Bounds.networks]
  calc s.prefixCount s.bitCount = (s.networkCounts s.bitCount).foldr (· * ·) 1 := rfl
    _ = s.count := by rw [hcounts, count]

/-- The tuples of the walk over the addresses of a section are these addresses. -/
theorem exists_tuples_addresses (hs : s.WellFormed) :
    ∃ xs : List Nat, Counting.product.tuples (wheelsAt s.version s.bitCount s.bounds)
        = xs.map s.version.split ∧
      Enumerates xs s.values ∧ xs.length = s.count := by
  obtain ⟨xs, htuples, hxs⟩ := (listsNetworks hs (Nat.le_refl s.bitCount)).exists_enumerates
  refine ⟨xs, htuples, hxs, ?_⟩
  have hlength := length_tuples_wheelsAt hs s.bitCount
  rwa [htuples, List.length_map, prefixCount_bitCount hs] at hlength

end Section

/-- **The walk over the addresses of a range hands out all of them.** -/
theorem AddressRange.handsOut_addresses {r : AddressRange} (hr : r.WellFormed) :
    r.addresses.HandsOut ((List.range' r.lower (r.upper + 1 - r.lower)).map fun x =>
      Address.ofHost ⟨r.version, x⟩) := by
  obtain ⟨xs, htuples, hxs⟩ := (listsNetworks hr (Nat.le_refl _)).exists_enumerates
  have hwalk : r.addresses.HandsOut _ := Walk.handsOut_fresh _ .interval _
  rw [htuples, List.map_map, hxs.eq_range'] at hwalk
  exact hwalk

namespace Section

variable {s : Section} {p x : Nat}

/-- **Walks over the values of segments and over addresses.** A walk may fix as many of the first
segments as a section has, or fewer: it hands out one section for each combination of their values,
in lexicographic order, with these values in front of the ranges of the other segments and the
prefix length of the section. These are in ascending order and take the section apart. The walk over
all addresses hands out every address of the section by itself, in ascending order, and as many as
are counted. The walk over the addresses of a range hands out every number from its lower to its
upper end. -/
theorem fixing_addresses_exact (s : Section) (hs : s.WellFormed) (count : Nat) (r : AddressRange)
    (hr : r.WellFormed) :
    (∃ ts : List Tuple, (s.fixing count).HandsOut (ts.map s.fixed) ∧ ts.Pairwise (· < ·) ∧
      (∀ t, t ∈ ts ↔ Picks (s.bounds.take (min count s.segmentCount)) t) ∧
      (∀ t ∈ ts, (s.fixed t).WellFormed) ∧
      Ascending (ts.map s.fixed) ∧ union (ts.map s.fixed) = s.values) ∧
    (∃ xs : List Nat, s.addresses.HandsOut (xs.map s.member) ∧ Enumerates xs s.values ∧
      (∀ x ∈ xs, (s.member x).values = {x}) ∧ xs.length = s.count) ∧
    r.addresses.HandsOut ((List.range' r.lower (r.upper + 1 - r.lower)).map fun x =>
      Address.ofHost ⟨r.version, x⟩) := by
  refine ⟨?_, ?_, AddressRange.handsOut_addresses hr⟩
  · obtain ⟨ts, hwalk, hpairwise, hts, -⟩ := exists_handsOut_fixing hs count
    have htake : s.bounds.take (min count s.segmentCount) = s.bounds.take count := by
      rw [List.take_eq_take_iff, segmentCount, Nat.min_assoc, Nat.min_self]
    rw [htake]
    exact ⟨ts, hwalk, hpairwise, hts, fun t ht => wellFormed_fixed hs ((hts t).1 ht),
      ascending_fixed hs hpairwise hts, union_fixed hts⟩
  · obtain ⟨xs, htuples, hxs, hlength⟩ := exists_tuples_addresses hs
    refine ⟨xs, ?_, hxs, fun x hx => values_member ((hxs.mem_iff x).1 hx), hlength⟩
    have hwalk : s.addresses.HandsOut _ := Walk.handsOut_fresh _ .product _
    rw [htuples, List.map_map] at hwalk
    exact hwalk

/-- Two of the segments of 10.1-2.0.254-255 have two values each, so there are two sections with the
first three of them fixed and four addresses. The range from 10.0.0.250 to 10.0.2.5 carries
twice. -/
theorem fixing_addresses_exact_carry :
    let s : Section := ⟨.v4, [⟨10, 10⟩, ⟨1, 2⟩, ⟨0, 0⟩, ⟨254, 255⟩], some 24⟩
    let r : AddressRange := ⟨.v4, 167772410, 167772677⟩
    s.WellFormed ∧ r.WellFormed ∧
      (∃ ts : List Tuple, (s.fixing 3).HandsOut (ts.map s.fixed) ∧ [10, 2, 0] ∈ ts ∧
        [10, 3, 0] ∉ ts ∧ union (ts.map s.fixed) = s.values) ∧
      (∃ xs : List Nat, s.addresses.HandsOut (xs.map s.member) ∧ Enumerates xs s.values ∧
        xs.length = 4) ∧
      r.addresses.HandsOut ((List.range' 167772410 268).map fun x => Address.ofHost ⟨.v4, x⟩) := by
  intro s r
  have hs : s.WellFormed := ⟨rfl, by decide, by decide, by decide⟩
  have hr : r.WellFormed := by decide
  have hcount : s.count = 4 := by decide
  have hspan : r.upper + 1 - r.lower = 268 := by decide
  obtain ⟨⟨ts, hfixing, -, hts, -, -, hunion⟩, ⟨xs, haddresses, hxs, -, hlength⟩, hrange⟩ :=
    fixing_addresses_exact s hs 3 r hr
  rw [hspan] at hrange
  refine ⟨hs, hr, ⟨ts, hfixing, (hts _).2 ?_, fun hmem => ?_, hunion⟩,
    ⟨xs, haddresses, hxs, hlength.trans hcount⟩, hrange⟩
  · refine .cons ?_ (.cons ?_ (.cons ?_ .nil)) <;> exact Bounds.mem_iff.2 (by decide)
  · rcases (hts _).1 hmem with _ | ⟨-, _ | ⟨hd, -⟩⟩
    exact absurd hd.2 (by decide)

end Section

/-! ## Addresses with a host that is not zero -/

/-- Whether every segment of a tuple has host bits of zero. -/
def Version.zeroHost (version : Version) (p : Nat) (t : Tuple) : Bool :=
  (t.mapIdx fun index d => d % 2 ^ version.hostBits p index == 0).all id

/-- **The segments of an address have host bits of zero if the address has.** -/
theorem Version.zeroHost_split_iff {version : Version} {p x : Nat} (hx : x ≤ version.maxValue) :
    version.zeroHost p (version.split x) = true ↔ x &&& version.hostMask p = 0 := by
  have hall := Section.allHave_iff_segments (Section.wellFormed_ofDigits_split version x) .zeros p
  rw [Section.values_ofDigits_split hx] at hall
  simp only [Set.mem_singleton_iff, forall_eq] at hall
  have hhosts : (Section.ofDigits version (version.split x) none).hosts p
      = (version.split x).mapIdx fun index d => (Bounds.single d, version.hostBits p index) := by
    refine List.ext_getElem (by simp [Section.hosts, Section.ofDigits]) fun index _ _ => ?_
    simp [Section.hosts, Section.ofDigits]
  rw [hhosts] at hall
  refine Iff.trans ?_ hall.symm
  rw [zeroHost, List.all_eq_true]
  constructor
  · intro hzero b h hmem d hd
    obtain ⟨index, hindex, heq⟩ := List.mem_mapIdx.1 hmem
    cases heq
    rw [Nat.le_antisymm hd.2 hd.1]
    exact beq_iff_eq.1 (hzero _ (List.mem_mapIdx.2 ⟨index, hindex, rfl⟩))
  · intro hzero test htest
    obtain ⟨index, hindex, rfl⟩ := List.mem_mapIdx.1 htest
    apply beq_iff_eq.2
    apply hzero _ _ (List.mem_mapIdx.2 ⟨index, hindex, rfl⟩)
    exact ⟨Nat.le_refl _, Nat.le_refl _⟩

namespace Section

variable {s : Section} {p : Nat}

/-- The segments of an address are kept if one of its host bits is set. -/
theorem filter_zeroHost_split {version : Version} {p : Nat} {xs : List Nat}
    (hxs : ∀ x ∈ xs, x ≤ version.maxValue) :
    (xs.map version.split).filter (fun t => !version.zeroHost p t)
      = (xs.filter fun x => x &&& version.hostMask p != 0).map version.split := by
  rw [List.filter_map]
  refine congrArg _ (List.filter_congr fun x hx => ?_)
  have hiff := Version.zeroHost_split_iff (p := p) (hxs x hx)
  rw [Bool.eq_iff_iff, bne_iff_ne, Ne, ← hiff, Function.comp_apply, Bool.not_eq_true',
    Bool.not_eq_true]

/-- With host bits, the walk over the addresses whose host is not zero rejects tuples. -/
theorem nonZeroHosts_eq (hp : s.prefixLen = some p) (hlt : p < s.bitCount) :
    s.nonZeroHosts
      = ⟨{ wheels := wheelsAt s.version s.bitCount s.bounds, counting := .product,
           rejects := s.version.zeroHost p }, s.addresses.emit⟩ := by
  rw [nonZeroHosts, hp]
  exact if_neg (Nat.not_le.2 hlt)

/-- **The walk over the addresses whose host is not zero.** If the section has a prefix length that
leaves host bits, it hands out the addresses of the section that have one of these bits set, each
once and in ascending order, with the prefix length of the section; together with those that have
none set there are as many as the section counts. Without host bits it is the walk over all
addresses. -/
theorem nonZeroHosts_exact (s : Section) (hs : s.WellFormed) :
    (∀ p, s.prefixLen = some p → p < s.bitCount → ∃ xs : List Nat,
      s.nonZeroHosts.HandsOut (xs.map s.member) ∧
      Enumerates xs {x ∈ s.values | x &&& s.version.hostMask p ≠ 0} ∧
      xs.length + {x ∈ s.values | x &&& s.version.hostMask p = 0}.ncard = s.count) ∧
    (s.prefixLen = none ∨ s.prefixLen = some s.bitCount → s.nonZeroHosts = s.addresses) := by
  constructor
  · intro p hp hlt
    obtain ⟨xs, htuples, hxs, hlength⟩ := exists_tuples_addresses hs
    have hmax : ∀ x ∈ xs, x ≤ s.version.maxValue :=
      fun x hx => le_maxValue_of_mem_values ((hxs.mem_iff x).1 hx)
    have hwalk := Walk.handsOut_rejecting (wheelsAt s.version s.bitCount s.bounds) .product
      (s.version.zeroHost p) s.addresses.emit
    rw [← nonZeroHosts_eq hp hlt, htuples, filter_zeroHost_split hmax, List.map_map] at hwalk
    have hfilter := hxs.filter fun x => x &&& s.version.hostMask p != 0
    have hcount := hxs.length_filter_add_ncard fun x => x &&& s.version.hostMask p != 0
    simp only [bne_iff_ne] at hfilter
    simp only [bne_eq_false_iff_eq, hlength] at hcount
    exact ⟨_, hwalk, hfilter, hcount⟩
  · rintro (hnone | hfull)
    · rw [nonZeroHosts, hnone]
    · rw [nonZeroHosts, hfull]
      exact if_pos (Nat.le_refl _)

/-- The boundary behind 28 bits lies in the last segment of 10.0.0-1.0-40, whose addresses with a
host of zeros are left out, the first of all among them; behind 32 bits there is no host. -/
theorem nonZeroHosts_exact_inner :
    let bounds : List Bounds := [⟨10, 10⟩, ⟨0, 0⟩, ⟨0, 1⟩, ⟨0, 40⟩]
    let s : Section := ⟨.v4, bounds, some 28⟩
    let t : Section := ⟨.v4, bounds, some 32⟩
    s.WellFormed ∧ t.WellFormed ∧
      (∃ xs : List Nat, s.nonZeroHosts.HandsOut (xs.map s.member) ∧ 167772160 ∉ xs ∧
        xs.length + {x ∈ s.values | x &&& Version.v4.hostMask 28 = 0}.ncard = 82) ∧
      t.nonZeroHosts = t.addresses := by
  intro bounds s t
  have hs : s.WellFormed := ⟨rfl, by decide, by decide, by decide⟩
  have ht : t.WellFormed := ⟨rfl, by decide, by decide, by decide⟩
  have hcount : s.count = 82 := by decide
  obtain ⟨xs, hwalk, hxs, hlength⟩ := (nonZeroHosts_exact s hs).1 28 rfl (by decide)
  refine ⟨hs, ht, ⟨xs, hwalk, fun hmem => ?_, hlength.trans hcount⟩,
    (nonZeroHosts_exact t ht).2 (Or.inr rfl)⟩
  exact absurd ((hxs.mem_iff _).1 hmem).2 (by decide)

end Section

end IpSpace
