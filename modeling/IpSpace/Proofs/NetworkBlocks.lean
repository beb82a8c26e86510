import IpSpace.Proofs.NetworkTuples
import IpSpace.Proofs.PrefixBlocks

/-!
# Blocks by the networks of their addresses

For a prefix length `p`, an address has a tuple of networks (`Version.networks`), one for every
segment that is not all host. The block of a tuple holds exactly the addresses that have this tuple
(`Section.mem_values_blockOf`) and is a prefix block (`Section.isPrefixBlock_blockOf`). So two
addresses have the same tuple exactly if they share their first `p` bits
(`Version.networks_eq_iff`), and since tuples are in the order of the addresses
(`Version.networks_le`), the prefix blocks that meet a set of addresses come in ascending order when
the tuples of the set do.

That is what a walk over networks relies on: from a list of the tuples of a set (`ListsNetworks`),
the blocks that meet the set follow, each once and in order (`ListsNetworks.isBlockList`), and so
does their number (`ListsNetworks.length_eq_ncard`).
-/

namespace IpSpace

open Digits (Fit)

/-! ## Addresses of a block -/

/-- The values of a network are those whose last bits can be cut off to get it. -/
theorem Bounds.mem_ofNetwork {n h d : Nat} : d ∈ ofNetwork n h ↔ d / 2 ^ h = n := by
  have hpos := Nat.two_pow_pos h
  rw [mem_iff, Nat.div_eq_iff hpos]
  simp only [ofNetwork]
  omega

/-- Every word is picked from the bounds of all values. -/
theorem picks_full {width : Nat} {ds : List Nat} (hfit : Fit width ds) :
    Picks (List.replicate ds.length (Bounds.full width)) ds := by
  induction ds with
  | nil => exact .nil
  | cons d ds ih =>
      rw [Digits.fit_cons] at hfit
      exact .cons (Bounds.mem_full.2 hfit.1) (ih hfit.2)

/-- The digits of a word are picked from the block of a tuple if their networks are the tuple. -/
theorem picks_tupleBox_iff {width p : Nat} {t : Tuple} {ds : List Nat} (hfit : Fit width ds)
    (hlen : t.length ≤ ds.length) :
    Picks (tupleBox width p ds.length t) ds ↔ (networkDigits width p ds).take t.length = t := by
  induction t generalizing p ds with
  | nil =>
      rw [tupleBox_nil, List.length_nil, List.take_zero]
      exact iff_of_true (picks_full hfit) rfl
  | cons n t ih =>
      cases ds with
      | nil => cases hlen
      | cons d ds =>
          rw [Digits.fit_cons] at hfit
          rw [List.length_cons, List.length_cons, tupleBox_cons, picks_cons, networkDigits_cons,
            List.take_succ_cons, List.cons.injEq, Bounds.mem_ofNetwork,
            ih hfit.2 (Nat.le_of_succ_le_succ hlen)]

namespace Section

variable {version : Version} {p x : Nat} {t : Tuple}

/-- **The block of a tuple holds the addresses whose networks are the tuple.** -/
theorem mem_values_blockOf (ht : IsNetworkTuple version p t) :
    x ∈ (blockOf version p t).values ↔ x ≤ version.maxValue ∧ version.networks p x = t := by
  have hlen : t.length ≤ (version.split x).length := by
    rw [Version.length_split]
    exact ht.length_le
  have hpicks := picks_tupleBox_iff (p := p) (version.fit_split x) hlen
  rw [Version.length_split, ht.length_eq] at hpicks
  exact and_congr_right fun _ => hpicks

/-- All values of a segment are one network of it. -/
theorem full_eq_ofNetwork (width : Nat) : Bounds.full width = Bounds.ofNetwork 0 width := by
  simp only [Bounds.full, Bounds.ofNetwork, Nat.zero_mul, Nat.zero_add]

/-- **The block of a tuple is a prefix block.** -/
theorem isPrefixBlock_blockOf (ht : IsNetworkTuple version p t) (hp : p ≤ version.bitCount) :
    (blockOf version p t).IsPrefixBlock p := by
  have hwf := wellFormed_blockOf ht hp
  rw [← isSingleBlockAt_iff hwf hp, isSingleBlockAt, Bool.and_eq_true, isSingleNetworkAt, isBlockAt,
    allHosts_iff, allHosts_iff, ← forall₂_and]
  intro index hindex
  -- Every segment is one network: a value of the tuple, or behind the wheels all values.
  obtain ⟨n, hn⟩ : ∃ n, (blockOf version p t).bounds[index]
      = Bounds.ofNetwork n (version.hostBits p index) := by
    simp only [blockOf_bounds, tupleBox, List.getElem_append, length_networkBox]
    split
    · exact ⟨_, List.getElem_mapIdx⟩
    · rename_i hwheel
      rw [hwf.length_bounds] at hindex
      rw [Nat.not_lt, ht.length_eq] at hwheel
      rw [List.getElem_replicate, full_eq_ofNetwork,
        Version.hostBits_of_wheelCount_le hwheel hindex]
      exact ⟨0, rfl⟩
  rw [hn]
  exact Bounds.block_single_iff.1 (Bounds.ofNetwork_eq_block n _).symm

end Section

/-- **Addresses have the same networks if they share their first `p` bits.** -/
theorem Version.networks_eq_iff {version : Version} {p x y : Nat} (hp : p ≤ version.bitCount)
    (hx : x ≤ version.maxValue) (hy : y ≤ version.maxValue) :
    version.networks p x = version.networks p y ↔
      x / 2 ^ (version.bitCount - p) = y / 2 ^ (version.bitCount - p) := by
  have ht := version.isNetworkTuple_networks p y
  have hblock := Section.isPrefixBlock_blockOf ht hp
  have hmem : ∀ {z : Nat}, z ≤ version.maxValue → (version.networks p z = version.networks p y ↔
      z / 2 ^ (version.bitCount - p)
        = (blockOf version p (version.networks p y)).lowerValue / 2 ^ (version.bitCount - p)) := by
    intro z hz
    have hnetworks := (Section.mem_values_blockOf (x := z) ht).trans (and_iff_right hz)
    exact hnetworks.symm.trans ((hblock.mem_values_iff z).trans (and_iff_right hz))
  rw [hmem hx, (hmem hy).1 rfl]

/-! ## Lists of blocks -/

/-- The prefix blocks of length `p` that hold an address of a set, in ascending order. As blocks are
not empty, none is listed twice. -/
structure Section.IsBlockList (version : Version) (p : Nat) (whole : Set Nat)
    (blocks : List Section) : Prop where
  ascending : Ascending blocks
  mem_iff : ∀ b, b ∈ blocks ↔ (b.version = version ∧ b.prefixLen = some p ∧ b.IsPrefixBlock p) ∧
    (b.values ∩ whole).Nonempty

namespace Section.IsBlockList

variable {version : Version} {p : Nat} {whole : Set Nat} {blocks : List Section}

/-- Every address of the set lies in a listed block, which is the block of its networks. -/
theorem exists_mem (h : IsBlockList version p whole blocks) (hp : p ≤ version.bitCount)
    (hwhole : whole ⊆ Set.Iic version.maxValue) {x : Nat} (hx : x ∈ whole) :
    ∃ b ∈ blocks, x ∈ b.values := by
  have ht := version.isNetworkTuple_networks p x
  have hmem := (mem_values_blockOf ht).2 ⟨hwhole hx, rfl⟩
  exact ⟨_, (h.mem_iff _).2 ⟨⟨rfl, rfl, isPrefixBlock_blockOf ht hp⟩, x, hmem, hx⟩, hmem⟩

/-- Items that have those addresses of the blocks that are in the set have them in ascending order,
and all of the set between them. -/
theorem parts {β : Type} {values : β → Set Nat} {part : Section → β}
    (h : IsBlockList version p whole blocks) (hp : p ≤ version.bitCount)
    (hwhole : whole ⊆ Set.Iic version.maxValue)
    (hvalues : ∀ b ∈ blocks, values (part b) = b.values ∩ whole) :
    ((blocks.map part).Pairwise fun a b => ∀ x ∈ values a, ∀ y ∈ values b, x < y) ∧
      ∀ x, (∃ a ∈ blocks.map part, x ∈ values a) ↔ x ∈ whole := by
  constructor
  · refine List.pairwise_map.2 (h.ascending.imp_of_mem fun {a b} ha hb hab x hx y hy => ?_)
    rw [hvalues a ha] at hx
    rw [hvalues b hb] at hy
    exact hab x hx.1 y hy.1
  · intro x
    simp only [List.mem_map, exists_exists_and_eq_and]
    constructor
    · rintro ⟨b, hb, hx⟩
      rw [hvalues b hb] at hx
      exact hx.2
    · intro hx
      obtain ⟨b, hb, hxb⟩ := h.exists_mem hp hwhole hx
      refine ⟨b, hb, ?_⟩
      rw [hvalues b hb]
      exact ⟨hxb, hx⟩

end Section.IsBlockList

/-- A list in strictly ascending order has as many members as it is long. -/
theorem ncard_mem_of_pairwise_lt {α : Type} [Preorder α] [DecidableEq α] {xs : List α}
    (h : xs.Pairwise (· < ·)) : {x | x ∈ xs}.ncard = xs.length := by
  have hnodup : xs.Nodup := h.imp fun {_ _} hlt => ne_of_lt hlt
  rw [← List.coe_toFinset, Set.ncard_coe_finset, List.toFinset_card_of_nodup hnodup]

/-- The tuples of networks that the addresses of a set have, each once and in ascending order. -/
structure ListsNetworks (version : Version) (p : Nat) (whole : Set Nat) (ts : List Tuple) :
    Prop where
  subset : whole ⊆ Set.Iic version.maxValue
  pairwise : ts.Pairwise (· < ·)
  mem_iff : ∀ t, t ∈ ts ↔ ∃ x ∈ whole, version.networks p x = t

namespace ListsNetworks

variable {version : Version} {p : Nat} {whole : Set Nat} {ts : List Tuple}

theorem isNetworkTuple (h : ListsNetworks version p whole ts) {t : Tuple} (ht : t ∈ ts) :
    IsNetworkTuple version p t := by
  obtain ⟨x, -, rfl⟩ := (h.mem_iff t).1 ht
  exact version.isNetworkTuple_networks p x

/-- Every address of the set lies in the block of a listed tuple. -/
theorem mem_values_iff (h : ListsNetworks version p whole ts) {x : Nat} (hx : x ∈ whole) {t : Tuple}
    (ht : t ∈ ts) : x ∈ (blockOf version p t).values ↔ version.networks p x = t := by
  rw [Section.mem_values_blockOf (h.isNetworkTuple ht)]
  exact and_iff_right (h.subset hx)

/-- The blocks of the tuples are in ascending order: addresses in the wrong order would have
networks in the wrong order. -/
theorem ascending (h : ListsNetworks version p whole ts) :
    Section.Ascending (ts.map (blockOf version p)) := by
  refine List.pairwise_map.2 (h.pairwise.imp_of_mem fun {t u} ht hu htu x hx y hy => ?_)
  obtain ⟨hxmax, rfl⟩ := (Section.mem_values_blockOf (h.isNetworkTuple ht)).1 hx
  obtain ⟨-, rfl⟩ := (Section.mem_values_blockOf (h.isNetworkTuple hu)).1 hy
  by_contra hle
  exact not_le_of_gt htu (Version.networks_le hxmax (Nat.not_lt.1 hle))

/-- **The blocks of the tuples of a set are the prefix blocks that meet it.** -/
theorem isBlockList (h : ListsNetworks version p whole ts) (hp : p ≤ version.bitCount) :
    Section.IsBlockList version p whole (ts.map (blockOf version p)) where
  ascending := h.ascending
  mem_iff b := by
    rw [List.mem_map]
    constructor
    · rintro ⟨t, ht, rfl⟩
      obtain ⟨x, hx, hnetworks⟩ := (h.mem_iff t).1 ht
      exact ⟨⟨rfl, rfl, Section.isPrefixBlock_blockOf (h.isNetworkTuple ht) hp⟩, x,
        (h.mem_values_iff hx ht).2 hnetworks, hx⟩
    · rintro ⟨⟨rfl, hprefixLen, hblock⟩, x, hxb, hx⟩
      have ht : b.version.networks p x ∈ ts := (h.mem_iff _).2 ⟨x, hx, rfl⟩
      refine ⟨_, ht, ?_⟩
      have hother := Section.isPrefixBlock_blockOf (h.isNetworkTuple ht) hp
      have hxother := (h.mem_values_iff hx ht).2 rfl
      -- Both are the block of the address that they share.
      have hvalues : (blockOf b.version p (b.version.networks p x)).values = b.values := by
        ext y
        rw [hother.mem_values_iff, ← ((hother.mem_values_iff x).1 hxother).2, hblock.mem_values_iff,
          ← ((hblock.mem_values_iff x).1 hxb).2]
        exact Iff.rfl
      have hbounds := Section.bounds_eq_of_values_eq hother.wellFormed hblock.wellFormed rfl hvalues
      calc blockOf b.version p (b.version.networks p x)
          = ⟨b.version, (blockOf b.version p (b.version.networks p x)).bounds, some p⟩ := rfl
        _ = b := by rw [hbounds, ← hprefixLen]

/-- **There are as many tuples as first `p` bits of addresses of the set.** -/
theorem length_eq_ncard (h : ListsNetworks version p whole ts) (hp : p ≤ version.bitCount) :
    ts.length = ((· / 2 ^ (version.bitCount - p)) '' whole).ncard := by
  have hdiv := fun q => Nat.mul_div_cancel q (Nat.two_pow_pos (version.bitCount - p))
  have hmax : ∀ x ∈ whole, x / 2 ^ (version.bitCount - p) * 2 ^ (version.bitCount - p)
      ≤ version.maxValue := fun x hx => Nat.le_trans (Nat.div_mul_le_self _ _) (h.subset hx)
  -- The networks can be read off the first bits, by filling up with zeros.
  have himage : {t | t ∈ ts} = (fun q => version.networks p (q * 2 ^ (version.bitCount - p))) ''
      ((· / 2 ^ (version.bitCount - p)) '' whole) := by
    rw [Set.image_image]
    ext t
    refine (h.mem_iff t).trans (exists_congr fun x => and_congr_right fun hx => ?_)
    show _ ↔ version.networks p (x / 2 ^ (version.bitCount - p) * 2 ^ (version.bitCount - p)) = t
    rw [(Version.networks_eq_iff hp (hmax x hx) (h.subset hx)).2 (hdiv _)]
  have hinjective : Set.InjOn (fun q => version.networks p (q * 2 ^ (version.bitCount - p)))
      ((· / 2 ^ (version.bitCount - p)) '' whole) := by
    rintro _ ⟨x, hx, rfl⟩ _ ⟨y, hy, rfl⟩ heq
    rw [Version.networks_eq_iff hp (hmax x hx) (hmax y hy), hdiv, hdiv] at heq
    exact heq
  rw [← hinjective.ncard_image, ← himage, ncard_mem_of_pairwise_lt h.pairwise]

end ListsNetworks

end IpSpace
