import IpSpace.Proofs.BlockLengths
import IpSpace.Proofs.PrefixWalks

/-!
# Widening as a closure

The addresses that share their first bits with an address of a set are the hull of the set
(`Version.networkHull`). A set is closed at a length if it is its own hull: with an address it has
all that share as many first bits. The hull is the least closed set around a set
(`Version.isLeast_networkHull`).

For a section, being closed at a length is being made of whole networks of that length
(`Section.isBlockAt_iff_closedAt`), and widening it yields the hull (`Section.values_blockAt`). So
what is known of hulls carries over: widening yields the least section made of whole networks,
widening again changes nothing, and the section is returned unchanged exactly if it is made of whole
networks already and carries their length (`Section.blockAt_eq_self_iff`). The prefix blocks that
meet a set make up its hull too (`Section.IsBlockList.union_eq`), which ties widening to the walk
over blocks.
-/

namespace IpSpace

/-! ## Hulls -/

namespace Version

variable {version : Version} {p : Nat} {whole : Set Nat}

/-- The addresses that share their first `p` bits with an address of a set. -/
def networkHull (version : Version) (p : Nat) (whole : Set Nat) : Set Nat :=
  {y | y ≤ version.maxValue ∧
    ∃ x ∈ whole, y / 2 ^ (version.bitCount - p) = x / 2 ^ (version.bitCount - p)}

/-- With an address, the set has all addresses that share its first `p` bits. -/
def ClosedAt (version : Version) (p : Nat) (whole : Set Nat) : Prop :=
  ∀ x ∈ whole, ∀ y ≤ version.maxValue,
    y / 2 ^ (version.bitCount - p) = x / 2 ^ (version.bitCount - p) → y ∈ whole

theorem subset_networkHull (h : whole ⊆ Set.Iic version.maxValue) :
    whole ⊆ version.networkHull p whole :=
  fun x hx => ⟨h hx, x, hx, rfl⟩

theorem closedAt_networkHull : version.ClosedAt p (version.networkHull p whole) := by
  rintro x ⟨-, z, hz, hxz⟩ y hy hyx
  exact ⟨hy, z, hz, hyx.trans hxz⟩

/-- **The hull of a set of addresses is the least closed set around it.** -/
theorem isLeast_networkHull (h : whole ⊆ Set.Iic version.maxValue) :
    IsLeast {closed | whole ⊆ closed ∧ version.ClosedAt p closed}
      (version.networkHull p whole) := by
  refine ⟨⟨subset_networkHull h, closedAt_networkHull⟩, ?_⟩
  rintro closed ⟨hsub, hclosed⟩ y ⟨hy, x, hx, hshare⟩
  exact hclosed x (hsub hx) y hy hshare

end Version

/-! ## Sections -/

namespace Section

variable {s : Section} {p : Nat}

/-- **Widening a section yields the hull of its addresses.** -/
theorem values_blockAt (hs : s.WellFormed) :
    (s.blockAt p).values = s.version.networkHull p s.values :=
  Set.ext fun _ => mem_values_blockAt hs

/-- A section is made of whole networks if its addresses are closed. -/
theorem isBlockAt_iff_closedAt (hs : s.WellFormed) (hp : p ≤ s.bitCount) :
    s.isBlockAt p = true ↔ s.version.ClosedAt p s.values := by
  rw [isBlockAt_iff_network_subset hs hp]
  constructor
  · intro hnetworks x hx y _ hshare
    exact hnetworks x hx hshare
  · intro hclosed x hx y hshare
    have hmax := alignedBlock_subset_Iic (Nat.sub_le _ _) (le_maxValue_of_mem_values hx) hshare
    exact hclosed x hx y hmax hshare

theorem isBlockAt_blockAt (hs : s.WellFormed) (hp : p ≤ s.bitCount) :
    (s.blockAt p).isBlockAt p = true := by
  rw [isBlockAt_iff_closedAt (wellFormed_blockAt hs hp) hp, values_blockAt hs]
  exact Version.closedAt_networkHull

/-- A section is returned unchanged if it is made of whole networks and carries their length. -/
theorem blockAt_eq_self_iff : s.blockAt p = s ↔ s.prefixLen = some p ∧ s.isBlockAt p = true := by
  rw [isBlockAt_iff_blockAt]
  constructor
  · intro hself
    exact ⟨(congrArg Section.prefixLen hself).symm, congrArg Section.bounds hself⟩
  · rintro ⟨hprefixLen, hbounds⟩
    calc s.blockAt p = ⟨s.version, (s.blockAt p).bounds, some p⟩ := rfl
      _ = s := by rw [hbounds, ← hprefixLen]

/-- **The prefix blocks that meet a set make up its hull.** -/
theorem IsBlockList.union_eq {version : Version} {whole : Set Nat} {blocks : List Section}
    (h : IsBlockList version p whole blocks) (hp : p ≤ version.bitCount)
    (hwhole : whole ⊆ Set.Iic version.maxValue) : union blocks = version.networkHull p whole := by
  -- Two addresses of a listed block share their first bits, and so do all that share them with one.
  have hblocks : ∀ b ∈ blocks, ∀ x ∈ b.values, ∀ y, y ∈ b.values ↔ y ≤ version.maxValue ∧
      y / 2 ^ (version.bitCount - p) = x / 2 ^ (version.bitCount - p) := by
    intro b hb x hx y
    obtain ⟨⟨rfl, -, hblock⟩, -⟩ := (h.mem_iff b).1 hb
    rw [hblock.mem_values_iff] at hx ⊢
    rw [← hx.2]
    rfl
  ext y
  constructor
  · rintro ⟨b, hb, hy⟩
    obtain ⟨-, x, hxb, hx⟩ := (h.mem_iff b).1 hb
    obtain ⟨hmax, hshare⟩ := (hblocks b hb x hxb y).1 hy
    exact ⟨hmax, x, hx, hshare⟩
  · rintro ⟨hmax, x, hx, hshare⟩
    obtain ⟨b, hb, hxb⟩ := h.exists_mem hp hwhole hx
    exact ⟨b, hb, (hblocks b hb x hxb y).2 ⟨hmax, hshare⟩⟩

/-- The section `b` is made of whole networks of length `p`, carries this length, and holds the
addresses that share their first `p` bits with an address of `s`. No smaller set around `s` is
closed under changing the other bits. -/
structure IsWidened (s : Section) (p : Nat) (b : Section) : Prop where
  wellFormed : b.WellFormed
  version_eq : b.version = s.version
  prefixLen_eq : b.prefixLen = some p
  isBlockAt : b.isBlockAt p = true
  mem_values_iff : ∀ y, y ∈ b.values ↔ y ≤ s.version.maxValue ∧
    ∃ x ∈ s.values, y / 2 ^ (s.bitCount - p) = x / 2 ^ (s.bitCount - p)
  isLeast : IsLeast {closed | s.values ⊆ closed ∧ s.version.ClosedAt p closed} b.values

theorem isWidened_blockAt (hs : s.WellFormed) (hp : p ≤ s.bitCount) :
    s.IsWidened p (s.blockAt p) where
  wellFormed := wellFormed_blockAt hs hp
  version_eq := rfl
  prefixLen_eq := rfl
  isBlockAt := isBlockAt_blockAt hs hp
  mem_values_iff _ := mem_values_blockAt hs
  isLeast := by
    rw [values_blockAt hs]
    exact Version.isLeast_networkHull fun _ hx => le_maxValue_of_mem_values hx

/-- **Widening to whole networks.** For a length within the address it succeeds with the least
section around the given one that is made of whole networks. This is the given section exactly if it
was made of them and carried the length, so widening it again returns it; and it holds what the
prefix blocks hold that a walk over the section hands out. A longer length is refused as invalid. -/
theorem toBlockAt_exact (s : Section) (hs : s.WellFormed) (p : Nat) :
    (p ≤ s.bitCount → ∃ (b : Section) (blocks : List Section), s.toBlockAt p = .ok b ∧
      s.IsWidened p b ∧ (b = s ↔ s.prefixLen = some p ∧ s.isBlockAt p = true) ∧
      b.toBlockAt p = .ok b ∧
      (s.prefixBlocks p).HandsOut blocks ∧ union blocks = b.values) ∧
    (s.bitCount < p → ∃ cause, s.toBlockAt p = .error cause ∧ cause.kind = .invalid ∧
      cause = .prefixTooLong s.version p) := by
  constructor
  · intro hp
    have hwidened := isWidened_blockAt hs hp
    obtain ⟨blocks, hblocks, hlist, -⟩ := exists_handsOut_prefixBlocks hs p
    rw [Nat.min_eq_left hp] at hlist
    have hagain : (s.blockAt p).blockAt p = s.blockAt p :=
      blockAt_eq_self_iff.2 ⟨hwidened.prefixLen_eq, hwidened.isBlockAt⟩
    refine ⟨s.blockAt p, blocks, toBlockAt_eq_ok_iff.2 ⟨hp, rfl⟩, hwidened, blockAt_eq_self_iff,
      toBlockAt_eq_ok_iff.2 ⟨hp, hagain⟩, hblocks, ?_⟩
    rw [values_blockAt hs]
    exact hlist.union_eq hp fun _ hx => le_maxValue_of_mem_values hx
  · intro hp
    exact ⟨_, toBlockAt_eq_error_iff.2 ⟨hp, rfl⟩, rfl, rfl⟩

/-- The addresses 10.1.24-40.5-9 widened to networks of twenty bits are 10.1.16-47.0-255: every
closed set around them has 10.1.47.255. -/
theorem toBlockAt_exact_partial :
    let s : Section := ⟨.v4, [⟨10, 10⟩, ⟨1, 1⟩, ⟨24, 40⟩, ⟨5, 9⟩], some 24⟩
    let b : Section := ⟨.v4, [⟨10, 10⟩, ⟨1, 1⟩, ⟨16, 47⟩, ⟨0, 255⟩], some 20⟩
    s.WellFormed ∧ 20 ≤ s.bitCount ∧ s.IsWidened 20 b ∧ b.toBlockAt 20 = .ok b ∧
      ∀ closed, s.values ⊆ closed → Version.v4.ClosedAt 20 closed → 0x0A012FFF ∈ closed := by
  intro s b
  have hs : s.WellFormed := ⟨by decide, by decide, by decide, by decide⟩
  have hp : 20 ≤ s.bitCount := by decide
  obtain ⟨c, blocks, hc, hwidened, -, hagain, -, -⟩ := (toBlockAt_exact s hs 20).1 hp
  obtain rfl : b = c := Except.ok.inj ((show s.toBlockAt 20 = .ok b by decide).symm.trans hc)
  have hhighest : 0x0A012FFF ∈ b.values :=
    (show b.upperValue = 0x0A012FFF by decide) ▸ upperValue_mem hwidened.wellFormed
  exact ⟨hs, hp, hwidened, hagain, fun closed hsub hclosed =>
    hwidened.isLeast.2 ⟨hsub, hclosed⟩ hhighest⟩

end Section

end IpSpace
