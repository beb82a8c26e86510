import IpSpace.Proofs.Networks
import IpSpace.Proofs.Machine.Segments

/-!
# Sections on the machine

A section is put together segment by segment, and the machine asserts that every segment is in order
and that there are as many of them as the version has. The section that is put together is always
known to be well formed, so the assertions hold (`fromBounds?_eq`).

Questions about a prefix length are asked of every segment with the part of the prefix length that
falls into it. Segments in front of the boundary are treated by themselves; the library treats them
as segments without host bits, and it comes to the same (`atPrefix?_eq`).

Sums and products of what segments hold stay below the largest word, as every segment has at most 16
bits (`networksCount?_eq`).
-/

namespace IpSpace

namespace Machine

variable {version : Version} {s other : Section} {b : Bounds} {bits h p index value : Nat}

/-! ## Segments with their places -/

/-- A step for a segment with the part of the prefix length `p` that falls into it, or for a segment
in front of the boundary. -/
def atPrefix? {α : Type} (version : Version) (p : Nat) (whole : Bounds → Option α)
    (part : Nat → Bounds → Nat → Option α) (place : Bounds × Nat) : Option α := do
  match ← segmentPrefixLen? version.segmentBits (some p) place.2 with
  | none => whole place.1
  | some own => part version.segmentBits place.1 own

/-- **A segment is read with the host bits behind the boundary**: whole in front of it, by its part
of the prefix length in the segment that holds it, and by all its bits behind it. -/
theorem atPrefix?_eq {α : Type} {whole : Bounds → Option α} {part : Nat → Bounds → Nat → Option α}
    {g : Bounds → Nat → α} (hindex : index < 2 ^ 16) (hwhole : whole b = some (g b 0))
    (hpart : ∀ h ≤ version.segmentBits,
      part version.segmentBits b (version.segmentBits - h) = some (g b h)) :
    atPrefix? version p whole part (b, index) = some (g b (version.hostBits p index)) := by
  rw [atPrefix?, bind_eq (segmentPrefixLen?_eq hindex p)]
  by_cases hzero : version.hostBits p index = 0
  · rw [if_pos hzero, hzero]
    exact hwhole
  · rw [if_neg hzero]
    exact hpart _ (Section.hostBits_le version p index)

/-- A segment has eight bits or sixteen. -/
theorem segmentBits_cases (version : Version) :
    version.segmentBits = 8 ∨ version.segmentBits = 16 := by
  cases version
  · exact Or.inl rfl
  · exact Or.inr rfl

/-- Every segment has a place within an address. -/
theorem of_mem_zipIdx (hs : s.WellFormed) (hmem : (b, index) ∈ s.bounds.zipIdx) :
    b.Within s.version.segmentBits ∧ index < s.version.segmentCount := by
  have hget := List.mem_zipIdx_iff_getElem?.1 hmem
  exact ⟨hs.within b (List.mem_of_getElem? hget),
    hs.length_bounds ▸ (List.getElem?_eq_some_iff.1 hget).1⟩

/-- The host bits of each segment follow from its place. -/
theorem hosts_eq (s : Section) (p : Nat) :
    s.hosts p = s.bounds.zipIdx.map fun place => (place.1, s.version.hostBits p place.2) :=
  List.mapIdx_eq_zipIdx_map

/-- Steps for every segment at its place. -/
theorem atPrefix?_eq_of_mem {α : Type} {whole : Bounds → Option α}
    {part : Nat → Bounds → Nat → Option α} {g : Bounds → Nat → α} (hs : s.WellFormed)
    (hwhole : ∀ b, b.Within s.version.segmentBits → whole b = some (g b 0))
    (hpart : ∀ b, b.Within s.version.segmentBits → ∀ h ≤ s.version.segmentBits,
      part s.version.segmentBits b (s.version.segmentBits - h) = some (g b h)) (p : Nat) :
    ∀ place ∈ s.bounds.zipIdx, atPrefix? s.version p whole part place
      = some (g place.1 (s.version.hostBits p place.2)) := by
  rintro ⟨b, index⟩ hmem
  obtain ⟨hb, hindex⟩ := of_mem_zipIdx hs hmem
  have hcount := segmentCount_le s.version
  exact atPrefix?_eq (by omega) (hwhole b hb) (hpart b hb)

/-! ## Putting a section together -/

/-- The section of the given ranges, which are asserted to be those of a section. -/
def fromBounds? (version : Version) (bounds : List Bounds) (prefixLen : Option Nat) :
    Option Section := do
  let segments ← bounds.zipIdx.mapM fun (b, index) => do
    fromParts? version.segmentBits b (← segmentPrefixLen? version.segmentBits prefixLen index)
  assert? (segments.length = version.segmentCount)
  return ⟨version, segments.map (·.bounds), prefixLen⟩

/-- The section of the addresses between two values, segment by segment. -/
def fromValueBounds? (version : Version) (lower upper : Nat) (prefixLen : Option Nat) :
    Option Section := do
  fromBounds? version (List.zipWith Bounds.mk (← split? version lower) (← split? version upper))
    prefixLen

/-- The same addresses with another prefix length. -/
def withPrefix? (s : Section) (prefixLen : Option Nat) : Option Section :=
  if prefixLen = s.prefixLen then some s else fromBounds? s.version s.bounds prefixLen

/-- **The assertions hold for whatever is a section.** -/
theorem fromBounds?_eq (hs : s.WellFormed) :
    fromBounds? s.version s.bounds s.prefixLen = some s := by
  have hbits := segmentBits_le s.version
  have hsegments : (s.bounds.zipIdx.mapM fun (b, index) => do
      fromParts? s.version.segmentBits b
        (← segmentPrefixLen? s.version.segmentBits s.prefixLen index))
        = some (s.bounds.zipIdx.map fun (b, index) => ⟨s.version.segmentBits, b,
            (segmentPrefixLen? s.version.segmentBits s.prefixLen index).join⟩) := by
    apply mapM_eq_some
    rintro ⟨b, index⟩ hmem
    obtain ⟨hb, hindex⟩ := of_mem_zipIdx hs hmem
    have hcount := segmentCount_le s.version
    -- Whatever part of the prefix length falls into a segment, it is found.
    have hown : ∃ own, segmentPrefixLen? s.version.segmentBits s.prefixLen index = some own := by
      rcases s.prefixLen with - | p
      · exact ⟨none, rfl⟩
      · exact ⟨_, segmentPrefixLen?_eq (by omega) p⟩
    obtain ⟨own, hown⟩ := hown
    show (segmentPrefixLen? s.version.segmentBits s.prefixLen index >>= _)
      = some (Segment.mk _ b (segmentPrefixLen? s.version.segmentBits s.prefixLen index).join)
    rw [hown]
    exact fromParts?_eq (by omega) hb own
  rw [fromBounds?, bind_eq hsegments, bind_eq (assert?_eq (by simp [hs.length_bounds]))]
  refine congrArg some ?_
  rw [List.map_map]
  show Section.mk s.version (s.bounds.zipIdx.map Prod.fst) s.prefixLen = s
  rw [List.zipIdx_map_fst]

/-- Another prefix length within the address leaves a section one of its version. -/
theorem withPrefix?_eq (hs : s.WellFormed) {prefixLen : Option Nat}
    (hp : ∀ p ∈ prefixLen, p ≤ s.bitCount) :
    withPrefix? s prefixLen = some (s.withPrefixLen prefixLen) := by
  rw [withPrefix?]
  by_cases hsame : prefixLen = s.prefixLen
  · rw [if_pos hsame, hsame]
    rfl
  · rw [if_neg hsame]
    exact fromBounds?_eq (Section.wellFormed_withPrefixLen hs hp)

/-! ## Values -/

/-- The product of what steps for every member of a list yield. -/
def product? {α : Type} (l : List α) (f : α → Option Nat) : Option Nat :=
  l.foldlM (fun acc a => do return acc * (← f a)) 1

/-- Numbers whose product is not bounded are multiplied without overflow. -/
theorem product?_eq {α : Type} {l : List α} {f : α → Option Nat} {g : α → Nat}
    (h : ∀ a ∈ l, f a = some (g a)) : product? l f = some ((l.map g).foldr (· * ·) 1) := by
  have hstep : ∀ acc, True → ∀ a ∈ l,
      (do return acc * (← f a)) = some ((fun acc a => acc * g a) acc a) ∧ True := by
    intro acc _ a ha
    rw [bind_eq (h a ha)]
    exact ⟨rfl, trivial⟩
  rw [product?, (foldlM_eq_some (fun _ => True) hstep trivial).1, ← List.prod_eq_foldr,
    List.prod_eq_foldl, List.foldl_map]

/-- Whether the addresses follow each other without a gap. -/
def isSequential? (s : Section) : Option Bool :=
  match s.bounds.findIdx? Bounds.isMultiple with
  | none => some true
  | some index => do (← from? s.bounds (← add? 64 index 1)).allM (isFull? s.version.segmentBits)

/-- The lowest address. -/
def lower? (s : Section) : Option Section :=
  if s.isMultiple then fromBounds? s.version (s.bounds.map fun b => ⟨b.lower, b.lower⟩) s.prefixLen
  else some s

/-- The highest address. -/
def upper? (s : Section) : Option Section :=
  if s.isMultiple then fromBounds? s.version (s.bounds.map fun b => ⟨b.upper, b.upper⟩) s.prefixLen
  else some s

/-- The lowest address as a number. -/
def lowerValue? (s : Section) : Option Nat :=
  join? s.version (s.bounds.map (·.lower))

/-- The highest address as a number. -/
def upperValue? (s : Section) : Option Nat :=
  join? s.version (s.bounds.map (·.upper))

/-- Number of addresses. -/
def count? (s : Section) : Option Nat :=
  product? s.bounds boundsCount?

/-- Number of networks of the values of a segment. -/
def networksCount? (bits : Nat) (b : Bounds) (p : Nat) : Option Nat := do
  let hostBits ← sub? bits p
  let upper ← shiftRight? 32 b.upper hostBits
  add? 32 (← sub? upper (← shiftRight? 32 b.lower hostBits)) 1

/-- Number of distinct networks of the given prefix length among the addresses. -/
def prefixCount? (s : Section) (p : Nat) : Option Nat :=
  product? s.bounds.zipIdx (atPrefix? s.version (min p s.bitCount) boundsCount? networksCount?)

/-- The number of networks in a segment fits into the word. -/
theorem networksCount?_eq (hbits : bits < 32) (hb : b.Within bits) (hh : h ≤ bits) :
    networksCount? bits b (bits - h) = some (b.networks h).count := by
  have hle : b.lower / 2 ^ h ≤ b.upper / 2 ^ h := Nat.div_le_div_right hb.lower_le_upper
  have hcount : b.upper / 2 ^ h - b.lower / 2 ^ h + 1 < 2 ^ 32 := by
    have hpow : 2 ^ bits < 2 ^ 32 := Nat.pow_lt_pow_right (by decide) hbits
    have hupper := Nat.lt_of_le_of_lt (Nat.div_le_self b.upper (2 ^ h)) hb.upper_lt
    have hdiff := Nat.sub_le (b.upper / 2 ^ h) (b.lower / 2 ^ h)
    exact Nat.lt_of_le_of_lt (Nat.succ_le_of_lt (Nat.lt_of_le_of_lt hdiff hupper)) hpow
  rw [networksCount?, bind_eq (sub?_eq (Nat.sub_le _ _)), Nat.sub_sub_self hh,
    bind_eq (shiftRight?_eq (by omega)), bind_eq (shiftRight?_eq (by omega)), bind_eq (sub?_eq hle),
    add?_eq hcount]
  rfl

/-- A single address is its own lowest and highest. -/
theorem ofDigits_eq_self {f : Bounds → Nat} (hmultiple : ¬ s.isMultiple = true)
    (hf : ∀ b : Bounds, b.lower = b.upper → f b = b.lower) :
    Section.ofDigits s.version (s.bounds.map f) s.prefixLen = s := by
  have hbounds : (s.bounds.map f).map Bounds.single = s.bounds := by
    rw [List.map_map]
    refine (List.map_congr_left fun b hb => ?_).trans (List.map_id _)
    have hsingle : b.lower = b.upper := by
      by_contra hne
      exact hmultiple (List.any_eq_true.2 ⟨b, hb, bne_iff_ne.2 hne⟩)
    rw [Function.comp_apply, hf b hsingle, Bounds.single]
    rcases b with ⟨lower, upper⟩
    rw [id, Bounds.mk.injEq]
    exact ⟨rfl, hsingle⟩
  rw [Section.ofDigits, hbounds]

section Values

variable (hs : s.WellFormed)

include hs

/-- What follows the first segment with several values is a slice of the section. -/
theorem isSequential?_eq : isSequential? s = some s.isSequential := by
  have hdrop : s.bounds.dropWhile (fun b => !b.isMultiple)
      = s.bounds.drop (s.bounds.findIdx Bounds.isMultiple) := by
    rw [List.dropWhile_eq_drop_findIdx_not]
    simp only [Bool.not_not]
  rw [Section.isSequential, hdrop, List.drop_drop, isSequential?]
  rcases hfind : s.bounds.findIdx? Bounds.isMultiple with - | index
  · have hlen := List.findIdx_eq_length.2 (List.findIdx?_eq_none_iff.1 hfind)
    rw [hlen, List.drop_eq_nil_of_le (Nat.le_add_right _ _)]
    rfl
  · obtain ⟨hlt, hindex⟩ := List.findIdx?_eq_some_iff_findIdx_eq.1 hfind
    have hcount := segmentCount_le s.version
    have hlen := hs.length_bounds
    rw [hindex]
    show (add? 64 index 1 >>= _) = _
    rw [bind_eq (add?_eq (by omega)), bind_eq (from?_eq hlt)]
    exact allM_eq_some fun b _ => isFull?_eq (segmentBits_lt s.version) b

/-- **The lowest address is put together**, as are the lower ends it is made of. -/
theorem lower?_eq : lower? s = some s.lower := by
  rw [lower?]
  split
  case isTrue =>
    rw [← fromBounds?_eq (Section.wellFormed_lower hs), Section.lower, Section.ofDigits,
      List.map_map]
    rfl
  case isFalse hmultiple =>
    rw [Section.lower, ofDigits_eq_self hmultiple fun _ _ => rfl]

/-- **The highest address is put together**, as are the upper ends it is made of. -/
theorem upper?_eq : upper? s = some s.upper := by
  rw [upper?]
  split
  case isTrue =>
    rw [← fromBounds?_eq (Section.wellFormed_upper hs), Section.upper, Section.ofDigits,
      List.map_map]
    rfl
  case isFalse hmultiple =>
    rw [Section.upper, ofDigits_eq_self hmultiple fun _ hsingle => hsingle.symm]

/-- The lower ends are joined without losing a bit. -/
theorem lowerValue?_eq : lowerValue? s = some s.lowerValue := by
  apply join?_eq
  intro d hd
  obtain ⟨b, hb, rfl⟩ := List.mem_map.1 hd
  have hwithin := hs.within b hb
  exact Nat.lt_trans (Nat.lt_of_le_of_lt hwithin.lower_le_upper hwithin.upper_lt)
    (Nat.pow_lt_pow_right (by decide) (segmentBits_lt s.version))

theorem upperValue?_eq : upperValue? s = some s.upperValue := by
  apply join?_eq
  intro d hd
  obtain ⟨b, hb, rfl⟩ := List.mem_map.1 hd
  exact Nat.lt_trans (hs.within b hb).upper_lt
    (Nat.pow_lt_pow_right (by decide) (segmentBits_lt s.version))

/-- The numbers of values of the segments fit into words, and their product is not bounded. -/
theorem count?_eq : count? s = some s.count :=
  product?_eq fun b hb => boundsCount?_eq (segmentBits_lt s.version) (hs.within b hb)

/-- The numbers of networks of the segments fit into words, and their product is not bounded. -/
theorem prefixCount?_eq (p : Nat) : prefixCount? s p = some (s.prefixCount p) := by
  have hbits := segmentBits_lt s.version
  have hsteps : ∀ place ∈ s.bounds.zipIdx,
      atPrefix? s.version (min p s.bitCount) boundsCount? networksCount? place
        = some (place.1.networks (s.version.hostBits (min p s.bitCount) place.2)).count := by
    refine atPrefix?_eq_of_mem (g := fun b h => (b.networks h).count) hs (fun b hb => ?_)
      (fun b hb h hh => networksCount?_eq hbits hb hh) _
    rw [boundsCount?_eq hbits hb, Bounds.networks, Nat.pow_zero, Nat.div_one, Nat.div_one]
  rw [Section.prefixCount, ← Section.hosts_min hs, hosts_eq, List.map_map]
  exact product?_eq hsteps

end Values

/-! ## Network and host -/

/-- A test of every segment with the part of the prefix length that falls into it. -/
def allHosts? (s : Section) (p : Nat) (whole : Bounds → Bool)
    (test : Nat → Bounds → Nat → Option Bool) :
    Option Bool :=
  s.bounds.zipIdx.allM (atPrefix? s.version (min p s.bitCount) (fun b => some (whole b)) test)

/-- Whether all addresses agree in their first `p` bits. -/
def isSingleNetworkAt? (s : Section) (p : Nat) : Option Bool :=
  allHosts? s p (fun b => !b.isMultiple) isSingleNetwork?

/-- Whether every segment begins and ends with a host of zeros. -/
def isZeroHostAt? (s : Section) (p : Nat) : Option Bool :=
  allHosts? s p (fun _ => true) isZeroHost?

/-- Whether every segment begins and ends with a host of ones. -/
def isMaxHostAt? (s : Section) (p : Nat) : Option Bool :=
  allHosts? s p (fun _ => true) isMaxHost?

/-- Whether some address has a host of zeros. -/
def includesZeroHostAt? (s : Section) (p : Nat) : Option Bool :=
  allHosts? s p (fun _ => true) includesZeroHost?

/-- Whether some address has a host of ones. -/
def includesMaxHostAt? (s : Section) (p : Nat) : Option Bool :=
  allHosts? s p (fun _ => true) includesMaxHost?

/-- Whether the addresses are made of whole networks of the given prefix length. -/
def isBlockAt? (s : Section) (p : Nat) : Option Bool :=
  allHosts? s p (fun _ => true) isBlock?

/-- Whether the addresses are exactly one network of the given prefix length. -/
def isSingleBlockAt? (s : Section) (p : Nat) : Option Bool :=
  both? (isSingleNetworkAt? s p) (isBlockAt? s p)

/-- A test at the section's own prefix length, if it has one. -/
def atOwnPrefix? (s : Section) (test : Nat → Option Bool) : Option Bool :=
  match s.prefixLen with
  | some p => test p
  | none => some false

/-- Whether all addresses share a network, or without a prefix length, whether there is just one. -/
def isSingleNetworkOf? (s : Section) : Option Bool :=
  match s.prefixLen with
  | some p => isSingleNetworkAt? s p
  | none => some (!s.isMultiple)

/-- Whether the section is exactly one network of its own prefix length. -/
def isSingleBlockOf? (s : Section) : Option Bool :=
  atOwnPrefix? s (isSingleBlockAt? s)

section Tests

variable (hs : s.WellFormed) (p : Nat)

include hs

/-- **Every question about hosts can be asked at every prefix length.** A segment in front of the
boundary is asked as one without host bits. -/
theorem allHosts?_eq {whole : Bounds → Bool} {test? : Nat → Bounds → Nat → Option Bool}
    {test : Bounds → Nat → Bool} (hwhole : ∀ b, b.Within s.version.segmentBits → whole b = test b 0)
    (htest : ∀ b, b.Within s.version.segmentBits → ∀ h ≤ s.version.segmentBits,
      test? s.version.segmentBits b (s.version.segmentBits - h) = some (test b h)) :
    allHosts? s p whole test? = some (s.allHosts p test) := by
  have hsteps :=
    atPrefix?_eq_of_mem hs (fun b hb => congrArg some (hwhole b hb)) htest (min p s.bitCount)
  rw [Section.allHosts, ← Section.hosts_min hs, hosts_eq, List.all_map]
  exact allM_eq_some hsteps

/-- Each segment is tested with its own part of the prefix length. -/
theorem isSingleNetworkAt?_eq : isSingleNetworkAt? s p = some (s.isSingleNetworkAt p) := by
  refine allHosts?_eq hs p (fun b _ => ?_) fun b _ h hh =>
    isSingleNetwork?_eq (segmentBits_cases _) hh
  rw [Bounds.isMultiple, Bounds.isSingleNetwork, Nat.pow_zero, Nat.div_one, Nat.div_one]
  exact Bool.not_not _

/-- The test asks each segment for zeros behind its part of the prefix length. -/
theorem isZeroHostAt?_eq : isZeroHostAt? s p = some (s.isZeroHostAt p) :=
  allHosts?_eq hs p (fun b _ => by simp [Bounds.isZeroHost, Nat.mod_one])
    fun b _ h hh => isZeroHost?_eq (segmentBits_cases _) hh

theorem isMaxHostAt?_eq : isMaxHostAt? s p = some (s.isMaxHostAt p) :=
  allHosts?_eq hs p (fun b _ => by simp [Bounds.isMaxHost, Nat.mod_one])
    fun b _ h hh => isMaxHost?_eq (segmentBits_cases _) hh

/-- The test asks each segment whether a value of it ends in zeros. -/
theorem includesZeroHostAt?_eq : includesZeroHostAt? s p = some (s.includesZeroHostAt p) :=
  allHosts?_eq hs p (fun b _ => by simp [Bounds.includesZeroHost, Nat.mod_one])
    fun b hb h hh => includesZeroHost?_eq (segmentBits_cases _) hb hh

theorem includesMaxHostAt?_eq : includesMaxHostAt? s p = some (s.includesMaxHostAt p) :=
  allHosts?_eq hs p (fun b hb => by
      simp [Bounds.includesMaxHost, Bits.blockEnd, hb.lower_le_upper])
    fun b _ h hh => includesMaxHost?_eq (segmentBits_cases _) hh

/-- The test asks each segment whether it is full behind its part of the prefix length. -/
theorem isBlockAt?_eq : isBlockAt? s p = some (s.isBlockAt p) :=
  allHosts?_eq hs p (fun b _ => by simp [Bounds.isBlock, Nat.mod_one])
    fun b _ h hh => isBlock?_eq (segmentBits_cases _) hh

/-- A single block is a block of one network, and both tests succeed. -/
theorem isSingleBlockAt?_eq : isSingleBlockAt? s p = some (s.isSingleBlockAt p) :=
  both?_eq (isSingleNetworkAt?_eq hs p) (isBlockAt?_eq hs p)

omit hs p in
/-- A test at the own prefix length succeeds if it does at every prefix length. -/
theorem atOwnPrefix?_eq {test? : Nat → Option Bool} {test : Nat → Bool}
    (h : ∀ p, test? p = some (test p)) :
    atOwnPrefix? s test? = some (s.atOwnPrefix test) := by
  rw [atOwnPrefix?, Section.atOwnPrefix]
  rcases s.prefixLen with - | p
  · rfl
  · exact h p

omit p in
/-- Without a prefix length, there has to be a single address. -/
theorem isSingleNetworkOf?_eq : isSingleNetworkOf? s = some s.isSingleNetwork := by
  rw [isSingleNetworkOf?, Section.isSingleNetwork]
  rcases s.prefixLen with - | p
  · rfl
  · exact isSingleNetworkAt?_eq hs p

omit p in
/-- A section without a prefix length is not one network of its own. -/
theorem isSingleBlockOf?_eq : isSingleBlockOf? s = some s.isSingleBlock :=
  atOwnPrefix?_eq (isSingleBlockAt?_eq hs)

end Tests

end Machine

end IpSpace
