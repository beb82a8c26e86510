import IpSpace.Proofs.FixedSegments
import IpSpace.Proofs.HostConversion

/-!
# Reversed addresses

Reversing the order of the segments, of the bytes or of the bits of an address is one operation on
words: the parts of some width are taken from the last to the first (`Digits.reversed`). Parts may
be reversed in two stages, the segments of an address first and then the parts of each segment
(`Digits.reversed_mul`), and that is how sections do it.

What is asked of one segment is that its values, with their parts reversed, are a range again. A
single value and all values satisfy that, and a segment of one part satisfies it always; such a way
to reverse segments is a `Flip`. From a flip of segments it follows what becomes of the addresses of
a section, and that doing it twice changes nothing (`Section.reverses_of_flip`).
-/

namespace IpSpace

open Digits (Fit)

/-! ## Words with their parts in reverse order -/

namespace Digits

variable {width k count x : Nat}

/-- The word whose `count` parts of `width` bits each are those of `x` in reverse order. -/
def reversed (width count x : Nat) : Nat :=
  value width (split width count x).reverse

/-- A word of `a + b` digits is cut into its first `a` and its last `b` digits. -/
theorem split_add (width a b x : Nat) :
    split width (a + b) x = split width a (x / 2 ^ (width * b)) ++ split width b x := by
  induction a with
  | zero => simp [split]
  | succ a ih =>
      rw [Nat.succ_add, split, split, ih, List.cons_append, Nat.div_div_eq_div_mul, ← Nat.pow_add,
        Nat.add_comm a b, Nat.mul_add]

/-- The digits of the digits of a word are its digits. -/
theorem split_mul (width k count x : Nat) :
    split width (k * count) x = (split (width * k) count x).flatMap (split width k) := by
  induction count with
  | zero => rfl
  | succ count ih =>
      rw [Nat.mul_succ, Nat.add_comm, split_add, ih, split, List.flatMap_cons,
        split_mod (Nat.le_refl k), Nat.mul_assoc]

theorem length_flatMap_digits {f : Nat → List Nat} (hf : ∀ d, (f d).length = k) (ds : List Nat) :
    (ds.flatMap f).length = k * ds.length := by
  rw [List.length_flatMap, List.map_congr_left fun d _ => hf d, List.map_const',
    List.sum_replicate_nat, Nat.mul_comm]

/-- The digits of a number may be put together in two stages. -/
theorem value_flatMap {f : Nat → List Nat} (hf : ∀ d, (f d).length = k) (ds : List Nat) :
    value width (ds.flatMap f) = value (width * k) (ds.map fun d => value width (f d)) := by
  induction ds with
  | nil => rfl
  | cons d ds ih =>
      rw [List.flatMap_cons, value_append, ih, length_flatMap_digits hf, List.map_cons, value,
        List.length_map, Nat.mul_assoc]

/-- **Parts of segments are reversed in two stages**: the segments, and the parts of each of
them. -/
theorem reversed_mul (width k count x : Nat) : reversed width (k * count) x
    = value (width * k) ((split (width * k) count x).reverse.map (reversed width k)) := by
  rw [reversed, split_mul, List.reverse_flatMap, value_flatMap (k := k)]
  · rfl
  · intro d
    rw [Function.comp_apply, List.length_reverse, length_split]

theorem fit_reverse {ds : List Nat} (h : Fit width ds) : Fit width ds.reverse :=
  fun d hd => h d (List.mem_reverse.1 hd)

theorem reversed_lt (width count x : Nat) : reversed width count x < 2 ^ (width * count) := by
  have hlt := value_lt (fit_reverse (fit_split width count x))
  rwa [List.length_reverse, length_split] at hlt

/-- The parts of a word with its parts reversed. -/
theorem split_reversed (width count x : Nat) :
    split width count (reversed width count x) = (split width count x).reverse := by
  have hparts := split_value (fit_reverse (fit_split width count x))
  rwa [List.length_reverse, length_split] at hparts

/-- **Reversing twice changes nothing.** -/
theorem reversed_reversed (hx : x < 2 ^ (width * count)) :
    reversed width count (reversed width count x) = x := by
  rw [reversed, split_reversed, List.reverse_reverse, value_split hx]

/-- A word whose parts are all the same is its own reverse. -/
theorem reversed_eq_self {d : Nat} (hx : x < 2 ^ (width * count))
    (h : split width count x = List.replicate count d) : reversed width count x = x := by
  rw [reversed, h, List.reverse_replicate, ← h, value_split hx]

theorem reversed_one (hx : x < 2 ^ width) : reversed width 1 x = x := by
  refine reversed_eq_self (d := x) (by rwa [Nat.mul_one]) ?_
  rw [split, split, Nat.mul_zero, Nat.pow_zero, Nat.div_one, Nat.mod_eq_of_lt hx]
  rfl

theorem reversed_zero (width count : Nat) : reversed width count 0 = 0 := by
  refine reversed_eq_self (d := 0) (Nat.two_pow_pos _) ?_
  induction count with
  | zero => rfl
  | succ count ih => rw [split, ih, Nat.zero_div, Nat.zero_mod, List.replicate_succ]

theorem reversed_max (width count : Nat) :
    reversed width count (2 ^ (width * count) - 1) = 2 ^ (width * count) - 1 := by
  refine reversed_eq_self (d := 2 ^ width - 1) (Nat.sub_lt (Nat.two_pow_pos _) Nat.one_pos) ?_
  have hones := split_two_pow_sub_one width count 0
  simp only [Nat.sub_zero, Nat.zero_sub, List.map_const', List.length_range] at hones
  exact hones

/-- Reversing bits one by one reverses parts of one bit. -/
theorem reverse_eq_reversed (width x : Nat) : Bits.reverse width x = reversed 1 width x := by
  induction width generalizing x with
  | zero => rfl
  | succ width ih =>
      rw [Bits.reverse, ih, reversed, reversed, split_add, List.reverse_append]
      simp [split, value]

/-- Exchanging two bytes reverses parts of eight bits. -/
theorem swapBytes_eq_reversed (hx : x < 2 ^ 16) : Bits.swapBytes x = reversed 8 2 x := by
  have hfirst : x / 256 % 256 = x / 256 := Nat.mod_eq_of_lt (by omega)
  simp [Bits.swapBytes, reversed, split, value, hfirst]

end Digits

/-! ## Segments -/

/-- Whether a segment is a single value or takes all values. -/
def Bounds.Rigid (width : Nat) (b : Bounds) : Prop :=
  b.lower = b.upper ∨ b = Bounds.full width

/-- A way to reverse bounds whose values have `k` parts of `width` bits: where it has a result, this
holds the values with their parts reversed, and is taken back to what it came from. -/
structure Flip (width k : Nat) (flip? : Bounds → Option Bounds) : Prop where
  within : ∀ {b c}, b.Within (width * k) → flip? b = some c → c.Within (width * k)
  mem_iff : ∀ {b c}, b.Within (width * k) → flip? b = some c →
    ∀ d < 2 ^ (width * k), d ∈ c ↔ Digits.reversed width k d ∈ b
  flip_back : ∀ {b c}, b.Within (width * k) → flip? b = some c → flip? c = some b

section Flips

variable {width k : Nat}

/-- Values of one part stay as they are. -/
theorem flip_some (width : Nat) : Flip width 1 some where
  within := by
    rintro b c hb ⟨⟩
    exact hb
  mem_iff := by
    rintro b c - ⟨⟩ d hd
    rw [Digits.reversed_one (by rwa [Nat.mul_one] at hd)]
  flip_back := by
    rintro b c - ⟨⟩
    rfl

/-- Bounds that are a single value, or hold all of them, are permuted, and others are not. -/
theorem exists_permute?_iff {w : Nat} {b : Bounds} {f : Nat → Nat} :
    (∃ c, b.permute? w f = some c) ↔ b.Rigid w := by
  unfold Bounds.permute? Bounds.Rigid Bounds.isMultiple Bounds.isFull
  by_cases hsingle : b.lower = b.upper
  · simp [hsingle]
  · by_cases hfull : b = Bounds.full w
    · simp [hfull]
    · simp [hsingle, hfull]

theorem Bounds.eq_single {b : Bounds} (h : b.lower = b.upper) : b = .single b.lower :=
  calc b = ⟨b.lower, b.upper⟩ := rfl
    _ = .single b.lower := by rw [← h, single]

/-- What becomes of a single value. -/
theorem permute?_single {w d : Nat} {f : Nat → Nat} :
    (Bounds.single d).permute? w f = some (.single (f d)) := by
  simp [Bounds.permute?, Bounds.isMultiple, Bounds.single]

/-- All values become all values. -/
theorem permute?_full {w : Nat} {f : Nat → Nat} (hzero : f 0 = 0)
    (hmax : f (2 ^ w - 1) = 2 ^ w - 1) :
    (Bounds.full w).permute? w f = some (Bounds.full w) := by
  simp [Bounds.permute?, Bounds.isFull, Bounds.full, hzero, hmax]

/-- **Reversing the parts of the ends reverses the parts of all values**, where it is done. -/
theorem flip_permute? {f : Nat → Nat}
    (hf : ∀ x < 2 ^ (width * k), f x = Digits.reversed width k x) :
    Flip width k fun b => b.permute? (width * k) f := by
  have hpos := Nat.two_pow_pos (width * k)
  have hfull : (Bounds.full (width * k)).permute? (width * k) f =
      some (Bounds.full (width * k)) := by
    refine permute?_full ?_ ?_
    · rw [hf 0 hpos, Digits.reversed_zero]
    · rw [hf _ (Nat.sub_lt hpos Nat.one_pos), Digits.reversed_max]
  -- Either way the result is known: a single value that is reversed, or all values.
  have hcases : ∀ {b c : Bounds}, b.Within (width * k) → b.permute? (width * k) f = some c →
      (b = .single b.lower ∧ c = .single (Digits.reversed width k b.lower)) ∨
        b = Bounds.full (width * k) ∧ c = Bounds.full (width * k) := by
    intro b c hb hc
    rcases exists_permute?_iff.1 ⟨c, hc⟩ with hsingle | rfl
    · left
      have heq := Bounds.eq_single hsingle
      rw [heq, permute?_single, hf _ (hsingle ▸ hb.upper_lt)] at hc
      exact ⟨heq, (Option.some.inj hc).symm⟩
    · right
      rw [hfull, Option.some.injEq] at hc
      exact ⟨rfl, hc.symm⟩
  constructor
  · intro b c hb hc
    rcases hcases hb hc with ⟨-, rfl⟩ | ⟨-, rfl⟩
    · exact Bounds.within_single (Digits.reversed_lt width k _)
    · exact Bounds.within_full _
  · intro b c hb hc d hd
    rcases hcases hb hc with ⟨hsingle, rfl⟩ | ⟨rfl, rfl⟩
    · have hlower : b.lower < 2 ^ (width * k) := Nat.lt_of_le_of_lt hb.lower_le_upper hb.upper_lt
      rw [hsingle, Bounds.mem_single, Bounds.mem_single]
      constructor
      · rintro rfl
        exact Digits.reversed_reversed hlower
      · intro h
        rw [← Digits.reversed_reversed hd, h]
        rfl
    · rw [Bounds.mem_full, Bounds.mem_full]
      exact iff_of_true hd (Digits.reversed_lt width k d)
  · intro b c hb hc
    rcases hcases hb hc with ⟨hsingle, rfl⟩ | ⟨rfl, rfl⟩
    · have hlower : b.lower < 2 ^ (width * k) := Nat.lt_of_le_of_lt hb.lower_le_upper hb.upper_lt
      rw [permute?_single, hf _ (Digits.reversed_lt width k _), Digits.reversed_reversed hlower,
        ← hsingle]
    · exact hfull

end Flips

/-! ## Segments one by one -/

section Lists

variable {width k : Nat} {flip? : Bounds → Option Bounds} {bs cs : List Bounds} {ds : List Nat}

/-- Picks of flipped bounds are reversed picks of the bounds. -/
theorem picks_flip_iff (hflip : Flip width k flip?) (hb : ∀ b ∈ bs, b.Within (width * k))
    (hbc : List.Forall₂ (fun b c => flip? b = some c) bs cs) (hds : Fit (width * k) ds) :
    Picks cs ds ↔ Picks bs (ds.map (Digits.reversed width k)) := by
  induction hbc generalizing ds with
  | nil => simp
  | @cons b c bs cs hbc _ ih =>
      rw [List.forall_mem_cons] at hb
      rcases ds with _ | ⟨d, ds⟩
      · simp
      · rw [Digits.fit_cons] at hds
        rw [List.map_cons, picks_cons, picks_cons, hflip.mem_iff hb.1 hbc d hds.1, ih hb.2 hds.2]

/-- Flipped bounds are bounds, and flipping them again leads back. -/
theorem flip_back_of_forall₂ (hflip : Flip width k flip?) (hb : ∀ b ∈ bs, b.Within (width * k))
    (hbc : List.Forall₂ (fun b c => flip? b = some c) bs cs) :
    (∀ c ∈ cs, c.Within (width * k)) ∧ List.Forall₂ (fun c b => flip? c = some b) cs bs := by
  induction hbc with
  | nil => simp
  | cons hbc _ ih =>
      rw [List.forall_mem_cons] at hb
      obtain ⟨hwithin, hback⟩ := ih hb.2
      exact ⟨List.forall_mem_cons.2 ⟨hflip.within hb.1 hbc, hwithin⟩,
        .cons (hflip.flip_back hb.1 hbc) hback⟩

/-- A list of bounds is flipped if each of them is. -/
theorem exists_forall₂_flip_iff : (∃ cs, List.Forall₂ (fun b c => flip? b = some c) bs cs) ↔
    ∀ b ∈ bs, ∃ c, flip? b = some c := by
  induction bs with
  | nil => exact iff_of_true ⟨[], .nil⟩ (by simp)
  | cons b bs ih =>
      rw [List.forall_mem_cons, ← ih]
      constructor
      · rintro ⟨_, _ | ⟨hbc, hrest⟩⟩
        exact ⟨⟨_, hbc⟩, _, hrest⟩
      · rintro ⟨⟨c, hbc⟩, cs, hrest⟩
        exact ⟨c :: cs, .cons hbc hrest⟩

/-- Segments that are reversed by `step` have their bounds flipped, if `step` does that to each of
them. -/
theorem exists_forall₂_step_iff {step : Segment → Except AddressError Segment} {gs : List Segment}
    (hstep : ∀ g ∈ gs, ∀ c, (∃ g', step g = .ok g' ∧ g'.bounds = c) ↔ flip? g.bounds = some c) :
    (∃ gs', List.Forall₂ (fun g g' => step g = .ok g') gs gs' ∧ gs'.map (·.bounds) = cs) ↔
      List.Forall₂ (fun b c => flip? b = some c) (gs.map (·.bounds)) cs := by
  induction gs generalizing cs with
  | nil => simp [eq_comm]
  | cons g gs ih =>
      rw [List.forall_mem_cons] at hstep
      rw [List.map_cons, List.forall₂_cons_left_iff]
      constructor
      · rintro ⟨_, _ | ⟨hg, hrest⟩, rfl⟩
        exact ⟨_, _, (hstep.1 _).1 ⟨_, hg, rfl⟩, (ih hstep.2).1 ⟨_, hrest, rfl⟩, rfl⟩
      · rintro ⟨c, cs, hc, hcs, rfl⟩
        obtain ⟨g', hg', rfl⟩ := (hstep.1 c).2 hc
        obtain ⟨gs', hgs', rfl⟩ := (ih hstep.2).2 hcs
        exact ⟨g' :: gs', .cons hg' hgs', rfl⟩

end Lists

/-! ## Sections -/

/-- **The segments of a reversed address are the reversed segments, in reverse order.** -/
theorem Version.split_reversed {version : Version} {width k : Nat}
    (hwidth : width * k = version.segmentBits) (x : Nat) :
    version.split (Digits.reversed width (k * version.segmentCount) x)
      = (version.split x).reverse.map (Digits.reversed width k) := by
  have hfit : Fit (width * k) ((version.split x).reverse.map (Digits.reversed width k)) := by
    intro d hd
    obtain ⟨e, -, rfl⟩ := List.mem_map.1 hd
    exact Digits.reversed_lt width k e
  have hdigits := Digits.split_value hfit
  rw [List.length_map, List.length_reverse, length_split, hwidth] at hdigits
  rw [Digits.reversed_mul, hwidth]
  exact hdigits

namespace Section

variable {s t : Section} {width k : Nat} {flip? : Bounds → Option Bounds}

/-- A section whose segments are those of `s`, flipped and in reverse order. -/
structure FlipOf (flip? : Bounds → Option Bounds) (s t : Section) : Prop where
  version_eq : t.version = s.version
  prefixLen_eq : t.prefixLen = none
  flips : List.Forall₂ (fun b c => flip? b = some c) s.bounds.reverse t.bounds

theorem within_reverse (hs : s.WellFormed) (hwidth : width * k = s.version.segmentBits) :
    ∀ b ∈ s.bounds.reverse, b.Within (width * k) := by
  intro b hb
  rw [hwidth]
  exact hs.within b (List.mem_reverse.1 hb)

/-- **The addresses of a flipped section are the reversed addresses of the section.** -/
theorem FlipOf.values_eq (h : FlipOf flip? s t) (hs : s.WellFormed) (hflip : Flip width k flip?)
    (hwidth : width * k = s.version.segmentBits) :
    t.values = Digits.reversed width (k * s.version.segmentCount) '' s.values := by
  have hbits :
      width * (k * s.version.segmentCount) = s.version.segmentBits * s.version.segmentCount := by
    rw [← Nat.mul_assoc, hwidth]
  -- A word is picked from the new segments exactly if its reversal is picked from the old ones.
  have hpicks : ∀ y, Picks t.bounds (s.version.split y) ↔
      Picks s.bounds (s.version.split (Digits.reversed width (k * s.version.segmentCount) y)) := by
    intro y
    have hfit : Fit (width * k) (s.version.split y) := hwidth ▸ s.version.fit_split y
    rw [picks_flip_iff hflip (within_reverse hs hwidth) h.flips hfit, Version.split_reversed hwidth,
      List.map_reverse]
    refine List.forall₂_reverse_iff.symm.trans ?_
    rw [List.reverse_reverse]
  have hlt : ∀ y, Digits.reversed width (k * s.version.segmentCount) y ≤ s.version.maxValue := by
    intro y
    rw [Version.le_maxValue_iff, ← hbits]
    exact Digits.reversed_lt _ _ _
  have hback : ∀ {y}, y ≤ s.version.maxValue → Digits.reversed width (k * s.version.segmentCount)
      (Digits.reversed width (k * s.version.segmentCount) y) = y := by
    intro y hy
    rw [Version.le_maxValue_iff, ← hbits] at hy
    exact Digits.reversed_reversed hy
  ext y
  rw [mem_values_of_version h.version_eq.symm, hpicks]
  constructor
  · rintro ⟨hy, hy'⟩
    exact ⟨_, ⟨hlt y, hy'⟩, hback hy⟩
  · rintro ⟨x, ⟨hx, hx'⟩, rfl⟩
    rw [hback hx]
    exact ⟨hlt x, hx'⟩

/-- A flipped section is well formed, and flipping it again leads back. -/
theorem FlipOf.flip_back (h : FlipOf flip? s t) (hs : s.WellFormed) (hflip : Flip width k flip?)
    (hwidth : width * k = s.version.segmentBits) :
    t.WellFormed ∧ FlipOf flip? t (s.withPrefixLen none) := by
  obtain ⟨hwithin, hback⟩ := flip_back_of_forall₂ hflip (within_reverse hs hwidth) h.flips
  constructor
  · apply wellFormed_of_within
    · rw [← h.flips.length_eq, List.length_reverse, hs.length_bounds, h.version_eq]
    · rwa [h.version_eq, ← hwidth]
    · simp [h.prefixLen_eq]
  · refine ⟨h.version_eq.symm, rfl, ?_⟩
    rw [← List.forall₂_reverse_iff, List.reverse_reverse]
    exact hback

/-- Where `step` flips the bounds of segments, the section of the reversed segments is the flipped
one. -/
theorem reverseWith_eq_ok_iff {step : Segment → Except AddressError Segment}
    (hstep : ∀ g : Segment, g.width = s.version.segmentBits →
      ∀ c, (∃ g', step g = .ok g' ∧ g'.bounds = c) ↔ flip? g.bounds = some c) :
    s.reverseWith step = .ok t ↔ FlipOf flip? s t := by
  have hwidth : ∀ g ∈ s.segments.reverse, g.width = s.version.segmentBits := by
    intro g hg
    obtain ⟨index, hindex, rfl⟩ := List.mem_mapIdx.1 (List.mem_reverse.1 hg)
    rfl
  have hbounds : s.segments.reverse.map (·.bounds) = s.bounds.reverse := by
    have hmap : s.segments.map (·.bounds) = s.bounds :=
      List.ext_getElem (by simp [segments]) fun index _ _ => by simp [segments]
    rw [List.map_reverse, hmap]
  have hflips : ∀ bs, (∃ gs, List.Forall₂ (fun g g' => step g = .ok g') s.segments.reverse gs ∧
      gs.map (·.bounds) = bs) ↔ List.Forall₂ (fun b c => flip? b = some c) s.bounds.reverse bs := by
    intro bs
    rw [← hbounds]
    exact exists_forall₂_step_iff fun g hg => hstep g (hwidth g hg)
  unfold reverseWith
  rw [bind_eq_ok_iff]
  simp only [mapM_eq_ok_iff]
  constructor
  · rintro ⟨gs, hgs, ⟨⟩⟩
    exact ⟨rfl, rfl, (hflips _).1 ⟨gs, hgs, rfl⟩⟩
  · rintro ⟨hversion, hlen, hflip⟩
    obtain ⟨gs, hgs, hgsb⟩ := (hflips _).2 hflip
    refine ⟨gs, hgs, ?_⟩
    rw [hgsb, ← hversion, ← hlen]
    rfl

/-! ## What reversal does -/

/-- The operation reverses the order of the `count` parts of `width` bits in every address of `s`.
It succeeds exactly where that is allowed, and fails as incompatible elsewhere. The result has no
prefix length, and reversing it leads back to the section without its prefix length. -/
structure Reverses (s : Section) (op : Section → Except AddressError Section) (width count : Nat)
    (allowed : Prop) : Prop where
  isOk_iff : (∃ t, op s = .ok t) ↔ allowed
  kind_eq : ∀ cause, op s = .error cause → cause.kind = .incompatible
  shape : ∀ t, op s = .ok t → t.WellFormed ∧ t.version = s.version ∧ t.prefixLen = none
  values_eq : ∀ t, op s = .ok t → t.values = Digits.reversed width count '' s.values
  twice : ∀ t, op s = .ok t → op t = .ok (s.withPrefixLen none)

/-- **An operation that flips the segments reverses the addresses.** -/
theorem reverses_of_flip {op : Section → Except AddressError Section} {allowed : Prop}
    (hs : s.WellFormed) (hflip : Flip width k flip?) (hwidth : width * k = s.version.segmentBits)
    (hop : ∀ u t : Section, u.version = s.version → (op u = .ok t ↔ FlipOf flip? u t))
    (hallowed : (∀ b ∈ s.bounds, ∃ c, flip? b = some c) ↔ allowed)
    (hfail : ∀ cause, op s = .error cause → cause.kind = .incompatible) :
    s.Reverses op width (k * s.version.segmentCount) allowed where
  isOk_iff := by
    have hreverse : (∀ b ∈ s.bounds.reverse, ∃ c, flip? b = some c) ↔ allowed := by
      simpa only [List.mem_reverse] using hallowed
    rw [← hreverse, ← exists_forall₂_flip_iff]
    constructor
    · rintro ⟨t, ht⟩
      exact ⟨t.bounds, ((hop s t rfl).1 ht).flips⟩
    · rintro ⟨cs, hcs⟩
      exact ⟨⟨s.version, cs, none⟩, (hop s _ rfl).2 ⟨rfl, rfl, hcs⟩⟩
  kind_eq := hfail
  shape t ht := by
    have h := (hop s t rfl).1 ht
    exact ⟨(h.flip_back hs hflip hwidth).1, h.version_eq, h.prefixLen_eq⟩
  values_eq t ht := ((hop s t rfl).1 ht).values_eq hs hflip hwidth
  twice t ht := by
    have h := (hop s t rfl).1 ht
    exact (hop t _ h.version_eq).2 (h.flip_back hs hflip hwidth).2

/-- A reversal fails only where the reversal of a segment does. -/
theorem kind_of_reverseWith_error {step : Segment → Except AddressError Segment}
    (hstep : ∀ g cause, step g = .error cause → cause.kind = .incompatible) {cause : AddressError}
    (h : s.reverseWith step = .error cause) : cause.kind = .incompatible := by
  unfold reverseWith at h
  rcases bind_eq_error_iff.1 h with hsteps | ⟨gs, -, hdone⟩
  · obtain ⟨g, -, hg⟩ := exists_of_mapM_error hsteps
    exact hstep g cause hg
  · cases hdone

theorem forall₂_some_iff {bs cs : List Bounds} :
    List.Forall₂ (fun b c => some b = some c) bs cs ↔ bs = cs := by
  simp only [Option.some.injEq, List.forall₂_eq_eq_eq]

/-- Segments of one part are reversed by taking them in reverse order. -/
theorem reverses_reverseSegments (hs : s.WellFormed) :
    s.Reverses (fun u => .ok u.reverseSegments) s.version.segmentBits s.version.segmentCount
      True := by
  have h : s.Reverses (fun u => .ok u.reverseSegments) s.version.segmentBits
      (1 * s.version.segmentCount) True := by
    refine reverses_of_flip hs (flip_some _) (Nat.mul_one _) ?_ ?_ ?_
    · intro u t _
      rw [Except.ok.injEq]
      constructor
      · rintro rfl
        exact ⟨rfl, rfl, forall₂_some_iff.2 rfl⟩
      · rintro ⟨hversion, hlen, hflips⟩
        rw [forall₂_some_iff] at hflips
        calc u.reverseSegments = ⟨u.version, u.bounds.reverse, none⟩ := rfl
          _ = ⟨t.version, t.bounds, t.prefixLen⟩ := by rw [hversion, hlen, hflips]
    · exact iff_of_true (fun b _ => ⟨b, rfl⟩) trivial
    · rintro cause ⟨⟩
  rwa [Nat.one_mul] at h

end Section

namespace Segment

/-- The bits of a segment are reversed where its bounds are permuted. -/
theorem reverseBits_eq_ok_iff {g : Segment} {c : Bounds} :
    (∃ g', g.reverseBits = .ok g' ∧ g'.bounds = c)
      ↔ g.bounds.permute? g.width (Bits.reverse g.width) = some c := by
  unfold reverseBits
  cases g.bounds.permute? g.width (Bits.reverse g.width) with
  | none => simp
  | some d => simp

theorem kind_of_reverseBits_error {g : Segment} {cause : AddressError}
    (h : g.reverseBits = .error cause) : cause.kind = .incompatible := by
  unfold reverseBits at h
  split at h
  · cases h
  · cases h
    rfl

/-- The bytes of a segment of one byte stay as they are, and those of a wider one are exchanged
where its bounds are permuted. -/
theorem reverseBytes_eq_ok_iff {g : Segment} {c : Bounds} :
    (∃ g', g.reverseBytes = .ok g' ∧ g'.bounds = c)
      ↔ (if g.width = 8 then some g.bounds else g.bounds.permute? g.width Bits.swapBytes) =
        some c := by
  unfold reverseBytes
  split
  · simp
  · cases g.bounds.permute? g.width Bits.swapBytes with
    | none => simp
    | some d => simp

theorem kind_of_reverseBytes_error {g : Segment} {cause : AddressError}
    (h : g.reverseBytes = .error cause) : cause.kind = .incompatible := by
  unfold reverseBytes at h
  split at h
  · cases h
  · split at h
    · cases h
    · cases h
      rfl

end Segment

namespace Section

variable {s : Section}

theorem reverses_reverseBits (hs : s.WellFormed) : s.Reverses reverseBits 1 s.bitCount
    (∀ b ∈ s.bounds, b.Rigid s.version.segmentBits) := by
  have hflip : Flip 1 s.version.segmentBits fun b =>
      b.permute? (1 * s.version.segmentBits) (Bits.reverse s.version.segmentBits) :=
    flip_permute? fun x _ => Digits.reverse_eq_reversed _ x
  have h : s.Reverses reverseBits 1 (s.version.segmentBits * s.version.segmentCount)
      (∀ b ∈ s.bounds, b.Rigid s.version.segmentBits) := by
    rw [Nat.one_mul] at hflip
    refine reverses_of_flip hs hflip (Nat.one_mul _) ?_ ?_ ?_
    · intro u t hversion
      apply reverseWith_eq_ok_iff
      intro g hg c
      rw [Segment.reverseBits_eq_ok_iff, hg, hversion]
    · exact forall₂_congr fun b _ => exists_permute?_iff
    · intro cause
      exact kind_of_reverseWith_error fun g cause => Segment.kind_of_reverseBits_error
  rwa [← Version.bitCount_eq] at h

theorem kind_of_reverseBytes_error {cause : AddressError} (h : s.reverseBytes = .error cause) :
    cause.kind = .incompatible :=
  kind_of_reverseWith_error (fun _ _ => Segment.kind_of_reverseBytes_error) h

/-- The segments of an IPv4 section are single bytes. -/
theorem reverses_reverseBytes_v4 (hs : s.WellFormed) (hversion : s.version = .v4) :
    s.Reverses reverseBytes 8 s.version.byteCount True := by
  have hwidth : s.version.segmentBits = 8 := by rw [hversion]; rfl
  have h : s.Reverses reverseBytes 8 (1 * s.version.segmentCount) True := by
    refine reverses_of_flip hs (flip_some 8) hwidth.symm ?_ ?_ ?_
    · intro u t hu
      apply reverseWith_eq_ok_iff
      intro g hg c
      rw [Segment.reverseBytes_eq_ok_iff, if_pos (by rw [hg, hu, hwidth])]
    · exact iff_of_true (fun b _ => ⟨b, rfl⟩) trivial
    · exact fun _ => kind_of_reverseBytes_error
  have hcount : 1 * s.version.segmentCount = s.version.byteCount := by rw [hversion]; rfl
  rwa [hcount] at h

/-- Those of an IPv6 section are pairs of bytes, which are exchanged. -/
theorem reverses_reverseBytes_v6 (hs : s.WellFormed) (hversion : s.version = .v6) :
    s.Reverses reverseBytes 8 s.version.byteCount
      (∀ b ∈ s.bounds, b.Rigid s.version.segmentBits) := by
  have hwidth : s.version.segmentBits = 16 := by rw [hversion]; rfl
  have hflip : Flip 8 2 fun b => b.permute? (8 * 2) Bits.swapBytes :=
    flip_permute? fun x hx => Digits.swapBytes_eq_reversed hx
  have h : s.Reverses reverseBytes 8 (2 * s.version.segmentCount)
      (∀ b ∈ s.bounds, b.Rigid s.version.segmentBits) := by
    refine reverses_of_flip hs hflip hwidth.symm ?_ ?_ ?_
    · intro u t hu
      apply reverseWith_eq_ok_iff
      intro g hg c
      rw [hu, hwidth] at hg
      rw [Segment.reverseBytes_eq_ok_iff, hg, if_neg (by decide)]
    · rw [hwidth]
      exact forall₂_congr fun b _ => exists_permute?_iff
    · exact fun _ => kind_of_reverseBytes_error
  have hcount : 2 * s.version.segmentCount = s.version.byteCount := by rw [hversion]; rfl
  rwa [hcount] at h

theorem reverses_reverseBytes (hs : s.WellFormed) : s.Reverses reverseBytes 8 s.version.byteCount
    (s.version = .v4 ∨ ∀ b ∈ s.bounds, b.Rigid s.version.segmentBits) := by
  by_cases hversion : s.version = .v4
  · rw [eq_true (p := s.version = .v4 ∨ _) (Or.inl hversion)]
    exact reverses_reverseBytes_v4 hs hversion
  · have hv6 : s.version = .v6 := by
      cases hv : s.version with
      | v4 => exact absurd hv hversion
      | v6 => rfl
    rw [or_iff_right hversion]
    exact reverses_reverseBytes_v6 hs hv6

/-- **Reversing the segments, the bits and the bytes of a section.** The order of the segments can
always be reversed; the bits of every address exactly if every segment is a single value or takes
all values; and the bytes exactly if that is so or the segments are bytes. Elsewhere there is an
error, of the incompatible kind. Each result has no prefix length and holds exactly the addresses of
the section with their segments, bits or bytes in reverse order, and reversing it again succeeds and
leads back to the section without its prefix length. -/
theorem reversal_exact (s : Section) (hs : s.WellFormed) :
    s.Reverses (fun u => .ok u.reverseSegments) s.version.segmentBits s.version.segmentCount True ∧
    s.Reverses reverseBits 1 s.bitCount
      (∀ b ∈ s.bounds, b.lower = b.upper ∨ b = Bounds.full s.version.segmentBits) ∧
    s.Reverses reverseBytes 8 s.version.byteCount
      (s.version = .v4 ∨ ∀ b ∈ s.bounds, b.lower = b.upper ∨
        b = Bounds.full s.version.segmentBits) :=
  ⟨reverses_reverseSegments hs, reverses_reverseBits hs, reverses_reverseBytes hs⟩

/-- The last segment of 10.0-255.1.2-3 is neither a single value nor does it take all values, so the
bits of its addresses are not reversed, but the bytes are, which are its segments. The address 1::
is 100:: with its last byte first, and 8000:0:0:0:0:0:0:0 with its bits reversed is the address of
one. -/
theorem reversal_exact_ragged :
    let s : Section := ⟨.v4, [⟨10, 10⟩, ⟨0, 255⟩, ⟨1, 1⟩, ⟨2, 3⟩], some 8⟩
    let t : Section := ⟨.v6, ⟨0x8000, 0x8000⟩ :: List.replicate 7 ⟨0, 0⟩, some 1⟩
    s.WellFormed ∧ t.WellFormed ∧
      (∃ cause, s.reverseBits = .error cause ∧ cause.kind = .incompatible) ∧
      s.reverseBytes = .ok ⟨.v4, [⟨2, 3⟩, ⟨1, 1⟩, ⟨0, 255⟩, ⟨10, 10⟩], none⟩ ∧
      Section.values ⟨.v4, [⟨2, 3⟩, ⟨1, 1⟩, ⟨0, 255⟩, ⟨10, 10⟩], none⟩
        = Digits.reversed 8 4 '' s.values ∧
      {1} = Digits.reversed 1 128 '' t.values := by
  intro s t
  have hs : s.WellFormed := ⟨rfl, by decide, by decide, by decide⟩
  have ht : t.WellFormed := ⟨rfl, by decide, by decide, by decide⟩
  obtain ⟨-, hbits, hbytes⟩ := reversal_exact s hs
  obtain ⟨-, hword, -⟩ := reversal_exact t ht
  have hragged : s.reverseBits = .error (.bitsOfRange ⟨2, 3⟩) := by decide
  have hswapped : s.reverseBytes = .ok ⟨.v4, [⟨2, 3⟩, ⟨1, 1⟩, ⟨0, 255⟩, ⟨10, 10⟩], none⟩ := by
    decide
  have hone : t.reverseBits = .ok (ofHost ⟨.v6, 1⟩) := by decide
  have hbyteCount : s.version.byteCount = 4 := by decide
  have hbitCount : t.bitCount = 128 := rfl
  have hbytesImage := hbytes.values_eq _ hswapped
  have hbitsImage := hword.values_eq _ hone
  rw [hbyteCount] at hbytesImage
  rw [hbitCount] at hbitsImage
  refine ⟨hs, ht, ⟨_, hragged, hbits.kind_eq _ hragged⟩, hswapped, hbytesImage, ?_⟩
  rw [← hbitsImage]
  exact (values_ofDigits_split (by decide) none).symm

end Section

end IpSpace
