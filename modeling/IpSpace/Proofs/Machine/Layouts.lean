import IpSpace.Proofs.Walks
import IpSpace.Proofs.Machine.Sections

/-!
# Layouts of walks

On the machine, a walk is laid out by a number of digits and a shift. The first segments have a
digit each; the last of these counts the values of its segment without their low bits, as many as
the shift says, and the digits in front of it count values. The library gives every segment its
number of host bits instead. In front of the last digit there are none, and for the last digit there
are as many as the shift says (`hostBits_of_lt_wheelCount`), so the wheels of both are the same
(`wheels?_eq`), and so is what a tuple stands for (`blockSegments?_eq`, `groupSegments?_eq`). There
are no more digits than segments, the product of their number and the width of a segment fits into a
byte, and the shift is less than the width of a segment.
-/

namespace IpSpace

namespace Machine

/-! ## Digits and shifts -/

/-- What a walk puts into the segments: a value into each, values into the first ones, or networks
into the first ones, with all their values or with those of the source. -/
inductive Layout where
  | values
  | fixing (digits : Nat)
  | blocks (digits shift : Nat)
  | groups (digits shift : Nat)

namespace Layout

/-- The quotient of two bytes, rounded up. -/
def divCeil? (a b : Nat) : Option Nat :=
  if a % b = 0 then some (a / b) else add? 8 (a / b) 1

/-- The layout for a prefix length. -/
def ofPrefixLen? (version : Version) (p : Nat) (clipped : Bool) : Option Layout := do
  let digits ← divCeil? (min p version.bitCount) version.segmentBits
  let shift ← sub? (← mul? 8 digits version.segmentBits) (min p version.bitCount)
  return if clipped then groups digits shift else blocks digits shift

/-- Number of segments with a digit. -/
def digitCount (segmentCount : Nat) : Layout → Nat
  | values => segmentCount
  | fixing digits => digits
  | blocks digits _ => digits
  | groups digits _ => digits

/-- Number of bits that the last digit leaves out. -/
def shift : Layout → Nat
  | values => 0
  | fixing _ => 0
  | blocks _ shift => shift
  | groups _ shift => shift

end Layout

/-- The shift for a prefix length. -/
def lastShift (version : Version) (p : Nat) : Nat :=
  version.wheelCount p * version.segmentBits - p

section Digits

variable {version : Version} {p index : Nat}

/-- The number of digits of a prefix length is its quotient by the width of a segment, rounded up.
-/
theorem wheelCount_eq (hp : p ≤ version.bitCount) :
    version.wheelCount p = (p + version.segmentBits - 1) / version.segmentBits := by
  have hpos := version.segmentBits_pos
  refine Nat.min_eq_right (Nat.le_of_lt_succ ((Nat.div_lt_iff_lt_mul hpos).2 ?_))
  rw [Nat.succ_mul]
  have hwidth : version.bitCount = version.segmentCount * version.segmentBits := rfl
  omega

/-- The digits reach as far as the prefix length, and the last one begins in front of it. -/
theorem wheelCount_mul_bounds (hp : p ≤ version.bitCount) :
    p ≤ version.wheelCount p * version.segmentBits ∧
      version.wheelCount p * version.segmentBits < p + version.segmentBits := by
  have hpos := version.segmentBits_pos
  have hdiv := Nat.div_add_mod (p + version.segmentBits - 1) version.segmentBits
  have hmod := Nat.mod_lt (p + version.segmentBits - 1) hpos
  rw [wheelCount_eq hp, Nat.mul_comm]
  omega

/-- The last digit of a prefix length is moved by less than the width of a segment. -/
theorem lastShift_lt (hp : p ≤ version.bitCount) : lastShift version p < version.segmentBits := by
  have hpos := version.segmentBits_pos
  have hbounds := wheelCount_mul_bounds hp
  rw [lastShift]
  omega

/-- **Only the last digit leaves bits out.** -/
theorem hostBits_of_lt_wheelCount (hp : p ≤ version.bitCount)
    (hindex : index < version.wheelCount p) :
    version.hostBits p index
      = if index + 1 = version.wheelCount p then lastShift version p else 0 := by
  obtain ⟨hle, hlt⟩ := wheelCount_mul_bounds hp
  rw [Version.hostBits, lastShift]
  split
  case isTrue hlast =>
    rw [← hlast, Nat.succ_mul] at hle hlt ⊢
    omega
  case isFalse hinner =>
    have hmul :=
      Nat.mul_le_mul_right version.segmentBits (show index + 2 ≤ version.wheelCount p by omega)
    rw [Nat.succ_mul, Nat.succ_mul] at hmul
    omega

/-- Rounding up adds one to a quotient at most, and the sum stays within a byte. -/
theorem divCeil?_eq (hp : p ≤ version.bitCount) :
    Layout.divCeil? p version.segmentBits = some (version.wheelCount p) := by
  have hpos := version.segmentBits_pos
  have hcount := Nat.le_trans (version.wheelCount_le p) (segmentCount_le version)
  have hdiv := Nat.div_add_mod p version.segmentBits
  have hmod := Nat.mod_lt p hpos
  rw [Nat.mul_comm] at hdiv
  rw [wheelCount_eq hp] at hcount ⊢
  rw [Layout.divCeil?]
  by_cases hexact : p % version.segmentBits = 0
  · have hquotient : (p + version.segmentBits - 1) / version.segmentBits =
        p / version.segmentBits :=
      Nat.div_eq_of_lt_le (by omega) (by rw [Nat.succ_mul]; omega)
    rw [if_pos hexact, hquotient]
  · have hquotient : (p + version.segmentBits - 1) / version.segmentBits =
        p / version.segmentBits + 1 :=
      Nat.div_eq_of_lt_le (by rw [Nat.succ_mul]; omega) (by rw [Nat.succ_mul, Nat.succ_mul]; omega)
    rw [if_neg hexact, add?_eq (by omega), hquotient]

/-- **The layout for a prefix length** has a digit for every wheel. -/
theorem ofPrefixLen?_eq (version : Version) (p : Nat) (clipped : Bool) :
    Layout.ofPrefixLen? version p clipped = some
      (if clipped then .groups (version.wheelCount (min p version.bitCount))
        (lastShift version (min p version.bitCount))
      else .blocks (version.wheelCount (min p version.bitCount))
        (lastShift version (min p version.bitCount))) := by
  have hp : min p version.bitCount ≤ version.bitCount := Nat.min_le_right _ _
  have hbounds := wheelCount_mul_bounds hp
  have hroom : version.wheelCount (min p version.bitCount) * version.segmentBits < 2 ^ 8 := by
    have hbits := segmentBits_le version
    have hwidth := bitCount_le version
    omega
  rw [Layout.ofPrefixLen?, bind_eq (divCeil?_eq hp), bind_eq (mul?_eq hroom),
    bind_eq (sub?_eq hbounds.1)]
  rfl

end Digits

/-! ## Wheels -/

/-- The wheel for a segment at its place. -/
def wheel? (version : Version) (digits shift : Nat) : Bounds × Nat → Option Wheel
  | (b, index) => do
    if (← add? 64 index 1) = digits then
      return ⟨← shiftRight? 32 b.lower shift, ← shiftRight? 32 b.upper shift,
        ← shiftRight? 32 version.segmentMax shift⟩
    return ⟨b.lower, b.upper, version.segmentMax⟩

/-- The wheels for the ends of every segment of the source. -/
def wheels? (version : Version) (layout : Layout) (source : List Bounds) : Option (List Wheel) := do
  let cut ← upTo? source (layout.digitCount source.length)
  cut.zipIdx.mapM (wheel? version (layout.digitCount source.length) layout.shift)

/-- Cutting a list does not change the places of its members. -/
theorem take_mapIdx {α β : Type} (l : List α) (f : Nat → α → β) (n : Nat) :
    (l.mapIdx f).take n = (l.take n).mapIdx f := by
  refine List.ext_getElem? fun index => ?_
  rw [List.getElem?_mapIdx, List.getElem?_take, List.getElem?_take, List.getElem?_mapIdx]
  split <;> rfl

section Wheels

variable {version : Version} {layout : Layout} {source : List Bounds}

/-- The wheels, if the digits of a layout leave out as many bits as the shift and the place of a
segment say. -/
theorem wheels?_eq_mapIdx {digits shift : Nat} (hosts : Nat → Nat) (hlen : source.length < 2 ^ 32)
    (hdigits : layout.digitCount source.length = digits) (hshift : layout.shift = shift)
    (hcut : digits ≤ source.length) (hroom : shift < 32)
    (hhosts : ∀ index < digits, hosts index = if index + 1 = digits then shift else 0) :
    wheels? version layout source = some ((source.take digits).mapIdx fun index b =>
      ⟨b.lower / 2 ^ hosts index, b.upper / 2 ^ hosts index,
        version.segmentMax / 2 ^ hosts index⟩) := by
  have hwheel : ∀ place ∈ (source.take digits).zipIdx, wheel? version digits shift place
      = some ⟨place.1.lower / 2 ^ hosts place.2, place.1.upper / 2 ^ hosts place.2,
        version.segmentMax / 2 ^ hosts place.2⟩ := by
    rintro ⟨b, index⟩ hmem
    have hget := List.mem_zipIdx_iff_getElem?.1 hmem
    have hindex := (List.getElem?_eq_some_iff.1 hget).1
    rw [List.length_take] at hindex
    rw [wheel?, bind_eq (add?_eq (by omega)), hhosts index (by omega)]
    by_cases hlast : index + 1 = digits
    · rw [if_pos hlast, if_pos hlast, bind_eq (shiftRight?_eq hroom),
        bind_eq (shiftRight?_eq hroom), bind_eq (shiftRight?_eq hroom)]
      rfl
    · rw [if_neg hlast, if_neg hlast, Nat.pow_zero, Nat.div_one, Nat.div_one, Nat.div_one]
      rfl
  rw [wheels?, hdigits, hshift, bind_eq (upTo?_eq hcut), mapM_eq_some hwheel,
    List.mapIdx_eq_zipIdx_map]

variable (hlen : source.length = version.segmentCount)

include hlen

/-- **The wheels for a prefix length.** -/
theorem wheels?_eq {p : Nat} (hp : p ≤ version.bitCount)
    (hdigits : layout.digitCount source.length = version.wheelCount p)
    (hshift : layout.shift = lastShift version p) :
    wheels? version layout source = some (wheelsAt version p source) := by
  have hcount := segmentCount_le version
  have hcut := version.wheelCount_le p
  have hroom := Nat.lt_trans (lastShift_lt hp) (segmentBits_lt version)
  rw [wheels?_eq_mapIdx (version.hostBits p) (by omega) hdigits hshift (by omega) hroom
    fun index hindex => hostBits_of_lt_wheelCount hp hindex, wheelsAt, take_mapIdx]
  rfl

/-- **The wheels for values.** -/
theorem wheels?_values {digits : Nat} (hdigits : layout.digitCount source.length = digits)
    (hshift : layout.shift = 0) (hcut : digits ≤ source.length) :
    wheels? version layout source =
      some ((wheelsAt version version.bitCount source).take digits) := by
  have hcount := segmentCount_le version
  rw [wheels?_eq_mapIdx (fun _ => 0) (by omega) hdigits hshift hcut (by decide)
    fun index _ => by rw [ite_self], Section.wheelsAt_bitCount hlen, ← List.map_take]
  refine congrArg some (List.ext_getElem (by simp) fun index _ _ => ?_)
  simp only [List.getElem_mapIdx, List.getElem_map, Nat.pow_zero, Nat.div_one]

/-- A counter for all segments has a wheel for each. -/
theorem wheels?_all :
    wheels? version .values source = some (wheelsAt version version.bitCount source) := by
  have hall : (wheelsAt version version.bitCount source).length ≤ source.length := by
    rw [length_wheelsAt hlen, Section.wheelCount_bitCount, hlen]
  rw [wheels?_values hlen rfl rfl (Nat.le_refl _)]
  exact congrArg some (List.take_of_length_le hall)

end Wheels

/-! ## What a tuple stands for -/

/-- The values of the network at its place, or those of them that the source has. -/
def network? (source : List Bounds) (digits shift host : Nat) (clipped : Bool) :
    Nat × Nat → Option Bounds
  | (v, index) => do
    if (← add? 64 index 1) < digits then return Bounds.single v
    let lower ← shiftLeft? 32 v shift
    let upper := (← shiftLeft? 32 v shift) ||| host
    if clipped then
      let b ← source[index]?
      return ⟨max lower b.lower, min upper b.upper⟩
    return ⟨lower, upper⟩

/-- The segments for a tuple of networks. -/
def networks? (version : Version) (source : List Bounds) (digits shift : Nat) (clipped : Bool)
    (t : Tuple) :
    Option (List Bounds) := do
  let host ← sub? (← shiftLeft? 32 1 shift) 1
  let front ← t.zipIdx.mapM (network? source digits shift host clipped)
  let rest ← from? source digits
  return front ++ rest.map fun b => if clipped then b else ⟨0, version.segmentMax⟩

/-- The segments for a tuple. -/
def segments? (version : Version) (source : List Bounds) (t : Tuple) : Layout → Option (List Bounds)
  | .values => some (t.map Bounds.single)
  | .fixing digits => do return t.map Bounds.single ++ (← from? source digits)
  | .blocks digits shift => networks? version source digits shift false t
  | .groups digits shift => networks? version source digits shift true t

section Tuples

variable {version : Version} {source : List Bounds} {p : Nat} {t : Tuple}

/-- A network has room in its segment. -/
theorem shiftLeft?_network {n h : Nat} (hh : h < 32) (hn : n ≤ version.segmentMax / 2 ^ h) :
    shiftLeft? 32 n h = some (n * 2 ^ h) := by
  have hfits : n * 2 ^ h ≤ version.segmentMax := (Nat.le_div_iff_mul_le (Nat.two_pow_pos h)).1 hn
  exact shiftLeft?_eq_mul hh (Nat.lt_of_le_of_lt hfits (segmentMax_lt_word version))

/-- The values of a segment, or those of them that the source has. -/
def clipTo (clipped : Bool) (a b : Bounds) : Bounds :=
  if clipped then a.inter b else a

/-- **A digit stands for the values of its network**, or for those of them that the source has. In
front of the last digit a network has one value, and the source has it. -/
theorem network?_eq (hp : p ≤ version.bitCount) (clipped : Bool) {n index : Nat} {b : Bounds}
    (hindex : index < version.wheelCount p) (hb : source[index]? = some b)
    (hn : n ≤ version.segmentMax / 2 ^ version.hostBits p index)
    (hclip : clipped = true → index + 1 < version.wheelCount p → n ∈ b.values) :
    network? source (version.wheelCount p) (lastShift version p)
      (2 ^ lastShift version p - 1) clipped (n, index)
      = some (clipTo clipped (Bounds.ofNetwork n (version.hostBits p index)) b) := by
  have hcount := Nat.le_trans (version.wheelCount_le p) (segmentCount_le version)
  have hroom := Nat.lt_trans (lastShift_lt hp) (segmentBits_lt version)
  have hshift := hostBits_of_lt_wheelCount hp hindex
  rw [network?, bind_eq (add?_eq (by omega)), hshift]
  rw [hshift] at hn
  -- Only the last digit is moved; the ones in front of it are values as they are.
  by_cases hlast : index + 1 = version.wheelCount p
  · rw [if_pos hlast] at hn
    rw [if_neg (by omega), if_pos hlast, bind_eq (shiftLeft?_network hroom hn),
      bind_eq (shiftLeft?_network hroom hn), mul_or_hostMask]
    cases clipped with
    | false => rfl
    | true => exact bind_eq hb
  · have hsingle : Bounds.ofNetwork n 0 = Bounds.single n := by
      rw [Bounds.ofNetwork, Nat.pow_zero, Nat.mul_one]
      rfl
    rw [if_pos (by omega), if_neg hlast, hsingle]
    cases clipped with
    | false => rfl
    | true =>
        obtain ⟨hlower, hupper⟩ := hclip rfl (by omega)
        rw [clipTo, if_pos rfl, Bounds.inter, Bounds.single, Nat.max_eq_left hlower,
          Nat.min_eq_left hupper]
        rfl

/-- Behind the digits, a segment takes any value, or those that the source has. -/
theorem clipTo_full (clipped : Bool) {b : Bounds}
    (hb : clipped = true → b.Within version.segmentBits) :
    (if clipped then b else ⟨0, version.segmentMax⟩)
      = clipTo clipped (Bounds.full version.segmentBits) b := by
  cases clipped with
  | false => rfl
  | true =>
      have hupper := (hb rfl).upper_lt
      show b = (Bounds.full version.segmentBits).inter b
      rw [Bounds.inter, Bounds.full, Nat.max_eq_right (Nat.zero_le _),
        Nat.min_eq_right (Nat.le_sub_one_of_lt hupper)]

variable (hp : p ≤ version.bitCount) (ht : IsNetworkTuple version p t)
  (hlen : source.length = version.segmentCount)

include hp ht hlen

/-- **The digits of a tuple stand for the values of their networks**, or for those of them that the
source has. -/
theorem mapM_network?_eq (clipped : Bool)
    (hclip : clipped = true → ∀ index n b, index + 1 < version.wheelCount p → t[index]? = some n →
      source[index]? = some b → n ∈ b.values) :
    t.zipIdx.mapM (network? source (version.wheelCount p) (lastShift version p)
      (2 ^ lastShift version p - 1) clipped)
      = some (t.zipIdx.map fun place => clipTo clipped
          (Bounds.ofNetwork place.1 (version.hostBits p place.2))
          (source[place.2]?.getD (Bounds.full version.segmentBits))) := by
  have hcut := version.wheelCount_le p
  apply mapM_eq_some
  rintro ⟨n, index⟩ hplace
  have hget : t[index]? = some n := List.mem_zipIdx_iff_getElem?.1 hplace
  obtain ⟨hindex, rfl⟩ := List.getElem?_eq_some_iff.1 hget
  have hwheel : index < version.wheelCount p := ht.length_eq ▸ hindex
  have hb : source[index]? = some source[index] := List.getElem?_eq_getElem (by omega)
  rw [hb]
  exact network?_eq hp clipped hwheel hb (ht.le_max index hindex)
    fun hclipped hinner => hclip hclipped index _ _ hinner hget hb

/-- **A tuple stands for its block**, or for what its block has in common with the source. -/
theorem networks?_eq (clipped : Bool)
    (hwithin : clipped = true → ∀ b ∈ source, b.Within version.segmentBits)
    (hclip : clipped = true → ∀ index n b, index + 1 < version.wheelCount p → t[index]? = some n →
      source[index]? = some b → n ∈ b.values) :
    networks? version source (version.wheelCount p) (lastShift version p) clipped t
      = some ((blockOf version p t).bounds.zipWith (clipTo clipped) source) := by
  have hroom := Nat.lt_trans (lastShift_lt hp) (segmentBits_lt version)
  have hcut := version.wheelCount_le p
  have hle := ht.length_le
  have hlength := ht.length_eq
  have hbounds := (blockOf_bounds version p t).symm ▸ length_tupleBox hle
  rw [networks?, bind_eq (shiftLeft?_one hroom), bind_eq (sub?_eq (Nat.two_pow_pos _)),
    bind_eq (mapM_network?_eq hp ht hlen clipped hclip), bind_eq (from?_eq (by omega))]
  refine congrArg some (List.ext_getElem ?_ fun index hindex hzip => ?_)
  · rw [List.length_append, List.length_map, List.length_map, List.length_zipIdx, List.length_drop,
      List.length_zipWith, hbounds]
    omega
  · rw [List.length_zipWith, hbounds] at hzip
    have hin : index < source.length := by omega
    rw [List.getElem_zipWith, List.getElem_append]
    simp only [blockOf_bounds, tupleBox, List.getElem_append, List.length_map, List.length_zipIdx,
      length_networkBox]
    split
    case isTrue =>
      simp only [List.getElem_map, List.getElem_zipIdx, networkBox, List.getElem_mapIdx,
        Nat.zero_add, List.getElem?_eq_getElem hin]
      rfl
    case isFalse =>
      -- Behind the digits, the machine goes on where the source is cut.
      have hplace : version.wheelCount p + (index - t.length) = index := by omega
      simp only [List.getElem_map, List.getElem_drop, List.getElem_replicate, hplace]
      exact clipTo_full clipped fun hclipped => hwithin hclipped _ (List.getElem_mem hin)

/-- **The segments of a block are put together of its tuple**: the networks in front, and any value
behind them. -/
theorem segments?_blocks :
    segments? version source t (.blocks (version.wheelCount p) (lastShift version p))
      = some (blockOf version p t).bounds := by
  have hbounds := (blockOf_bounds version p t).symm ▸ length_tupleBox ht.length_le
  have hwhole : (blockOf version p t).bounds.zipWith (clipTo false) source =
      (blockOf version p t).bounds :=
    List.ext_getElem (by rw [List.length_zipWith, hbounds, hlen, Nat.min_self]) fun index _ _ => by
      rw [List.getElem_zipWith]
      rfl
  rw [segments?, networks?_eq hp ht hlen false (fun hclipped => by cases hclipped)
    (fun hclipped => by cases hclipped), hwhole]

/-- **The segments of a group are those of the block, cut to the values of the section.** In front
of the last digit they are single values, and these are values of the section. -/
theorem segments?_groups (hwithin : ∀ b ∈ source, b.Within version.segmentBits)
    (hclip : ∀ index n b, index + 1 < version.wheelCount p → t[index]? = some n →
      source[index]? = some b → n ∈ b.values) :
    segments? version source t (.groups (version.wheelCount p) (lastShift version p))
      = some ((blockOf version p t).bounds.zipWith Bounds.inter source) :=
  networks?_eq hp ht hlen true (fun _ => hwithin) fun _ => hclip

end Tuples

end Machine

end IpSpace
