import IpSpace.Enumeration.Walk
import IpSpace.Proofs.Enumeration
import IpSpace.Proofs.Networks
import IpSpace.Proofs.Sequential

/-!
# Tuples of networks

The wheels for a prefix length show the networks of the segments that are not all host. What they
can show fits the segments (`IsNetworkTuple`), so the block of such a tuple is a section.

The networks of a word are those of its digits, as many as there are wheels. Only the last of these
digits can have host bits, so taking networks keeps the order of words (`networkDigits_le`). In the
other direction, a tuple up to the networks of a word has a block that begins no later than the word
(`boxLower_le_value`), and a tuple from the networks of a word on has a block that ends no earlier
(`value_le_boxUpper`). All three follow the digits from the first one on. For the networks of an
address (`Version.networks`) the first one says that they are in the order of the addresses
(`Version.networks_le`).
-/

namespace IpSpace

open Digits (Fit)

/-! ## Networks of digits -/

section Digits

variable {width : Nat}

/-- The networks of digits for the prefix length `p`. -/
def networkDigits (width p : Nat) (digits : List Nat) : List Nat :=
  digits.mapIdx fun index d => d / 2 ^ (width - (p - index * width))

/-- The bounds of the networks of a tuple for the prefix length `p`. -/
def networkBox (width p : Nat) (t : Tuple) : List Bounds :=
  t.mapIdx fun index network => Bounds.ofNetwork network (width - (p - index * width))

/-- Behind the first digit, the prefix length is less by the width of a digit. -/
private theorem host_succ (p index : Nat) :
    width - (p - (index + 1) * width) = width - (p - width - index * width) := by
  rw [Nat.succ_mul]
  omega

/-- The first network leaves out the host bits of the first segment. -/
theorem networkDigits_cons (p d : Nat) (ds : List Nat) :
    networkDigits width p (d :: ds)
      = d / 2 ^ (width - p) :: networkDigits width (p - width) ds := by
  simp only [networkDigits, List.mapIdx_cons, Nat.zero_mul, Nat.sub_zero, host_succ]

/-- The first network widens the first segment. -/
theorem networkBox_cons (p n : Nat) (t : Tuple) :
    networkBox width p (n :: t)
      = Bounds.ofNetwork n (width - p) :: networkBox width (p - width) t := by
  simp only [networkBox, List.mapIdx_cons, Nat.zero_mul, Nat.sub_zero, host_succ]

@[simp]
theorem length_networkBox (p : Nat) (t : Tuple) : (networkBox width p t).length = t.length := by
  simp [networkBox]

/-- The bounds of a network are the block of its first value. -/
theorem Bounds.ofNetwork_eq_block (n h : Nat) :
    Bounds.ofNetwork n h = (Bounds.single (n * 2 ^ h)).block h := by
  have hdiv : n * 2 ^ h / 2 ^ h = n := Nat.mul_div_cancel _ (Nat.two_pow_pos h)
  simp only [ofNetwork, block, single, Bits.blockStart, Bits.blockEnd, hdiv]

/-- A network of the values of a segment has values of the segment. -/
theorem Bounds.within_ofNetwork {n h : Nat} (hh : h ≤ width) (hn : n ≤ (2 ^ width - 1) / 2 ^ h) :
    (Bounds.ofNetwork n h).Within width := by
  have hpos := Nat.two_pow_pos width
  have hle : n * 2 ^ h ≤ 2 ^ width - 1 := (Nat.le_div_iff_mul_le (Nat.two_pow_pos h)).1 hn
  rw [ofNetwork_eq_block]
  exact block_within (within_single (by omega)) hh

/-- **Taking networks keeps the order of words**, for as many digits as have bits in front of the
boundary: all of these but the last are networks by themselves. -/
theorem networkDigits_le {k p : Nat} {ds es : List Nat} (hd : Fit width ds) (he : Fit width es)
    (hlen : ds.length = es.length) (hk : width * k < p + width)
    (hle : Digits.value width ds ≤ Digits.value width es) :
    (networkDigits width p ds).take k ≤ (networkDigits width p es).take k := by
  induction k generalizing p ds es with
  | zero =>
      rw [List.take_zero, List.take_zero]
  | succ k ih =>
      cases ds with
      | nil =>
          rw [List.eq_nil_of_length_eq_zero hlen.symm]
      | cons d ds =>
          cases es with
          | nil => cases hlen
          | cons e es =>
              rw [Digits.fit_cons] at hd he
              have htail : ds.length = es.length := Nat.succ.inj hlen
              have hr := Digits.value_lt hd.2
              have hq := Digits.value_lt he.2
              rw [Digits.value, Digits.value, htail] at hle
              rw [htail] at hr
              rw [Digits.le_cons_iff hr, (Digits.mul_add_div_mod hq).1,
                (Digits.mul_add_div_mod hq).2] at hle
              rw [networkDigits_cons, networkDigits_cons, List.take_succ_cons, List.take_succ_cons,
                Counting.cons_le_cons]
              rw [Nat.mul_succ] at hk
              have hrest : width * k < p - width + width := by omega
              obtain hlt | ⟨rfl, hle⟩ := hle
              · by_cases hone : k = 0
                · -- The last wheel need not tell the two words apart.
                  rw [hone, List.take_zero, List.take_zero]
                  have hdiv : d / 2 ^ (width - p) ≤ e / 2 ^ (width - p) :=
                    Nat.div_le_div_right (Nat.le_of_lt hlt)
                  obtain hlt | heq := Nat.lt_or_eq_of_le hdiv
                  · exact Or.inl hlt
                  · exact Or.inr ⟨heq, le_refl _⟩
                · have hwidth : width ≤ width * k := Nat.le_mul_of_pos_right width (by omega)
                  rw [show width - p = 0 by omega, Nat.pow_zero, Nat.div_one, Nat.div_one]
                  exact Or.inl hlt
              · exact Or.inr ⟨rfl, ih hd.2 he.2 htail hrest hle⟩

/-! ## Blocks of tuples -/

/-- The bounds of the block of a tuple in words of `n` digits. -/
def tupleBox (width p n : Nat) (t : Tuple) : List Bounds :=
  networkBox width p t ++ List.replicate (n - t.length) (Bounds.full width)

/-- Without a network, all segments are full. -/
theorem tupleBox_nil (p n : Nat) : tupleBox width p n [] = List.replicate n (Bounds.full width) :=
  rfl

theorem tupleBox_cons (p n m : Nat) (t : Tuple) :
    tupleBox width p (n + 1) (m :: t)
      = Bounds.ofNetwork m (width - p) :: tupleBox width (p - width) n t := by
  rw [tupleBox, networkBox_cons, List.length_cons, Nat.add_sub_add_right, List.cons_append]
  rfl

theorem length_tupleBox {p n : Nat} {t : Tuple} (h : t.length ≤ n) :
    (tupleBox width p n t).length = n := by
  rw [tupleBox, List.length_append, length_networkBox, List.length_replicate]
  omega

/-- The segments of a tuple are within their width if those of its networks are. -/
theorem within_tupleBox {p n : Nat} {t : Tuple}
    (h : ∀ b ∈ networkBox width p t, b.Within width) :
    ∀ b ∈ tupleBox width p n t, b.Within width := by
  intro b hb
  obtain hb | hb := List.mem_append.1 hb
  · exact h b hb
  · rw [List.eq_of_mem_replicate hb]
    exact Bounds.within_full width

/-- **A block up to the networks of a word begins no later than the word.** -/
theorem boxLower_le_value {p : Nat} {t : Tuple} {ds : List Nat}
    (hwithin : ∀ b ∈ networkBox width p t, b.Within width) (hlen : t.length ≤ ds.length)
    (hle : t ≤ (networkDigits width p ds).take t.length) :
    boxLower width (tupleBox width p ds.length t) ≤ Digits.value width ds := by
  induction t generalizing p ds with
  | nil =>
      rw [tupleBox_nil, (box_of_full fun c hc => List.eq_of_mem_replicate hc).2.1]
      exact Nat.zero_le _
  | cons n t ih =>
      cases ds with
      | nil => cases hlen
      | cons e es =>
          have htail : t.length ≤ es.length := Nat.le_of_succ_le_succ hlen
          rw [networkBox_cons, List.forall_mem_cons] at hwithin
          rw [List.length_cons, networkDigits_cons, List.take_succ_cons, Counting.cons_le_cons]
            at hle
          rw [List.length_cons, tupleBox_cons, boxLower_cons, length_tupleBox htail, Digits.value]
          have hrest := lt_of_mem_box (boxLower_mem (within_tupleBox (n := es.length) hwithin.2))
          rw [length_tupleBox htail] at hrest
          have hdiv := Digits.div_mul_add_mod e (2 ^ (width - p))
          have hpos := Nat.two_pow_pos (width - p)
          show n * 2 ^ (width - p) * _ + _ ≤ _
          obtain hlt | ⟨rfl, hle⟩ := hle
          · -- The network lies before that of the digit, so it begins with a smaller digit.
            have hmul := Nat.mul_le_mul_right (2 ^ (width - p)) (Nat.succ_le_of_lt hlt)
            rw [Nat.succ_mul] at hmul
            have hnext : n * 2 ^ (width - p) + 1 ≤ e := by omega
            have hword := Nat.mul_le_mul_right (2 ^ (width * es.length)) hnext
            rw [Nat.succ_mul] at hword
            omega
          · have hnext : e / 2 ^ (width - p) * 2 ^ (width - p) ≤ e := by omega
            have hword := Nat.mul_le_mul_right (2 ^ (width * es.length)) hnext
            have hih := ih hwithin.2 htail hle
            omega

/-- **A block from the networks of a word on ends no earlier than the word.** -/
theorem value_le_boxUpper {p : Nat} {t : Tuple} {ds : List Nat} (hfit : Fit width ds)
    (hlen : t.length ≤ ds.length) (hle : (networkDigits width p ds).take t.length ≤ t) :
    Digits.value width ds ≤ boxUpper width (tupleBox width p ds.length t) := by
  induction t generalizing p ds with
  | nil =>
      have hvalue := Digits.value_lt hfit
      have hfull := (box_of_full fun c (hc : c ∈ List.replicate ds.length (Bounds.full width)) =>
        List.eq_of_mem_replicate hc).2.2
      rw [List.length_replicate] at hfull
      rw [tupleBox_nil]
      omega
  | cons n t ih =>
      cases ds with
      | nil => cases hlen
      | cons e es =>
          have htail : t.length ≤ es.length := Nat.le_of_succ_le_succ hlen
          rw [Digits.fit_cons] at hfit
          rw [List.length_cons, networkDigits_cons, List.take_succ_cons, Counting.cons_le_cons]
            at hle
          rw [List.length_cons, tupleBox_cons, boxUpper_cons, length_tupleBox htail, Digits.value]
          have hrest := Digits.value_lt hfit.2
          have hdiv := Digits.div_mul_add_mod e (2 ^ (width - p))
          have hmod := Nat.mod_lt e (Nat.two_pow_pos (width - p))
          show _ ≤ (n * 2 ^ (width - p) + (2 ^ (width - p) - 1)) * _ + _
          obtain hlt | ⟨rfl, hle⟩ := hle
          · -- The network lies behind that of the digit, so it ends with a larger digit.
            have hmul := Nat.mul_le_mul_right (2 ^ (width - p)) (Nat.succ_le_of_lt hlt)
            rw [Nat.succ_mul] at hmul
            have hnext : e + 1 ≤ n * 2 ^ (width - p) + (2 ^ (width - p) - 1) := by omega
            have hword := Nat.mul_le_mul_right (2 ^ (width * es.length)) hnext
            rw [Nat.succ_mul] at hword
            omega
          · have hnext : e ≤ e / 2 ^ (width - p) * 2 ^ (width - p) + (2 ^ (width - p) - 1) := by
              omega
            have hword := Nat.mul_le_mul_right (2 ^ (width * es.length)) hnext
            have hih := ih hfit.2 htail hle
            omega

end Digits

/-! ## Wheels for a prefix length -/

section Wheels

variable {version : Version} {p : Nat} {ends : List Bounds} {t : Tuple}

/-- A value for every wheel of a prefix length, each a network of the values of a segment. -/
structure IsNetworkTuple (version : Version) (p : Nat) (t : Tuple) : Prop where
  length_eq : t.length = version.wheelCount p
  le_max : ∀ index (h : index < t.length),
    t[index] ≤ version.segmentMax / 2 ^ version.hostBits p index

theorem Version.wheelCount_le (version : Version) (p : Nat) :
    version.wheelCount p ≤ version.segmentCount :=
  Nat.min_le_left _ _

/-- Every wheel but the last is for a segment in front of the boundary. -/
theorem Version.mul_wheelCount_lt (version : Version) (p : Nat) :
    version.segmentBits * version.wheelCount p < p + version.segmentBits := by
  have hpos := version.segmentBits_pos
  calc version.segmentBits * version.wheelCount p
      ≤ version.segmentBits * ((p + version.segmentBits - 1) / version.segmentBits) :=
        Nat.mul_le_mul_left _ (Nat.min_le_right _ _)
    _ ≤ p + version.segmentBits - 1 := Nat.mul_div_le _ _
    _ < p + version.segmentBits := by omega

/-- A counter has as many wheels as the prefix length has digits. -/
theorem length_wheelsAt (hlen : ends.length = version.segmentCount) :
    (wheelsAt version p ends).length = version.wheelCount p := by
  rw [wheelsAt, List.length_take, List.length_mapIdx, hlen]
  exact Nat.min_eq_left (version.wheelCount_le p)

/-- The wheels, by the places of their segments. -/
theorem getElem_wheelsAt {index : Nat} (h : index < (wheelsAt version p ends).length)
    (hb : index < ends.length) :
    (wheelsAt version p ends)[index]
      = ⟨ends[index].lower / 2 ^ version.hostBits p index,
          ends[index].upper / 2 ^ version.hostBits p index,
          version.segmentMax / 2 ^ version.hostBits p index⟩ := by
  simp [wheelsAt, Bounds.networks]

theorem lt_length_of_wheelsAt {index : Nat} (h : index < (wheelsAt version p ends).length) :
    index < ends.length := by
  rw [wheelsAt, List.length_take, List.length_mapIdx] at h
  omega

/-- Wheels for values of segments have neither end past their largest value. -/
theorem inRange_of_mem_wheelsAt
    (hends : ∀ b ∈ ends, b.lower ≤ version.segmentMax ∧ b.upper ≤ version.segmentMax) :
    ∀ w ∈ wheelsAt version p ends, Counting.InRange w := by
  intro w hw
  obtain ⟨index, h, rfl⟩ := List.getElem_of_mem hw
  have hb := lt_length_of_wheelsAt h
  obtain ⟨hlower, hupper⟩ := hends _ (List.getElem_mem hb)
  rw [getElem_wheelsAt h hb]
  exact ⟨Nat.div_le_div_right hlower, Nat.div_le_div_right hupper⟩

/-- What the wheels can show is a tuple of networks. -/
theorem isNetworkTuple_of_le_max (hlen : ends.length = version.segmentCount)
    (ht : List.Forall₂ (fun w d => d ≤ w.max) (wheelsAt version p ends) t) :
    IsNetworkTuple version p t := by
  have htlen := ht.length_eq
  refine ⟨?_, fun index h => ?_⟩
  · rw [← htlen, length_wheelsAt hlen]
  · have hw : index < (wheelsAt version p ends).length := htlen ▸ h
    have hle := ht.get hw h
    rw [List.get_eq_getElem, List.get_eq_getElem,
      getElem_wheelsAt hw (lt_length_of_wheelsAt hw)] at hle
    exact hle

/-- A tuple of networks is no longer than an address. -/
theorem IsNetworkTuple.length_le (ht : IsNetworkTuple version p t) :
    t.length ≤ version.segmentCount := by
  rw [ht.length_eq]
  exact version.wheelCount_le p

/-- The networks of a tuple are within the width of a segment. -/
theorem IsNetworkTuple.within (ht : IsNetworkTuple version p t) :
    ∀ b ∈ networkBox version.segmentBits p t, b.Within version.segmentBits := by
  intro b hb
  obtain ⟨index, h, rfl⟩ := List.mem_mapIdx.1 hb
  exact Bounds.within_ofNetwork (Nat.sub_le _ _) (ht.le_max index h)

theorem blockOf_bounds (version : Version) (p : Nat) (t : Tuple) :
    (blockOf version p t).bounds = tupleBox version.segmentBits p version.segmentCount t :=
  rfl

/-- The block of a tuple of networks is a section. -/
theorem wellFormed_blockOf (ht : IsNetworkTuple version p t) (hp : p ≤ version.bitCount) :
    (blockOf version p t).WellFormed := by
  refine Section.wellFormed_of_within ?_ ?_ fun q hq => ?_
  · exact length_tupleBox ht.length_le
  · exact within_tupleBox ht.within
  · rw [← Option.some.inj hq]
    exact hp

/-- With the full width as prefix length, a tuple of networks makes up an address. -/
theorem wellFormed_ofDigits_of_isNetworkTuple {prefixLen : Option Nat}
    (ht : IsNetworkTuple version version.bitCount t)
    (hp : ∀ q ∈ prefixLen, q ≤ version.bitCount) :
    (Section.ofDigits version t prefixLen).WellFormed := by
  refine Section.wellFormed_ofDigits ?_ (fun d hd => ?_) hp
  · rw [ht.length_eq, Section.wheelCount_bitCount]
  · obtain ⟨index, h, rfl⟩ := List.getElem_of_mem hd
    have hle := Nat.le_trans (ht.le_max index h) (Nat.div_le_self _ _)
    exact Version.le_segmentMax_iff.1 hle

end Wheels

/-! ## Networks of an address -/

namespace Version

variable {version : Version} {p x y : Nat}

/-- The networks of an address for the prefix length `p`, in every segment that is not all host. -/
def networks (version : Version) (p x : Nat) : Tuple :=
  (networkDigits version.segmentBits p (version.split x)).take (version.wheelCount p)

theorem length_networks (version : Version) (p x : Nat) :
    (version.networks p x).length = version.wheelCount p := by
  have hle := version.wheelCount_le p
  simp only [networks, networkDigits, List.length_take, List.length_mapIdx, length_split]
  omega

/-- The networks, by the places of their segments. -/
theorem getElem_networks {index : Nat} (h : index < (version.networks p x).length)
    (hsplit : index < (version.split x).length) :
    (version.networks p x)[index] = (version.split x)[index] / 2 ^ version.hostBits p index := by
  simp [networks, networkDigits, hostBits]

/-- The networks of an address are a tuple of networks. -/
theorem isNetworkTuple_networks (version : Version) (p x : Nat) :
    IsNetworkTuple version p (version.networks p x) where
  length_eq := version.length_networks p x
  le_max index h := by
    have hsplit : index < (version.split x).length := by
      rw [length_networks] at h
      rw [length_split]
      exact Nat.lt_of_lt_of_le h (version.wheelCount_le p)
    rw [getElem_networks h hsplit]
    refine Nat.div_le_div_right (le_segmentMax_iff.2 ?_)
    exact version.fit_split x _ (List.getElem_mem hsplit)

/-- Networks are in the order of the addresses. -/
theorem networks_le (hy : y ≤ version.maxValue) (hle : x ≤ y) :
    version.networks p x ≤ version.networks p y := by
  refine networkDigits_le (version.fit_split x) (version.fit_split y) ?_
    (version.mul_wheelCount_lt p) ?_
  · rw [length_split, length_split]
  · have hx := Nat.le_trans hle hy
    rwa [split, split, Digits.value_split (le_maxValue_iff.1 hx),
      Digits.value_split (le_maxValue_iff.1 hy)]

/-- Behind the wheels, all bits are host bits. -/
theorem hostBits_of_wheelCount_le {index : Nat} (hwheel : version.wheelCount p ≤ index)
    (hindex : index < version.segmentCount) : version.hostBits p index = version.segmentBits := by
  have hpos := version.segmentBits_pos
  have hcount : (p + version.segmentBits - 1) / version.segmentBits ≤ index := by
    rw [wheelCount] at hwheel
    omega
  rw [← Nat.lt_succ_iff, Nat.div_lt_iff_lt_mul hpos, Nat.succ_mul] at hcount
  have hle : p ≤ index * version.segmentBits := by omega
  rw [hostBits, Nat.sub_eq_zero_of_le hle, Nat.sub_zero]

end Version

end IpSpace
