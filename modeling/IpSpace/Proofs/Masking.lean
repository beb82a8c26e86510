import IpSpace.Proofs.MaskedRanges
import IpSpace.Proofs.Networks

/-!
# Bounds of masked segments

Masking a range of values of some width yields a range of values of that width, with its ends in
order, wherever it is reported as contiguous: its values are values under the mask, and there are
some (`Masked.Describes.within`).

The masks of a host conversion keep or set all bits below some place. They take every value to the
start or to the end of its block (`and_networkMask`, `or_hostMask`), so the ends of a range stay in
order even where the result has holes.

Where there are holes the two ends are masked by themselves, so together with what is proved about
contiguous results it is known what is reported in every case (`reports_maskRange_orRange`).
-/

namespace IpSpace

variable {width lower upper mask h x : Nat}

/-! ## Bits of a word -/

namespace Bits

theorem blockEnd_lt (hx : x < 2 ^ width) (hh : h ≤ width) : blockEnd h x < 2 ^ width :=
  (Bounds.block_within (Bounds.within_single hx) hh).upper_lt

/-- Keeping the bits above the host bits takes a value to the start of its block. -/
theorem and_networkMask (hx : x < 2 ^ width) (hh : h ≤ width) :
    x &&& (2 ^ width - 1 - (2 ^ h - 1)) = blockStart h x := by
  have hpos := Nat.two_pow_pos h
  have hpow : 2 ^ width = 2 ^ (width - h) * 2 ^ h := by rw [← Nat.pow_add, Nat.sub_add_cancel hh]
  have hmask : 2 ^ width - 1 - (2 ^ h - 1) = (2 ^ (width - h) - 1) * 2 ^ h := by
    rw [Nat.sub_mul, ← hpow]
    omega
  have hdiv : x / 2 ^ h < 2 ^ (width - h) := by
    apply Nat.div_lt_of_lt_mul
    rwa [Nat.mul_comm, ← hpow]
  rw [blockStart, ← Digits.div_mul_add_mod (x &&& _) (2 ^ h), Nat.and_div_two_pow,
    Nat.and_mod_two_pow, hmask, Nat.mul_div_cancel _ hpos, Nat.mul_mod_left, Nat.and_zero,
    Nat.and_two_pow_sub_one_of_lt_two_pow hdiv, Nat.add_zero]

/-- Setting the host bits takes a value to the end of its block. -/
theorem or_hostMask (h x : Nat) : x ||| (2 ^ h - 1) = blockEnd h x := by
  have hpos := Nat.two_pow_pos h
  have hlt : 2 ^ h - 1 < 2 ^ h := by omega
  have hlow : x % 2 ^ h ||| (2 ^ h - 1) = 2 ^ h - 1 := by
    have hupper := Nat.or_lt_two_pow (Nat.mod_lt x hpos) hlt
    have hlower : 2 ^ h - 1 ≤ x % 2 ^ h ||| (2 ^ h - 1) := Nat.right_le_or
    omega
  rw [blockEnd, ← Digits.div_mul_add_mod (x ||| _) (2 ^ h), Nat.or_div_two_pow, Nat.or_mod_two_pow,
    Nat.div_eq_of_lt hlt, Nat.mod_eq_of_lt hlt, Nat.or_zero, hlow]

end Bits

/-! ## Contiguous results -/

/-- A contiguous report about words is a range of words. -/
theorem Masked.Describes.within {m : Masked} {values : Set Nat} (h : m.Describes values)
    (hne : values.Nonempty) (hwords : ∀ x ∈ values, x < 2 ^ width) (hc : m.contiguous = true) :
    m.bounds.Within width := by
  rw [h.eq_Icc hc] at hne hwords
  have hle : m.lower ≤ m.upper := Set.nonempty_Icc.1 hne
  exact ⟨hle, hwords m.upper ⟨hle, Nat.le_refl _⟩⟩

/-- A contiguous result of masking a range with "and" is a range. -/
theorem within_maskRange (hle : lower ≤ upper) (hupper : upper < 2 ^ width)
    (hc : (maskRange lower upper mask (2 ^ width - 1)).contiguous = true) :
    (maskRange lower upper mask (2 ^ width - 1)).bounds.Within width := by
  refine (describes_maskRange hle hupper mask).within ((Set.nonempty_Icc.2 hle).image _) ?_ hc
  rintro _ ⟨x, hx, rfl⟩
  exact Nat.lt_of_le_of_lt Nat.and_le_left (Nat.lt_of_le_of_lt hx.2 hupper)

/-- The complements of the words of a range are the words of a range. -/
theorem Bounds.Within.complement {b : Bounds} (h : b.Within width) :
    Bounds.Within width ⟨(2 ^ width - 1) ^^^ b.upper, (2 ^ width - 1) ^^^ b.lower⟩ := by
  have hlower : b.lower < 2 ^ width := Nat.lt_of_le_of_lt h.lower_le_upper h.upper_lt
  rw [Bits.xor_max hlower, Bits.xor_max h.upper_lt]
  exact ⟨Nat.sub_le_sub_left h.lower_le_upper _,
    Nat.lt_of_le_of_lt (Nat.sub_le _ _) (Nat.sub_lt (Nat.two_pow_pos _) Nat.one_pos)⟩

/-- A contiguous result of masking a range with "or" is a range. -/
theorem within_orRange (hle : lower ≤ upper) (hupper : upper < 2 ^ width)
    (hc : (orRange lower upper mask (2 ^ width - 1)).contiguous = true) :
    (orRange lower upper mask (2 ^ width - 1)).bounds.Within width := by
  have hends := Bounds.Within.complement (b := ⟨lower, upper⟩) ⟨hle, hupper⟩
  unfold orRange at hc ⊢
  simp only at hc ⊢
  split
  case isFalse hbroken => simp [hbroken] at hc
  case isTrue hcontiguous =>
    exact (within_maskRange hends.lower_le_upper hends.upper_lt hcontiguous).complement

/-! ## Results with holes -/

/-- Where masking with "and" leaves holes, the two ends are masked. -/
theorem bounds_maskRange_of_holes {max : Nat}
    (hc : (maskRange lower upper mask max).contiguous = false) :
    (maskRange lower upper mask max).bounds = ⟨lower &&& mask, upper &&& mask⟩ := by
  unfold maskRange at hc ⊢
  simp only at hc ⊢
  split
  case isTrue hends => simp [hends, Masked.exact] at hc
  case isFalse hends =>
    rw [if_neg hends] at hc
    split
    case isTrue hnone => simp [hnone, Masked.exact] at hc
    case isFalse hnone =>
      rw [if_neg hnone] at hc
      split
      case isTrue => rfl
      case isFalse hrun =>
        rw [if_neg hrun] at hc
        split
        case isTrue hall => simp [hall, Masked.exact] at hc
        case isFalse hall =>
          rw [if_neg hall] at hc
          split
          case isTrue hfull => simp [hfull, Masked.exact] at hc
          case isFalse => rfl

/-- Where masking with "or" leaves holes, the two ends are masked. -/
theorem bounds_orRange_of_holes {max : Nat}
    (hc : (orRange lower upper mask max).contiguous = false) :
    (orRange lower upper mask max).bounds = ⟨lower ||| mask, upper ||| mask⟩ := by
  unfold orRange at hc ⊢
  simp only at hc ⊢
  split
  case isTrue hcontiguous => simp [hcontiguous, Masked.exact] at hc
  case isFalse => rfl

/-! ## Exact reports -/

/-- What a masked range reports is the whole truth about the values of `f` from `lower` to `upper`.
It is contiguous exactly if these make up an interval, and then has the least and the greatest of
them; otherwise it has the values at the two ends. -/
structure Masked.Reports (m : Masked) (f : Nat → Nat) (lower upper : Nat) : Prop where
  contiguous_iff : m.contiguous = true ↔
    ∃ low high, f '' Set.Icc lower upper = Set.Icc low high
  isLeast : m.contiguous = true → IsLeast (f '' Set.Icc lower upper) m.lower
  isGreatest : m.contiguous = true → IsGreatest (f '' Set.Icc lower upper) m.upper
  ends : m.contiguous = false → m.lower = f lower ∧ m.upper = f upper

/-- A right description is the whole truth if its bounds are the values at the ends where there are
holes. -/
theorem Masked.Describes.reports {m : Masked} {f : Nat → Nat} (hle : lower ≤ upper)
    (h : m.Describes (f '' Set.Icc lower upper))
    (hends : m.contiguous = false → m.bounds = ⟨f lower, f upper⟩) : m.Reports f lower upper := by
  have hinterval : m.contiguous = true →
      m.lower ≤ m.upper ∧ f '' Set.Icc lower upper = Set.Icc m.lower m.upper := by
    intro hc
    have hne := (Set.nonempty_Icc.2 hle).image f
    rw [h.eq_Icc hc] at hne
    exact ⟨Set.nonempty_Icc.1 hne, h.eq_Icc hc⟩
  constructor
  case contiguous_iff =>
    rw [h.contiguous_iff]
    constructor
    · intro hconnected
      exact ⟨_, _, h.eq_Icc (h.contiguous_iff.2 hconnected)⟩
    · rintro ⟨low, high, himage⟩
      rw [himage]
      exact Set.ordConnected_Icc
  case isLeast =>
    intro hc
    obtain ⟨hbounds, himage⟩ := hinterval hc
    rw [himage]
    exact isLeast_Icc hbounds
  case isGreatest =>
    intro hc
    obtain ⟨hbounds, himage⟩ := hinterval hc
    rw [himage]
    exact isGreatest_Icc hbounds
  case ends =>
    intro hc
    exact Bounds.mk.inj (hends hc)

/-- **Masking a range reports exactly what becomes of it**, with "and" and with "or", for words of
any width. -/
theorem reports_maskRange_orRange (width lower upper mask : Nat) (hle : lower ≤ upper)
    (hupper : upper ≤ 2 ^ width - 1) (hmask : mask ≤ 2 ^ width - 1) :
    (maskRange lower upper mask (2 ^ width - 1)).Reports (· &&& mask) lower upper ∧
      (orRange lower upper mask (2 ^ width - 1)).Reports (· ||| mask) lower upper := by
  have hpos := Nat.two_pow_pos width
  have hupper : upper < 2 ^ width := by omega
  have hmask : mask < 2 ^ width := by omega
  constructor
  · exact (describes_maskRange hle hupper mask).reports hle bounds_maskRange_of_holes
  · exact (describes_orRange hle hupper hmask).reports hle bounds_orRange_of_holes

/-- Around the highest bit of a word of 32 bits, the last two bits of four words in a row take all
their values. -/
theorem reports_maskRange_orRange_highest :
    (2 ^ 31 - 2 ≤ 2 ^ 31 + 1 ∧ 2 ^ 31 + 1 ≤ 2 ^ 32 - 1 ∧ 3 ≤ 2 ^ 32 - 1) ∧
      IsGreatest ((· &&& 3) '' Set.Icc (2 ^ 31 - 2) (2 ^ 31 + 1)) 3 := by
  have hreport := reports_maskRange_orRange 32 (2 ^ 31 - 2) (2 ^ 31 + 1) 3
    (by decide) (by decide) (by decide)
  have hvalue : maskRange (2 ^ 31 - 2) (2 ^ 31 + 1) 3 (2 ^ 32 - 1) = Masked.exact 0 3 := by
    decide +kernel
  rw [hvalue] at hreport
  exact ⟨by decide, hreport.1.isGreatest rfl⟩

/-! ## Host conversions and masks of a segment -/

namespace Section

variable {b : Bounds}

/-- A contiguous result of applying a mask to a segment is a range. -/
theorem within_maskBounds {op : BitOp} (hb : b.Within width)
    (hc : (maskBounds width op b mask).contiguous = true) :
    (maskBounds width op b mask).bounds.Within width := by
  cases op with
  | and => exact within_maskRange hb.lower_le_upper hb.upper_lt hc
  | or => exact within_orRange hb.lower_le_upper hb.upper_lt hc

/-- The result of converting the host of a segment is a range. Without holes it is one as every
masked range; with holes it is because its ends are starts, or ends, of blocks. -/
theorem within_convertBounds (host : Host) (hb : b.Within width) (hh : h ≤ width) :
    (convertBounds width host b h).bounds.Within width := by
  have hlower : b.lower < 2 ^ width := Nat.lt_of_le_of_lt hb.lower_le_upper hb.upper_lt
  have hdiv : b.lower / 2 ^ h * 2 ^ h ≤ b.upper / 2 ^ h * 2 ^ h :=
    Nat.mul_le_mul_right _ (Nat.div_le_div_right hb.lower_le_upper)
  unfold convertBounds
  cases host with
  | zeros =>
      by_cases hc : (maskRange b.lower b.upper (2 ^ width - 1 - (2 ^ h - 1))
          (2 ^ width - 1)).contiguous = true
      · exact within_maskRange hb.lower_le_upper hb.upper_lt hc
      · rw [Bool.not_eq_true] at hc
        simp only [bounds_maskRange_of_holes hc, Bits.and_networkMask hlower hh,
          Bits.and_networkMask hb.upper_lt hh]
        exact ⟨hdiv, Nat.lt_of_le_of_lt (Nat.div_mul_le_self _ _) hb.upper_lt⟩
  | ones =>
      by_cases hc : (orRange b.lower b.upper (2 ^ h - 1) (2 ^ width - 1)).contiguous = true
      · exact within_orRange hb.lower_le_upper hb.upper_lt hc
      · rw [Bool.not_eq_true] at hc
        simp only [bounds_orRange_of_holes hc, Bits.or_hostMask]
        exact ⟨Nat.add_le_add_right hdiv _, Bits.blockEnd_lt hb.upper_lt hh⟩

end Section

end IpSpace
