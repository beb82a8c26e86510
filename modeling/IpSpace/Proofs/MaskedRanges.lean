import IpSpace.Proofs.Digits
import IpSpace.Segment.Masked
import Mathlib.Algebra.Order.Interval.Set.Monoid
import Mathlib.Data.Nat.Bitwise
import Mathlib.Order.Interval.Set.OrdConnected

/-!
# Which values a masked range has

`maskRange` and `orRange` compute the image of a range under a mask from its two ends. What they say
is right (`describes_maskRange`, `describes_orRange`): a result is reported as contiguous exactly if
the image has no gap, and its bounds are then the ends of the image.

Everything is decided by the bits from the highest one in which the ends differ downwards
(`image_and_eq_shift`). Of these bits, `d + 1` in number, the lower end has the first bit clear and
the upper end has it set, so the range runs through `2 ^ d - 1` and `2 ^ d`, and the values of these
two under the mask lie on both sides of every gap that the mask itself makes
(`not_ordConnected_of_gap_in_mask`). A mask without such a gap keeps a low end of the bits. If it
keeps all of them the range stays as it is; if it keeps fewer, the image consists of remainders, of
which all occur or one between the least and the greatest does not (`image_mod_eq_Icc`,
`not_ordConnected_image_mod`).
-/

namespace IpSpace

variable {width lower upper mask : Nat}

/-! ## Reports -/

/-- What a masked range says about the values that occur is right: where it claims to be contiguous
they are the values between its bounds, and elsewhere one between two of them is missing. -/
structure Masked.Describes (m : Masked) (values : Set Nat) : Prop where
  eq_Icc : m.contiguous = true → values = Set.Icc m.lower m.upper
  not_ordConnected : m.contiguous = false → ¬ values.OrdConnected

namespace Masked

variable {m : Masked} {values : Set Nat}

theorem Describes.contiguous_iff (h : m.Describes values) :
    m.contiguous = true ↔ values.OrdConnected := by
  constructor
  · intro hc
    rw [h.eq_Icc hc]
    exact Set.ordConnected_Icc
  · intro hconnected
    by_contra hc
    exact h.not_ordConnected (Bool.eq_false_iff.2 hc) hconnected

theorem describes_exact {low high : Nat} (h : values = Set.Icc low high) :
    (exact low high).Describes values :=
  ⟨fun _ => h, nofun⟩

theorem describes_broken {low high : Nat} (h : ¬ values.OrdConnected) :
    Describes ⟨low, high, false⟩ values :=
  ⟨nofun, fun _ => h⟩

/-- A value that does not occur between two that do. -/
theorem not_ordConnected_of_gap {u v gap : Nat} (hu : u ∈ values) (hv : v ∈ values)
    (hlower : u ≤ gap) (hupper : gap ≤ v) (hgap : gap ∉ values) : ¬ values.OrdConnected :=
  fun h => hgap (h.out hu hv ⟨hlower, hupper⟩)

end Masked

open Masked

/-! ## Ranges around a power of two -/

section Residues

variable {d low high kept : Nat}

theorem pred_two_pow_mem (hlow : low < 2 ^ d) (hhigh : 2 ^ d ≤ high) :
    2 ^ d - 1 ∈ Set.Icc low high :=
  ⟨Nat.le_sub_one_of_lt hlow, Nat.le_trans (Nat.sub_le _ _) hhigh⟩

theorem two_pow_mem (hlow : low < 2 ^ d) (hhigh : 2 ^ d ≤ high) : 2 ^ d ∈ Set.Icc low high :=
  ⟨Nat.le_of_lt hlow, hhigh⟩

/-- A mask whose kept bits are not a run down to the lowest one leaves a gap. Below its highest bit
`top` no value exceeds the other bits of the mask, and the next number up is a gap: `2 ^ d - 1` and
`2 ^ d`, of which one has all bits below `d` and the other none, end up on both sides of it. -/
theorem not_ordConnected_of_gap_in_mask (hlow : low < 2 ^ d) (hhigh : 2 ^ d ≤ high)
    (hkept : kept < 2 ^ (d + 1)) (hzero : kept ≠ 0) (hrun : kept + 1 ≠ 2 ^ (kept.log2 + 1)) :
    ¬ ((· &&& kept) '' Set.Icc low high).OrdConnected := by
  have htop : 2 ^ kept.log2 ≤ kept := Nat.log2_self_le hzero
  have hlt : kept < 2 ^ (kept.log2 + 1) := Nat.lt_log2_self
  generalize kept.log2 = top at hrun htop hlt
  have hrest : kept % 2 ^ top + 1 < 2 ^ top := by
    rw [Nat.mod_eq_sub_mod htop, Nat.mod_eq_of_lt]
    · omega
    · omega
  -- Below its highest bit, the mask keeps no more of a word than it has there itself.
  have hgap : kept % 2 ^ top + 1 ∉ (· &&& kept) '' Set.Icc low high := by
    rintro ⟨y, -, hy⟩
    have hy : y &&& kept = kept % 2 ^ top + 1 := hy
    have hle : (y &&& kept) % 2 ^ top ≤ kept % 2 ^ top := by
      rw [Nat.and_mod_two_pow]
      exact Nat.and_le_right
    rw [hy, Nat.mod_eq_of_lt hrest] at hle
    exact Nat.not_succ_le_self _ hle
  have hpred : kept % 2 ^ d ∈ (· &&& kept) '' Set.Icc low high := by
    refine ⟨2 ^ d - 1, pred_two_pow_mem hlow hhigh, ?_⟩
    show (2 ^ d - 1) &&& kept = kept % 2 ^ d
    rw [Nat.and_comm, Nat.and_two_pow_sub_one_eq_mod]
  have hpow : 2 ^ d * (kept.testBit d).toNat ∈ (· &&& kept) '' Set.Icc low high :=
    ⟨2 ^ d, two_pow_mem hlow hhigh, Nat.two_pow_and kept d⟩
  by_cases hd : kept < 2 ^ d
  · -- The mask lies below bit `d`: it takes `2 ^ d` to zero and `2 ^ d - 1` to itself.
    rw [Nat.testBit_lt_two_pow hd] at hpow
    rw [Nat.mod_eq_of_lt hd] at hpred
    exact not_ordConnected_of_gap hpow hpred (Nat.zero_le _) (by omega) hgap
  · -- The highest bit of the mask is bit `d`.
    have htopd : top = d := by
      have hle : top < d + 1 :=
        (Nat.pow_lt_pow_iff_right (by decide)).1 (Nat.lt_of_le_of_lt htop hkept)
      have hge : d < top + 1 :=
        (Nat.pow_lt_pow_iff_right (by decide)).1 (Nat.lt_of_le_of_lt (Nat.not_lt.1 hd) hlt)
      omega
    subst htopd
    have hbit : kept.testBit top = true := by
      exact Nat.testBit_of_two_pow_le_and_two_pow_add_one_gt htop hlt
    rw [hbit] at hpow
    exact not_ordConnected_of_gap hpred hpow (Nat.le_succ _) (by simpa using hrest.le) hgap

/-- The remainders of a range around a power of two, for a modulus that divides it, are all there
are if the range takes a whole round on one side of the power, or if the two rounds that it breaks
off there join. -/
theorem image_mod_eq_Icc {m : Nat} (hlow : low < 2 ^ d) (hhigh : 2 ^ d ≤ high) (hm : m ∣ 2 ^ d)
    (hrounds : m ≤ 2 ^ d - low ∨ m ≤ high - 2 ^ d + 1 ∨ low % m ≤ high - 2 ^ d + 1) :
    (· % m) '' Set.Icc low high = Set.Icc 0 (m - 1) := by
  have hpos : 0 < m := Nat.pos_of_dvd_of_pos hm (Nat.two_pow_pos d)
  obtain ⟨rounds, hpow⟩ := hm
  rw [Nat.mul_comm] at hpow
  ext r
  constructor
  · rintro ⟨y, -, rfl⟩
    exact ⟨Nat.zero_le _, Nat.le_sub_one_of_lt (Nat.mod_lt y hpos)⟩
  · rintro ⟨-, hr⟩
    have hr : r < m := by omega
    -- A number with remainder `r`, given by the rounds in front of it.
    have hfind : ∀ q, low ≤ q * m + r → q * m + r ≤ high → r ∈ (· % m) '' Set.Icc low high :=
      fun q hlower hupper => ⟨q * m + r, ⟨hlower, hupper⟩, Nat.mul_add_mod_of_lt hr⟩
    by_cases hbehind : r ≤ high - 2 ^ d
    · exact hfind rounds (by omega) (by omega)
    rcases hrounds with hfront | hback | hjoin
    · have hsucc : rounds * m = (rounds - 1) * m + m := by
        rw [Nat.sub_mul, Nat.one_mul]
        omega
      exact hfind (rounds - 1) (by omega) (by omega)
    · omega
    · have hlt : low / m < rounds := Nat.div_lt_of_lt_mul (by rwa [Nat.mul_comm, ← hpow])
      have hround : (low / m + 1) * m ≤ 2 ^ d := hpow ▸ Nat.mul_le_mul_right m hlt
      rw [Nat.succ_mul] at hround
      have hparts := Digits.div_mul_add_mod low m
      exact hfind (low / m) (by omega) (by omega)

/-- Otherwise the first remainder that the range does not reach behind the power is missing. -/
theorem not_ordConnected_image_mod {m : Nat} (hlow : low < 2 ^ d) (hhigh : 2 ^ d ≤ high)
    (hm : m ∣ 2 ^ d)
    (hrounds : ¬ (m ≤ 2 ^ d - low ∨ m ≤ high - 2 ^ d + 1 ∨ low % m ≤ high - 2 ^ d + 1)) :
    ¬ ((· % m) '' Set.Icc low high).OrdConnected := by
  rw [not_or, not_or, Nat.not_le, Nat.not_le, Nat.not_le] at hrounds
  obtain ⟨hfront, hback, hjoin⟩ := hrounds
  have hpos : 0 < m := Nat.pos_of_dvd_of_pos hm (Nat.two_pow_pos d)
  have hzero : 2 ^ d % m = 0 := Nat.mod_eq_zero_of_dvd hm
  obtain ⟨round, hround⟩ : ∃ round, 2 ^ d = round * m + m := by
    have hdiv := Digits.div_mul_add_mod (2 ^ d - m) m
    have hle := Nat.le_of_dvd (Nat.two_pow_pos d) hm
    rw [← Nat.mod_eq_sub_mod hle, hzero] at hdiv
    exact ⟨(2 ^ d - m) / m, by omega⟩
  -- The last round in front of the power holds the part of the range that lies there.
  have hmod : ∀ y, low ≤ y → y < 2 ^ d → y % m = y - round * m := by
    intro y hlower hlt
    have hy : y = round * m + (y - round * m) := by omega
    rw [hy, Nat.mul_add_mod_of_lt (by omega)]
    omega
  have hgap : high - 2 ^ d + 1 ∉ (· % m) '' Set.Icc low high := by
    rintro ⟨y, ⟨hlower, hupper⟩, hy⟩
    have hy : y % m = high - 2 ^ d + 1 := hy
    by_cases hlt : y < 2 ^ d
    · rw [hmod y hlower hlt] at hy
      rw [hmod low (Nat.le_refl _) hlow] at hjoin
      omega
    · rw [← Nat.sub_add_cancel (Nat.not_lt.1 hlt), Nat.add_mod, hzero, Nat.add_zero, Nat.mod_mod,
        Nat.mod_eq_of_lt (by omega)] at hy
      omega
  have hlast : (2 ^ d - 1) % m = m - 1 := by
    rw [hmod (2 ^ d - 1) (by omega) (by omega)]
    omega
  exact not_ordConnected_of_gap (u := 0) (v := m - 1) ⟨2 ^ d, two_pow_mem hlow hhigh, hzero⟩
    ⟨2 ^ d - 1, pred_two_pow_mem hlow hhigh, hlast⟩ (Nat.zero_le _) (by omega) hgap

end Residues

/-! ## From the highest differing bit downwards -/

/-- Two words that agree in the bits above bit `d` and differ in it, the lower one having it
clear. -/
structure DifferAt (d lower upper : Nat) : Prop where
  above : lower / 2 ^ (d + 1) = upper / 2 ^ (d + 1)
  lower_lt : lower % 2 ^ (d + 1) < 2 ^ d
  le_upper : 2 ^ d ≤ upper % 2 ^ (d + 1)

namespace Bits

/-- Two words have the same bits from a place upwards exactly if their differing bits all lie below
it. -/
theorem div_two_pow_eq_iff_xor_lt {h x y : Nat} : x / 2 ^ h = y / 2 ^ h ↔ x ^^^ y < 2 ^ h := by
  rw [← Nat.xor_eq_zero_iff, ← Nat.xor_div_two_pow, Nat.div_eq_zero_iff_lt (Nat.two_pow_pos h)]

end Bits

/-- The highest bit of what two words differ in is where they differ first. -/
theorem differAt_log2 (hlt : lower < upper) : DifferAt (lower ^^^ upper).log2 lower upper := by
  have hne : lower ^^^ upper ≠ 0 := fun h => (Nat.ne_of_lt hlt) (Nat.xor_eq_zero_iff.1 h)
  have hle : 2 ^ (lower ^^^ upper).log2 ≤ lower ^^^ upper := Nat.log2_self_le hne
  have habove := Bits.div_two_pow_eq_iff_xor_lt.2 (@Nat.lt_log2_self (lower ^^^ upper))
  generalize (lower ^^^ upper).log2 = d at hle habove
  have hdiffer : lower / 2 ^ d ≠ upper / 2 ^ d := by
    intro heq
    rw [Bits.div_two_pow_eq_iff_xor_lt] at heq
    exact Nat.not_lt.2 hle heq
  have hpos := Nat.two_pow_pos d
  have hdiv : ∀ x, x / 2 ^ (d + 1) = x / 2 ^ d / 2 := fun x => by
    rw [Nat.pow_succ, Nat.div_div_eq_div_mul]
  have hmod : ∀ x, x % 2 ^ (d + 1) / 2 ^ d = x / 2 ^ d % 2 := fun x => by
    rw [Nat.pow_succ, Nat.mod_mul_right_div_self]
  have hmono : lower / 2 ^ d ≤ upper / 2 ^ d := Nat.div_le_div_right (Nat.le_of_lt hlt)
  have hhalves : lower / 2 ^ d / 2 = upper / 2 ^ d / 2 := by rw [← hdiv, ← hdiv, habove]
  refine ⟨habove, ?_, ?_⟩
  · have hbit : lower % 2 ^ (d + 1) / 2 ^ d = 0 := by rw [hmod]; omega
    exact (Nat.div_eq_zero_iff_lt hpos).1 hbit
  · have hbit : 0 < upper % 2 ^ (d + 1) / 2 ^ d := by rw [hmod]; omega
    exact (Nat.div_pos_iff.1 hbit).2

namespace DifferAt

variable {d : Nat}

/-- The values from one word to the other have the bits above bit `d` in common, and below them run
from the low bits of the one to the low bits of the other. -/
theorem mem_Icc_iff (h : DifferAt d lower upper) {x : Nat} : x ∈ Set.Icc lower upper ↔
    x / 2 ^ (d + 1) = lower / 2 ^ (d + 1) ∧
      x % 2 ^ (d + 1) ∈ Set.Icc (lower % 2 ^ (d + 1)) (upper % 2 ^ (d + 1)) := by
  have hpos := Nat.two_pow_pos (d + 1)
  have hlower := Digits.div_mul_add_mod lower (2 ^ (d + 1))
  have hupper := Digits.div_mul_add_mod upper (2 ^ (d + 1))
  rw [← h.above] at hupper
  rw [← hlower, ← hupper, Set.mem_Icc, Set.mem_Icc, Digits.le_cons_iff (Nat.mod_lt _ hpos),
    Digits.cons_ge_iff (Nat.mod_lt _ hpos), hlower, hupper]
  omega

/-- A word with the same bits above bit `d` is masked there and below apart. -/
theorem and_eq_add {x : Nat} (hx : x / 2 ^ (d + 1) = lower / 2 ^ (d + 1)) (mask : Nat) :
    x &&& mask = (lower &&& mask) / 2 ^ (d + 1) * 2 ^ (d + 1)
      + (x % 2 ^ (d + 1) &&& mask % 2 ^ (d + 1)) := by
  rw [Nat.and_div_two_pow, ← hx, ← Nat.and_div_two_pow, ← Nat.and_mod_two_pow,
    Digits.div_mul_add_mod]

/-- So masking the range is masking its low bits, behind the masked bits above. -/
theorem image_and_eq_shift (h : DifferAt d lower upper) (mask : Nat) :
    (· &&& mask) '' Set.Icc lower upper =
      ((lower &&& mask) / 2 ^ (d + 1) * 2 ^ (d + 1) + ·) '' ((· &&& mask % 2 ^ (d + 1)) ''
        Set.Icc (lower % 2 ^ (d + 1)) (upper % 2 ^ (d + 1))) := by
  rw [Set.image_image]
  ext y
  constructor
  · rintro ⟨x, hx, rfl⟩
    obtain ⟨habove, hlow⟩ := h.mem_Icc_iff.1 hx
    exact ⟨x % 2 ^ (d + 1), hlow, (and_eq_add habove mask).symm⟩
  · rintro ⟨low, hlow, rfl⟩
    have hlt : low < 2 ^ (d + 1) :=
      Nat.lt_of_le_of_lt hlow.2 (Nat.mod_lt _ (Nat.two_pow_pos _))
    obtain ⟨hdiv, hmod⟩ := Digits.mul_add_div_mod (q := lower / 2 ^ (d + 1)) hlt
    refine ⟨lower / 2 ^ (d + 1) * 2 ^ (d + 1) + low, h.mem_Icc_iff.2 ⟨hdiv, by rwa [hmod]⟩, ?_⟩
    show _ &&& mask = _
    rw [and_eq_add hdiv, hmod]

end DifferAt

/-! ## Masks -/

/-- What is said about values is said about them behind a common front. -/
theorem Masked.Describes.shift {m : Masked} {values : Set Nat} (h : m.Describes values)
    (front : Nat) : Describes ⟨front + m.lower, front + m.upper, m.contiguous⟩
      ((front + ·) '' values) := by
  constructor
  · intro hc
    rw [h.eq_Icc hc, Set.image_const_add_Icc]
  · intro hc hconnected
    apply h.not_ordConnected hc
    have hpreimage := hconnected.preimage_mono (f := (front + ·)) fun _ _ h =>
      Nat.add_le_add_left h front
    rwa [Set.preimage_image_eq _ (add_right_injective front)] at hpreimage

/-- One value, a mask of no bits and a mask of all bits leave nothing to decide. -/
theorem describes_ends (hle : lower ≤ upper) (hupper : upper < 2 ^ width)
    (h : lower = upper ∨ mask = 0 ∨ mask = 2 ^ width - 1) :
    (exact (lower &&& mask) (upper &&& mask)).Describes ((· &&& mask) '' Set.Icc lower upper) := by
  apply describes_exact
  rcases h with rfl | rfl | rfl
  · rw [Set.Icc_self, Set.image_singleton, Set.Icc_self]
  · simp only [Nat.and_zero, Set.Icc_self]
    exact Set.Nonempty.image_const (Set.nonempty_Icc.2 hle) 0
  · have hword : ∀ x ∈ Set.Icc lower upper, x &&& (2 ^ width - 1) = x := fun x hx =>
      Nat.and_two_pow_sub_one_of_lt_two_pow (Nat.lt_of_le_of_lt hx.2 hupper)
    rw [hword lower ⟨Nat.le_refl _, hle⟩, hword upper ⟨hle, Nat.le_refl _⟩,
      Set.image_congr hword, Set.image_id']

/-- A front of whole multiples is what the division by a divisor of them leaves. -/
theorem front_add_mod {m n front : Nat} (hm : 0 < m) (hmn : m ∣ n) (hfront : n ∣ front)
    (low : Nat) : (front + low % m) / m * m = front := by
  obtain ⟨q, rfl⟩ := hmn.trans hfront
  rw [Nat.mul_add_div hm, Nat.mod_div_self, Nat.add_zero, Nat.mul_comm]

/-- Numbers below a modulus are their own remainders. -/
theorem image_mod_eq_self {n low high : Nat} (hhigh : high < n) :
    (· % n) '' Set.Icc low high = Set.Icc low high := by
  have hword : ∀ x ∈ Set.Icc low high, x % n = x := fun x hx =>
    Nat.mod_eq_of_lt (Nat.lt_of_le_of_lt hx.2 hhigh)
  rw [Set.image_congr hword, Set.image_id']

/-- **What masking a range with "and" reports is right.** -/
theorem describes_maskRange (hle : lower ≤ upper) (hupper : upper < 2 ^ width) (mask : Nat) :
    (maskRange lower upper mask (2 ^ width - 1)).Describes
      ((· &&& mask) '' Set.Icc lower upper) := by
  unfold maskRange
  by_cases htrivial : lower = upper ∨ mask = 0 ∨ mask = 2 ^ width - 1
  · simp only [htrivial, if_true]
    exact describes_ends hle hupper htrivial
  have hdiffer : DifferAt (lower ^^^ upper).log2 lower upper :=
    differAt_log2 (Nat.lt_of_le_of_ne hle fun h => htrivial (.inl h))
  simp only [htrivial, if_false]
  generalize (lower ^^^ upper).log2 = d at hdiffer ⊢
  have hlowEnd := DifferAt.and_eq_add (rfl : lower / 2 ^ (d + 1) = lower / 2 ^ (d + 1)) mask
  have hhighEnd := DifferAt.and_eq_add hdiffer.above.symm mask
  have hfront : 2 ^ (d + 1) ∣ (lower &&& mask) / 2 ^ (d + 1) * 2 ^ (d + 1) := Nat.dvd_mul_left _ _
  have hkept : mask % 2 ^ (d + 1) < 2 ^ (d + 1) := Nat.mod_lt _ (Nat.two_pow_pos _)
  have hhigh : upper % 2 ^ (d + 1) < 2 ^ (d + 1) := Nat.mod_lt _ (Nat.two_pow_pos _)
  rw [hdiffer.image_and_eq_shift]
  obtain ⟨-, hlow, hhighLe⟩ := hdiffer
  generalize (lower &&& mask) / 2 ^ (d + 1) * 2 ^ (d + 1) = front at hlowEnd hhighEnd hfront ⊢
  rw [hlowEnd, hhighEnd]
  clear hlowEnd hhighEnd
  generalize mask % 2 ^ (d + 1) = kept at hkept ⊢
  generalize lower % 2 ^ (d + 1) = low at hlow ⊢
  generalize upper % 2 ^ (d + 1) = high at hhigh hhighLe ⊢
  by_cases hzero : kept = 0
  · subst hzero
    have hnone : (· &&& 0) '' Set.Icc low high = Set.Icc 0 0 := by
      simp only [Nat.and_zero, Set.Icc_self]
      exact Set.Nonempty.image_const ⟨_, two_pow_mem hlow hhighLe⟩ 0
    rw [if_pos rfl, Nat.and_zero]
    exact (describes_exact hnone).shift front
  rw [if_neg hzero]
  by_cases hrun : kept + 1 ≠ 2 ^ (kept.log2 + 1)
  · rw [if_pos hrun]
    exact (describes_broken
      (not_ordConnected_of_gap_in_mask hlow hhighLe hkept hzero hrun)).shift front
  rw [if_neg hrun]
  rw [Decidable.not_not] at hrun
  generalize kept.log2 = top at hrun ⊢
  obtain rfl : kept = 2 ^ (top + 1) - 1 := by omega
  simp only [Nat.and_two_pow_sub_one_eq_mod]
  by_cases hall : top = d
  · -- All the bits are kept.
    subst hall
    have hlowWord : low < 2 ^ (top + 1) := by omega
    rw [Nat.mod_eq_of_lt hlowWord, Nat.mod_eq_of_lt hhigh, if_pos rfl]
    exact (describes_exact (image_mod_eq_self hhigh)).shift front
  rw [if_neg hall]
  -- A low end of the bits is kept: the image consists of remainders.
  have htop : top + 1 ≤ d := by
    have hlt : top + 1 < d + 1 + 1 := (Nat.pow_lt_pow_iff_right (by decide : 1 < 2)).1
      (Nat.lt_of_le_of_lt (by omega : 2 ^ (top + 1) ≤ 2 ^ (d + 1)) (by omega))
    omega
  have hm : 2 ^ (top + 1) ∣ 2 ^ d := Nat.pow_dvd_pow 2 htop
  have hmfront : 2 ^ (top + 1) ∣ 2 ^ (d + 1) := Nat.pow_dvd_pow 2 (Nat.le_succ_of_le htop)
  rw [front_add_mod (Nat.two_pow_pos _) hmfront hfront]
  split
  case isTrue hrounds =>
    exact (describes_exact (image_mod_eq_Icc hlow hhighLe hm hrounds)).shift front
  case isFalse hrounds =>
    exact (describes_broken (not_ordConnected_image_mod hlow hhighLe hm hrounds)).shift front

/-! ## Complements -/

namespace Bits

variable {x y : Nat}

/-- Complementing every bit of a word subtracts it from the largest word. -/
theorem xor_max (hx : x < 2 ^ width) : (2 ^ width - 1) ^^^ x = 2 ^ width - 1 - x := by
  have hsub : 2 ^ width - 1 - x = 2 ^ width - (x + 1) := by omega
  rw [hsub]
  apply Nat.eq_of_testBit_eq
  intro i
  rw [Nat.testBit_xor, Nat.testBit_two_pow_sub_one, Nat.testBit_two_pow_sub_succ hx]
  by_cases hi : i < width
  · simp [hi]
  · have hzero : x.testBit i = false := by
      apply Nat.testBit_lt_two_pow
      exact Nat.lt_of_lt_of_le hx (Nat.pow_le_pow_right (by decide) (by omega))
    simp [hi, hzero]

/-- "Or" is "and" between complements. -/
theorem or_eq_xor_and_xor (hx : x < 2 ^ width) (hy : y < 2 ^ width) : x ||| y =
    (2 ^ width - 1) ^^^ (((2 ^ width - 1) ^^^ x) &&& ((2 ^ width - 1) ^^^ y)) := by
  apply Nat.eq_of_testBit_eq
  intro i
  have hhigh : ∀ z < 2 ^ width, ¬ i < width → z.testBit i = false := by
    intro z hz hi
    apply Nat.testBit_lt_two_pow
    exact Nat.lt_of_lt_of_le hz (Nat.pow_le_pow_right (by decide) (Nat.not_lt.1 hi))
  simp only [Nat.testBit_or, Nat.testBit_xor, Nat.testBit_and, Nat.testBit_two_pow_sub_one]
  by_cases hi : i < width
  · simp [hi]
  · simp [hi, hhigh x hx hi, hhigh y hy hi]

end Bits

/-- Complementing the words between two others exchanges the ends. -/
theorem image_xor_Icc (hle : lower ≤ upper) (hupper : upper < 2 ^ width) :
    ((2 ^ width - 1) ^^^ ·) '' Set.Icc lower upper
      = Set.Icc ((2 ^ width - 1) ^^^ upper) ((2 ^ width - 1) ^^^ lower) := by
  rw [Bits.xor_max hupper, Bits.xor_max (Nat.lt_of_le_of_lt hle hupper)]
  ext y
  constructor
  · rintro ⟨x, ⟨hlx, hxu⟩, rfl⟩
    show (2 ^ width - 1) ^^^ x ∈ _
    rw [Bits.xor_max (Nat.lt_of_le_of_lt hxu hupper)]
    exact ⟨by omega, by omega⟩
  · rintro ⟨hly, hyu⟩
    refine ⟨(2 ^ width - 1) ^^^ y, ?_, Nat.xor_xor_cancel_left _ _⟩
    rw [Bits.xor_max (by omega)]
    exact ⟨by omega, by omega⟩

/-- What is said about words is said about their complements, with the ends exchanged. -/
theorem Masked.Describes.complement {m : Masked} {values : Set Nat} (h : m.Describes values)
    (hne : values.Nonempty) (hwords : ∀ x ∈ values, x < 2 ^ width) :
    Describes ⟨(2 ^ width - 1) ^^^ m.upper, (2 ^ width - 1) ^^^ m.lower, m.contiguous⟩
      (((2 ^ width - 1) ^^^ ·) '' values) := by
  constructor
  · intro hc
    rw [h.eq_Icc hc] at hne hwords ⊢
    have hle : m.lower ≤ m.upper := Set.nonempty_Icc.1 hne
    exact image_xor_Icc hle (hwords m.upper ⟨hle, Nat.le_refl _⟩)
  · intro hc hconnected
    apply h.not_ordConnected hc
    refine ⟨fun u hu v hv x hx => ?_⟩
    have hxv : x < 2 ^ width := Nat.lt_of_le_of_lt hx.2 (hwords v hv)
    have hbetween : (2 ^ width - 1) ^^^ x ∈
        Set.Icc ((2 ^ width - 1) ^^^ v) ((2 ^ width - 1) ^^^ u) := by
      rw [Bits.xor_max hxv, Bits.xor_max (hwords u hu), Bits.xor_max (hwords v hv)]
      exact ⟨Nat.sub_le_sub_left hx.2 _, Nat.sub_le_sub_left hx.1 _⟩
    obtain ⟨x', hx', heq⟩ := hconnected.out ⟨v, hv, rfl⟩ ⟨u, hu, rfl⟩ hbetween
    exact Nat.xor_right_injective heq ▸ hx'

/-- **What masking a range with "or" reports is right.** -/
theorem describes_orRange (hle : lower ≤ upper) (hupper : upper < 2 ^ width)
    (hmask : mask < 2 ^ width) :
    (orRange lower upper mask (2 ^ width - 1)).Describes
      ((· ||| mask) '' Set.Icc lower upper) := by
  have hlower : lower < 2 ^ width := Nat.lt_of_le_of_lt hle hupper
  have hends : (2 ^ width - 1) ^^^ upper ≤ (2 ^ width - 1) ^^^ lower := by
    rw [Bits.xor_max hlower, Bits.xor_max hupper]
    exact Nat.sub_le_sub_left hle _
  have hend : (2 ^ width - 1) ^^^ lower < 2 ^ width := by
    rw [Bits.xor_max hlower]
    omega
  -- Setting the bits of a mask is clearing them in the complement.
  have himage : (· ||| mask) '' Set.Icc lower upper = ((2 ^ width - 1) ^^^ ·) ''
      ((· &&& ((2 ^ width - 1) ^^^ mask)) ''
        Set.Icc ((2 ^ width - 1) ^^^ upper) ((2 ^ width - 1) ^^^ lower)) := by
    rw [← image_xor_Icc hle hupper, Set.image_image, Set.image_image]
    exact Set.image_congr fun x hx =>
      Bits.or_eq_xor_and_xor (Nat.lt_of_le_of_lt hx.2 hupper) hmask
  have hcomplement := (describes_maskRange hends hend ((2 ^ width - 1) ^^^ mask)).complement
    ((Set.nonempty_Icc.2 hends).image _) (by
      rintro _ ⟨x, hx, rfl⟩
      exact Nat.lt_of_le_of_lt Nat.and_le_left (Nat.lt_of_le_of_lt hx.2 hend))
  rw [himage]
  unfold orRange
  simp only
  split
  case isTrue hc => exact describes_exact (hcomplement.eq_Icc hc)
  case isFalse hc => exact describes_broken (hcomplement.not_ordConnected (Bool.eq_false_iff.2 hc))

end IpSpace
