import IpSpace.Version
import Mathlib.Data.List.Forall2
import Mathlib.Tactic.Ring

/-!
# Words and their digits

`Digits.split` cuts a word into digits and `Digits.join` puts digits together by shifts. This module
gives both their arithmetic meaning: `Digits.value` is the number that a list of digits writes, in
any number of digits, and the two functions are inverse to each other on words that fit.

Everything about sections is proved one digit at a time. A number of `n + 1` digits is a first digit
`x / 2 ^ (width * n)` and a rest `x % 2 ^ (width * n)`, and `split_succ` and `le_cons_iff` say what
splitting and comparing do along this cut.
-/

namespace IpSpace

namespace Digits

variable {width : Nat}

/-- The number with the given digits, most significant first. -/
def value (width : Nat) : List Nat → Nat
  | [] => 0
  | d :: ds => d * 2 ^ (width * ds.length) + value width ds

/-- Digits of the given width. -/
def Fit (width : Nat) (digits : List Nat) : Prop :=
  ∀ d ∈ digits, d < 2 ^ width

@[simp]
theorem fit_nil : Fit width [] := by
  simp [Fit]

@[simp]
theorem fit_cons {d : Nat} {ds : List Nat} :
    Fit width (d :: ds) ↔ d < 2 ^ width ∧ Fit width ds := by
  simp [Fit]

/-- The weight of a digit in front of `n` others. -/
theorem pow_mul_succ (width n : Nat) : 2 ^ (width * (n + 1)) = 2 ^ width * 2 ^ (width * n) := by
  rw [Nat.mul_succ, Nat.pow_add, Nat.mul_comm]

/-! ## Cutting off the first digit -/

/-- A quotient and a remainder are those of the number they make up. -/
theorem mul_add_div_mod {m q r : Nat} (hr : r < m) : (q * m + r) / m = q ∧ (q * m + r) % m = r := by
  constructor
  · rw [Nat.mul_comm, Nat.mul_add_div (by omega), Nat.div_eq_of_lt hr, Nat.add_zero]
  · rw [Nat.mul_comm, Nat.mul_add_mod, Nat.mod_eq_of_lt hr]

/-- The two parts of a number at a cut make it up again. -/
theorem div_mul_add_mod (x m : Nat) : x / m * m + x % m = x := by
  rw [Nat.mul_comm, Nat.div_add_mod]

/-- A number of `n + 1` digits has a digit in front. -/
theorem div_lt_of_lt {n x : Nat} (hx : x < 2 ^ (width * (n + 1))) :
    x / 2 ^ (width * n) < 2 ^ width := by
  rw [pow_mul_succ] at hx
  exact Nat.div_lt_of_lt_mul (by rwa [Nat.mul_comm])

/-- A digit in front of `n` others makes a number of `n + 1` digits. -/
theorem mul_add_lt {n d r : Nat} (hd : d < 2 ^ width) (hr : r < 2 ^ (width * n)) :
    d * 2 ^ (width * n) + r < 2 ^ (width * (n + 1)) := by
  rw [pow_mul_succ]
  calc d * 2 ^ (width * n) + r < (d + 1) * 2 ^ (width * n) := by rw [Nat.succ_mul]; omega
    _ ≤ 2 ^ width * 2 ^ (width * n) := Nat.mul_le_mul_right _ hd

/-- Numbers are compared by their first digits and then by their rests. -/
theorem le_cons_iff {m d r x : Nat} (hr : r < m) :
    d * m + r ≤ x ↔ d < x / m ∨ d = x / m ∧ r ≤ x % m := by
  have hm : 0 < m := by omega
  -- Both comparisons of the first digits are linear in the weight `d * m`.
  have hlt : d < x / m ↔ d * m + m ≤ x := by
    rw [← Nat.succ_le_iff, Nat.le_div_iff_mul_le hm, Nat.succ_mul]
  have hle : d ≤ x / m ↔ d * m ≤ x := Nat.le_div_iff_mul_le hm
  have hx := div_mul_add_mod x m
  have hxm := Nat.mod_lt x hm
  constructor
  · intro h
    rcases Nat.lt_or_eq_of_le (hle.2 (by omega)) with hd | hd
    · exact Or.inl hd
    · refine Or.inr ⟨hd, ?_⟩
      rw [← hd] at hx
      omega
  · rintro (hd | ⟨rfl, hd⟩)
    · have := hlt.1 hd
      omega
    · omega

/-- `le_cons_iff` for the other side of the comparison. -/
theorem cons_ge_iff {m d r x : Nat} (hr : r < m) :
    x ≤ d * m + r ↔ x / m < d ∨ x / m = d ∧ x % m ≤ r := by
  have hm : 0 < m := by omega
  have h := @le_cons_iff m (x / m) (x % m) (d * m + r) (Nat.mod_lt x hm)
  rw [div_mul_add_mod, (mul_add_div_mod hr).1, (mul_add_div_mod hr).2] at h
  exact h

/-! ## Sharing the first bits -/

/-- Two numbers are equal if their quotients and remainders are. -/
theorem eq_iff_div_mod (m x y : Nat) : x = y ↔ x / m = y / m ∧ x % m = y % m := by
  refine ⟨?_, fun ⟨hdiv, hmod⟩ => ?_⟩
  · rintro rfl
    exact ⟨rfl, rfl⟩
  · rw [← div_mul_add_mod x m, ← div_mul_add_mod y m, hdiv, hmod]

/-- Two words of `n + 1` digits share their first `p` bits if their first digits share as many of
these as a digit has, and their rests share the others. -/
theorem div_pow_eq_iff (width n p x y : Nat) :
    x / 2 ^ (width * (n + 1) - p) = y / 2 ^ (width * (n + 1) - p) ↔
      x / 2 ^ (width * n) / 2 ^ (width - p) = y / 2 ^ (width * n) / 2 ^ (width - p) ∧
        x % 2 ^ (width * n) / 2 ^ (width * n - (p - width))
          = y % 2 ^ (width * n) / 2 ^ (width * n - (p - width)) := by
  rw [Nat.mul_succ]
  rcases Nat.le_total p width with hp | hp
  · -- The first digit holds all the bits, and nothing is asked of the rests.
    have hrest : ∀ z : Nat, z % 2 ^ (width * n) / 2 ^ (width * n) = 0 := fun z =>
      Nat.div_eq_of_lt (Nat.mod_lt _ (Nat.two_pow_pos _))
    rw [Nat.sub_eq_zero_of_le hp, Nat.sub_zero, hrest, hrest, Nat.add_sub_assoc hp, Nat.pow_add,
      ← Nat.div_div_eq_div_mul, ← Nat.div_div_eq_div_mul]
    simp
  · -- The first digits are equal, and the boundary lies in the rests.
    obtain ⟨k, hk⟩ : ∃ k, k = width * n + width - p := ⟨_, rfl⟩
    rw [← hk, show width * n - (p - width) = k by omega, Nat.sub_eq_zero_of_le hp, Nat.pow_zero,
      Nat.div_one, Nat.div_one, eq_iff_div_mod (2 ^ (width * n - k)),
      show 2 ^ (width * n) = 2 ^ k * 2 ^ (width * n - k) by
        rw [← Nat.pow_add, Nat.add_sub_of_le (by omega)],
      Nat.div_div_eq_div_mul, Nat.div_div_eq_div_mul, Nat.mod_mul_right_div_self,
      Nat.mod_mul_right_div_self]

/-! ## Splitting -/

/-- Splitting yields digits. -/
theorem fit_split (width count x : Nat) : Fit width (split width count x) := by
  induction count with
  | zero => simp [split]
  | succ count ih =>
      rw [split, fit_cons]
      exact ⟨Nat.mod_lt _ (Nat.two_pow_pos _), ih⟩

/-- Splitting looks at the low end of a word alone. -/
theorem split_mod {count m : Nat} (h : count ≤ m) (x : Nat) :
    split width count (x % 2 ^ (width * m)) = split width count x := by
  induction count with
  | zero => rfl
  | succ count ih =>
      obtain ⟨k, rfl⟩ := Nat.exists_eq_add_of_le h
      have hpow : 2 ^ (width * (count + 1 + k))
          = 2 ^ (width * count) * (2 ^ width * 2 ^ (width * k)) := by
        rw [← Nat.pow_add, ← Nat.pow_add]
        ring_nf
      rw [split, split, ih (by omega), hpow, Nat.mod_mul_right_div_self, Nat.mod_mul_right_mod]

/-- A word of `count + 1` digits splits into its first digit and the digits of the rest. -/
theorem split_succ {count x : Nat} (hx : x < 2 ^ (width * (count + 1))) :
    split width (count + 1) x
      = x / 2 ^ (width * count) :: split width count (x % 2 ^ (width * count)) := by
  rw [split, Nat.mod_eq_of_lt (div_lt_of_lt hx), split_mod (Nat.le_refl count)]

/-! ## The number that digits write -/

/-- A number has no more digits than were written. -/
theorem value_lt {digits : List Nat} (h : Fit width digits) :
    value width digits < 2 ^ (width * digits.length) := by
  induction digits with
  | nil => simp [value]
  | cons d ds ih =>
      rw [fit_cons] at h
      exact mul_add_lt h.1 (ih h.2)

/-- The digits of a word write it. -/
theorem value_split {count x : Nat} (hx : x < 2 ^ (width * count)) :
    value width (split width count x) = x := by
  induction count generalizing x with
  | zero => simp_all [split, value]
  | succ count ih =>
      rw [split_succ hx, value, length_split, ih (Nat.mod_lt _ (Nat.two_pow_pos _)),
        div_mul_add_mod]

/-- Splitting a number yields the digits that write it. -/
theorem split_value {digits : List Nat} (h : Fit width digits) :
    split width digits.length (value width digits) = digits := by
  induction digits with
  | nil => rfl
  | cons d ds ih =>
      rw [fit_cons] at h
      have hr := value_lt h.2
      rw [List.length_cons, value, split_succ (mul_add_lt h.1 hr), (mul_add_div_mod hr).1,
        (mul_add_div_mod hr).2, ih h.2]

/-! ## Joining -/

/-- One step of joining, as long as nothing is pushed past the top. -/
private theorem join_step {word digit : Nat} (hd : digit < 2 ^ width)
    (hw : word * 2 ^ width + digit < 2 ^ 128) :
    (word <<< width ||| digit) % 2 ^ 128 = word * 2 ^ width + digit := by
  rw [← Nat.shiftLeft_add_eq_or_of_lt hd, Nat.shiftLeft_eq, Nat.mod_eq_of_lt hw]

/-- Joining goes on from a word by shifting it in front of the number that the digits write. -/
private theorem foldl_join {digits : List Nat} (h : Fit width digits) (word : Nat)
    (hword : word * 2 ^ (width * digits.length) + value width digits < 2 ^ 128) :
    digits.foldl (fun word digit => (word <<< width ||| digit) % 2 ^ 128) word
      = word * 2 ^ (width * digits.length) + value width digits := by
  induction digits generalizing word with
  | nil => simp [value]
  | cons d ds ih =>
      rw [fit_cons] at h
      have hshift : word * 2 ^ (width * (ds.length + 1)) + (d * 2 ^ (width * ds.length)
            + value width ds)
          = (word * 2 ^ width + d) * 2 ^ (width * ds.length) + value width ds := by
        rw [pow_mul_succ]
        ring
      rw [List.length_cons, value, hshift] at hword ⊢
      have hd : word * 2 ^ width + d < 2 ^ 128 := by
        have := Nat.le_mul_of_pos_right (word * 2 ^ width + d) (Nat.two_pow_pos (width * ds.length))
        omega
      rw [List.foldl_cons, join_step h.1 hd]
      exact ih h.2 _ hword

/-- Joined digits make a word of 128 bits, whether they fit or not. -/
theorem join_lt (width : Nat) (digits : List Nat) : join width digits < 2 ^ 128 := by
  have hpos := Nat.two_pow_pos 128
  obtain rfl | ⟨front, last, rfl⟩ := List.eq_nil_or_concat digits
  · exact hpos
  · rw [join, List.concat_eq_append, List.foldl_append]
    exact Nat.mod_lt _ hpos

/-- Joining computes the number that the digits write, if it has at most 128 bits. -/
theorem join_eq_value {digits : List Nat} (h : Fit width digits)
    (hlen : width * digits.length ≤ 128) : join width digits = value width digits := by
  have hlt : value width digits < 2 ^ 128 :=
    Nat.lt_of_lt_of_le (value_lt h) (Nat.pow_le_pow_right (by omega) hlen)
  rw [join, foldl_join h 0 (by omega)]
  omega

end Digits

namespace Version

open Digits (Fit)

/-! ## The layouts of the two versions -/

/-- An address has at most 128 bits. -/
theorem segmentBits_mul_segmentCount_le (version : Version) :
    version.segmentBits * version.segmentCount ≤ 128 := by
  cases version <;> decide

theorem bitCount_eq (version : Version) :
    version.bitCount = version.segmentBits * version.segmentCount :=
  Nat.mul_comm _ _

theorem segmentBits_pos (version : Version) : 0 < version.segmentBits := by
  cases version <;> decide

/-- Being at most the largest address is being a word of the width of an address. -/
theorem le_maxValue_iff {version : Version} {x : Nat} :
    x ≤ version.maxValue ↔ x < 2 ^ (version.segmentBits * version.segmentCount) := by
  rw [maxValue, bitCount_eq]
  have := Nat.two_pow_pos (version.segmentBits * version.segmentCount)
  omega

/-- Being at most the largest value of a segment is being a digit. -/
theorem le_segmentMax_iff {version : Version} {d : Nat} :
    d ≤ version.segmentMax ↔ d < 2 ^ version.segmentBits := by
  rw [segmentMax]
  have := Nat.two_pow_pos version.segmentBits
  omega

@[simp]
theorem length_split (version : Version) (x : Nat) :
    (version.split x).length = version.segmentCount :=
  Digits.length_split _ _ _

theorem fit_split (version : Version) (x : Nat) : Fit version.segmentBits (version.split x) :=
  Digits.fit_split _ _ _

/-- Joining the segments of an address computes the number they write. -/
theorem join_eq_value {version : Version} {digits : List Nat}
    (hlen : digits.length = version.segmentCount) (h : Fit version.segmentBits digits) :
    version.join digits = Digits.value version.segmentBits digits :=
  Digits.join_eq_value h (hlen ▸ version.segmentBits_mul_segmentCount_le)

/-- The segments of an address join to it. -/
theorem join_split {version : Version} {x : Nat} (hx : x ≤ version.maxValue) :
    version.join (version.split x) = x := by
  rw [join_eq_value (version.length_split x) (version.fit_split x)]
  exact Digits.value_split (le_maxValue_iff.1 hx)

/-- Joined segments split into themselves. -/
theorem split_join {version : Version} {digits : List Nat}
    (hlen : digits.length = version.segmentCount) (h : Fit version.segmentBits digits) :
    version.split (version.join digits) = digits := by
  rw [join_eq_value hlen h, split, ← hlen, Digits.split_value h]

/-- Segments join to an address. -/
theorem join_le_maxValue {version : Version} {digits : List Nat}
    (hlen : digits.length = version.segmentCount) (h : Fit version.segmentBits digits) :
    version.join digits ≤ version.maxValue := by
  rw [join_eq_value hlen h, le_maxValue_iff, ← hlen]
  exact Digits.value_lt h

end Version

end IpSpace
