import IpSpace.Proofs.Masking
import IpSpace.Section.Convert

/-!
# Sections under a mask

A bitwise operation with a mask acts on each digit of a word by itself, with the digit that the mask
has at the same place (`BitOp.split_eval`). So what becomes of a box under a mask is a product
again, whose factors are what becomes of the bounds (`image_box`).

A product of sets that are not empty determines its factors (`eq_of_wordsOf_eq`), and a box is a
product of ranges. So the addresses of a section under a mask are those of a section exactly if
every segment stays a range under its part of the mask (`Section.exists_section_iff`).
-/

namespace IpSpace

open Digits (Fit)

variable {width : Nat}

/-! ## Operations and digits -/

/-- An operation that acts on the bits above and below any place by themselves acts digit by
digit. -/
theorem Digits.split_bitwise {f : Nat → Nat → Nat}
    (hdiv : ∀ x y k, f x y / 2 ^ k = f (x / 2 ^ k) (y / 2 ^ k))
    (hmod : ∀ x y k, f x y % 2 ^ k = f (x % 2 ^ k) (y % 2 ^ k)) (width count x y : Nat) :
    split width count (f x y) = List.zipWith f (split width count x) (split width count y) := by
  induction count with
  | zero => rfl
  | succ count ih =>
      rw [split, hdiv, hmod, ih]
      rfl

namespace BitOp

/-- The value of the operation for a word and a mask. -/
def eval : BitOp → Nat → Nat → Nat
  | and, x, mask => x &&& mask
  | or, x, mask => x ||| mask

/-- A bitwise operation on words is one on their high bits. -/
theorem eval_div_two_pow (op : BitOp) (x mask k : Nat) :
    op.eval x mask / 2 ^ k = op.eval (x / 2 ^ k) (mask / 2 ^ k) := by
  cases op
  · exact Nat.and_div_two_pow
  · exact Nat.or_div_two_pow

/-- A bitwise operation on words is one on their low bits. -/
theorem eval_mod_two_pow (op : BitOp) (x mask k : Nat) :
    op.eval x mask % 2 ^ k = op.eval (x % 2 ^ k) (mask % 2 ^ k) := by
  cases op
  · exact Nat.and_mod_two_pow
  · exact Nat.or_mod_two_pow

/-- A bitwise operation keeps words as wide as they are. -/
theorem eval_lt (op : BitOp) {x mask k : Nat} (hx : x < 2 ^ k) (hmask : mask < 2 ^ k) :
    op.eval x mask < 2 ^ k := by
  cases op
  · exact Nat.lt_of_le_of_lt Nat.and_le_left hx
  · exact Nat.or_lt_two_pow hx hmask

/-- The operation acts digit by digit. -/
theorem split_eval (op : BitOp) (width count x mask : Nat) :
    Digits.split width count (op.eval x mask)
      = List.zipWith op.eval (Digits.split width count x) (Digits.split width count mask) :=
  Digits.split_bitwise op.eval_div_two_pow op.eval_mod_two_pow width count x mask

end BitOp

/-! ## Products of sets of digits -/

namespace Bounds

/-- The values from the lower to the upper end, as a set. -/
def values (b : Bounds) : Set Nat :=
  Set.Icc b.lower b.upper

theorem Within.values_nonempty {b : Bounds} (h : b.Within width) : b.values.Nonempty :=
  Set.nonempty_Icc.2 h.lower_le_upper

theorem Within.lt_of_mem_values {b : Bounds} (h : b.Within width) {d : Nat} (hd : d ∈ b.values) :
    d < 2 ^ width :=
  Nat.lt_of_le_of_lt hd.2 h.upper_lt

end Bounds

/-- One digit from each of the sets. -/
abbrev Draws (sets : List (Set Nat)) (digits : List Nat) : Prop :=
  List.Forall₂ (fun A d => d ∈ A) sets digits

/-- A word is drawn digit by digit. -/
theorem draws_cons {A : Set Nat} {sets : List (Set Nat)} {d : Nat} {digits : List Nat} :
    Draws (A :: sets) (d :: digits) ↔ d ∈ A ∧ Draws sets digits :=
  List.forall₂_cons

/-- Picking from bounds is drawing from their values. -/
theorem picks_iff_draws {bounds : List Bounds} {digits : List Nat} :
    Picks bounds digits ↔ Draws (bounds.map Bounds.values) digits := by
  rw [Draws, List.forall₂_map_left_iff]
  rfl

/-- The words whose digits, as many as there are sets, each lie in their set. -/
def wordsOf (width : Nat) (sets : List (Set Nat)) : Set Nat :=
  {x | x < 2 ^ (width * sets.length) ∧ Draws sets (Digits.split width sets.length x)}

/-- The words of a box are drawn from the values of its segments. -/
theorem box_eq_wordsOf (bounds : List Bounds) :
    box width bounds = wordsOf width (bounds.map Bounds.values) := by
  unfold box wordsOf
  simp only [List.length_map, picks_iff_draws]

/-- A word is in a product if its digits are drawn from the sets. -/
theorem value_mem_wordsOf {sets : List (Set Nat)} {digits : List Nat} (hfit : Fit width digits)
    (hlen : digits.length = sets.length) :
    Digits.value width digits ∈ wordsOf width sets ↔ Draws sets digits := by
  have hlt := Digits.value_lt hfit
  have hsplit := Digits.split_value hfit
  rw [hlen] at hlt hsplit
  show _ ∧ Draws sets _ ↔ _
  rw [hsplit]
  exact ⟨And.right, fun h => ⟨hlt, h⟩⟩

/-- From sets that are not empty some word is drawn. -/
theorem exists_draws {sets : List (Set Nat)} (hne : ∀ A ∈ sets, A.Nonempty) :
    ∃ digits, Draws sets digits := by
  induction sets with
  | nil => exact ⟨[], .nil⟩
  | cons A sets ih =>
      rw [List.forall_mem_cons] at hne
      obtain ⟨d, hd⟩ := hne.1
      obtain ⟨digits, hdigits⟩ := ih hne.2
      exact ⟨d :: digits, .cons hd hdigits⟩

/-- Products of sets that are not empty are equal only if their factors are: with one draw from the
other sets held fixed, the draws from one set can be told. -/
theorem eq_of_draws_iff {S T : List (Set Nat)} (hlen : S.length = T.length)
    (hne : ∀ A ∈ S, A.Nonempty) (h : ∀ digits, Draws S digits ↔ Draws T digits) : S = T := by
  induction S generalizing T with
  | nil => exact (List.length_eq_zero_iff.1 hlen.symm).symm
  | cons A S ih =>
      obtain ⟨B, T, rfl⟩ : ∃ B T', T = B :: T' :=
        List.exists_cons_of_length_pos (hlen.symm ▸ Nat.succ_pos S.length)
      -- With one word that is drawn, the sets are told apart place by place.
      obtain ⟨first, hfirst⟩ := exists_draws hne
      cases hfirst with
      | @cons _ d _ rest hd hrest =>
          have hsame := (h (d :: rest)).1 (.cons hd hrest)
          rw [draws_cons] at hsame
          have hhead : A = B := by
            ext e
            have hthere := h (e :: rest)
            rw [draws_cons, draws_cons] at hthere
            exact ⟨fun he => (hthere.1 ⟨he, hrest⟩).1, fun he => (hthere.2 ⟨he, hsame.2⟩).1⟩
          have htail : S = T := by
            refine ih (Nat.succ.inj hlen) (fun C hC => hne C (List.mem_cons_of_mem A hC)) ?_
            intro digits
            have hthere := h (d :: digits)
            rw [draws_cons, draws_cons] at hthere
            exact ⟨fun hdraws => (hthere.1 ⟨hd, hdraws⟩).2,
              fun hdraws => (hthere.2 ⟨hsame.1, hdraws⟩).2⟩
          rw [hhead, htail]

/-- Sets of digits. -/
def AreDigits (width : Nat) (sets : List (Set Nat)) : Prop :=
  ∀ A ∈ sets, ∀ d ∈ A, d < 2 ^ width

/-- What is drawn from sets of digits are digits. -/
theorem AreDigits.fit {sets : List (Set Nat)} (h : AreDigits width sets) {digits : List Nat}
    (hdraws : Draws sets digits) : Fit width digits := by
  induction hdraws with
  | nil => exact Digits.fit_nil
  | cons hd _ ih =>
      obtain ⟨hhead, htail⟩ := List.forall_mem_cons.1 h
      exact Digits.fit_cons.2 ⟨hhead _ hd, ih htail⟩

theorem areDigits_values {bounds : List Bounds} (h : ∀ b ∈ bounds, b.Within width) :
    AreDigits width (bounds.map Bounds.values) :=
  List.forall_mem_map.2 fun b hb _ => (h b hb).lt_of_mem_values

/-- **A product of digits determines its factors.** -/
theorem eq_of_wordsOf_eq {S T : List (Set Nat)} (hlen : S.length = T.length)
    (hne : ∀ A ∈ S, A.Nonempty) (hS : AreDigits width S) (hT : AreDigits width T)
    (h : wordsOf width S = wordsOf width T) : S = T := by
  refine eq_of_draws_iff hlen hne fun digits => ⟨fun hdraws => ?_, fun hdraws => ?_⟩
  · have hcount := hdraws.length_eq.symm
    rw [← value_mem_wordsOf (hS.fit hdraws) (hcount.trans hlen), ← h]
    exact (value_mem_wordsOf (hS.fit hdraws) hcount).2 hdraws
  · have hcount := hdraws.length_eq.symm
    rw [← value_mem_wordsOf (hT.fit hdraws) (hcount.trans hlen.symm), h]
    exact (value_mem_wordsOf (hT.fit hdraws) hcount).2 hdraws

/-! ## Boxes under a mask -/

section Box

variable {op : BitOp} {bounds : List Bounds} {masks : List Nat}

/-- What the bounds of a box become under the digits of a mask. -/
def maskedSets (op : BitOp) (bounds : List Bounds) (masks : List Nat) : List (Set Nat) :=
  List.zipWith (fun b mask => (op.eval · mask) '' b.values) bounds masks

theorem length_maskedSets (hlen : masks.length = bounds.length) :
    (maskedSets op bounds masks).length = bounds.length := by
  rw [maskedSets, List.length_zipWith, hlen, Nat.min_self]

/-- A property of what masks make of bounds, shown for each of them. -/
theorem forall_maskedSets {P : Set Nat → Prop} (hb : ∀ b ∈ bounds, b.Within width)
    (hfit : Fit width masks)
    (h : ∀ (b : Bounds) (mask : Nat), b.Within width → mask < 2 ^ width →
      P ((op.eval · mask) '' b.values)) : ∀ A ∈ maskedSets op bounds masks, P A := by
  intro A hA
  obtain ⟨index, hindex, rfl⟩ := List.getElem_of_mem hA
  rw [maskedSets, List.length_zipWith, Nat.lt_min] at hindex
  simp only [maskedSets, List.getElem_zipWith]
  exact h _ _ (hb _ (List.getElem_mem hindex.1)) (hfit _ (List.getElem_mem hindex.2))

/-- Masked values of a segment are values of a segment. -/
theorem areDigits_maskedSets (hb : ∀ b ∈ bounds, b.Within width) (hfit : Fit width masks) :
    AreDigits width (maskedSets op bounds masks) := by
  refine forall_maskedSets hb hfit fun b mask hwithin hmask => ?_
  rintro _ ⟨d, hd, rfl⟩
  exact op.eval_lt (hwithin.lt_of_mem_values hd) hmask

/-- Digits are drawn from what masks make of bounds if they are masked digits within the bounds. -/
theorem draws_maskedSets_iff (hlen : masks.length = bounds.length) {digits : List Nat} :
    Draws (maskedSets op bounds masks) digits ↔
      ∃ unmasked, Picks bounds unmasked ∧ List.zipWith op.eval unmasked masks = digits := by
  induction bounds generalizing masks digits with
  | nil =>
      constructor
      · intro hdraws
        cases hdraws
        exact ⟨[], .nil, rfl⟩
      · rintro ⟨unmasked, hpicks, rfl⟩
        cases hpicks
        exact .nil
  | cons b bounds ih =>
      obtain ⟨mask, masks, rfl⟩ : ∃ mask masks', masks = mask :: masks' :=
        List.exists_cons_of_length_pos (hlen ▸ Nat.succ_pos bounds.length)
      have hlen : masks.length = bounds.length := Nat.succ.inj hlen
      show Draws (_ :: maskedSets op bounds masks) digits ↔ _
      constructor
      · intro hdraws
        cases hdraws with
        | cons hfirst hrest =>
            obtain ⟨d, hd, rfl⟩ := hfirst
            obtain ⟨unmasked, hpicks, rfl⟩ := (ih hlen).1 hrest
            exact ⟨d :: unmasked, .cons hd hpicks, rfl⟩
      · rintro ⟨unmasked, hpicks, rfl⟩
        cases hpicks with
        | cons hd hpicks =>
            exact .cons ⟨_, hd, rfl⟩ ((ih hlen).2 ⟨_, hpicks, rfl⟩)

/-- **A box under a mask is the product of its bounds under the digits of the mask.** -/
theorem image_box (hb : ∀ b ∈ bounds, b.Within width) {mask : Nat}
    (hmask : mask < 2 ^ (width * bounds.length)) :
    (op.eval · mask) '' box width bounds
      = wordsOf width (maskedSets op bounds (Digits.split width bounds.length mask)) := by
  have hlen := Digits.length_split width bounds.length mask
  ext y
  show _ ↔ _ ∧ Draws _ _
  rw [length_maskedSets hlen, draws_maskedSets_iff hlen]
  constructor
  · rintro ⟨x, ⟨hx, hpicks⟩, rfl⟩
    exact ⟨op.eval_lt hx hmask, _, hpicks, (op.split_eval _ _ _ _).symm⟩
  · rintro ⟨hy, unmasked, hpicks, hdigits⟩
    have hfit : Fit width unmasked := (areDigits_values hb).fit (picks_iff_draws.1 hpicks)
    have hcount : unmasked.length = bounds.length := hpicks.length_eq.symm
    have hsplit := Digits.split_value hfit
    have hlt := Digits.value_lt hfit
    rw [hcount] at hsplit hlt
    refine ⟨Digits.value width unmasked, ⟨hlt, hsplit.symm ▸ hpicks⟩, ?_⟩
    -- Both are words, and they have the same digits.
    show op.eval _ mask = y
    rw [← Digits.value_split hy, ← hdigits, ← Digits.value_split (op.eval_lt hlt hmask),
      op.split_eval, hsplit]

end Box

/-! ## Sections under a mask -/

namespace Section

variable {s t : Section} {op : BitOp} {mask : Nat}

/-- What the report about a masked segment describes. -/
theorem describes_maskBounds (op : BitOp) {b : Bounds} (hb : b.Within width)
    (hmask : mask < 2 ^ width) :
    (maskBounds width op b mask).Describes ((op.eval · mask) '' b.values) := by
  cases op with
  | and => exact describes_maskRange hb.lower_le_upper hb.upper_lt mask
  | or => exact describes_orRange hb.lower_le_upper hb.upper_lt hmask

/-- What the segments of a section become under the parts of a mask. -/
def maskedSegments (s : Section) (op : BitOp) (mask : Nat) : List (Set Nat) :=
  maskedSets op s.bounds (s.version.split mask)

theorem length_maskedSegments (hs : s.WellFormed) :
    (s.maskedSegments op mask).length = s.version.segmentCount := by
  have hsplit : (s.version.split mask).length = s.bounds.length := by
    rw [Version.length_split, hs.length_bounds]
  rw [maskedSegments, length_maskedSets hsplit, hs.length_bounds]

/-- The addresses of a section under a mask. -/
theorem image_values (hs : s.WellFormed) (hmask : mask ≤ s.version.maxValue) :
    (op.eval · mask) '' s.values = wordsOf s.version.segmentBits (s.maskedSegments op mask) := by
  rw [Version.le_maxValue_iff, ← hs.length_bounds] at hmask
  rw [values_eq_box hs.length_bounds, image_box hs.within hmask, hs.length_bounds]
  rfl

/-- A section has these addresses if its bounds are what the segments become. -/
theorem values_eq_image (hs : s.WellFormed) (hmask : mask ≤ s.version.maxValue)
    (hversion : t.version = s.version)
    (hbounds : t.bounds.map Bounds.values = s.maskedSegments op mask) :
    t.values = (op.eval · mask) '' s.values := by
  have hlen : t.bounds.length = t.version.segmentCount := by
    have hcount := congrArg List.length hbounds
    rwa [List.length_map, length_maskedSegments hs, ← hversion] at hcount
  rw [image_values hs hmask, ← hbounds, ← box_eq_wordsOf, values_eq_box hlen, hversion]

/-- A section with these addresses has such bounds. -/
theorem values_of_eq_image (hs : s.WellFormed) (ht : t.WellFormed)
    (hmask : mask ≤ s.version.maxValue)
    (hversion : t.version = s.version) (hvalues : t.values = (op.eval · mask) '' s.values) :
    t.bounds.map Bounds.values = s.maskedSegments op mask := by
  have hwithin : ∀ b ∈ t.bounds, b.Within s.version.segmentBits := hversion ▸ ht.within
  refine eq_of_wordsOf_eq ?_ ?_ (areDigits_values hwithin)
    (areDigits_maskedSets hs.within (s.version.fit_split mask)) ?_
  · rw [List.length_map, ht.length_bounds, hversion, length_maskedSegments hs]
  · exact List.forall_mem_map.2 fun b hb => (hwithin b hb).values_nonempty
  · rw [← box_eq_wordsOf, ← hversion, ← values_eq_box ht.length_bounds, hvalues,
      image_values hs hmask, hversion]

/-- **The addresses of a section under a mask are those of a section exactly if each segment stays a
range.** -/
theorem exists_section_iff (hs : s.WellFormed) (hmask : mask ≤ s.version.maxValue) :
    (∃ t : Section, t.WellFormed ∧ t.version = s.version ∧
        t.values = (op.eval · mask) '' s.values) ↔
      ∀ A ∈ s.maskedSegments op mask, A.OrdConnected := by
  have hfit := s.version.fit_split mask
  constructor
  · rintro ⟨t, ht, hversion, hvalues⟩
    rw [← values_of_eq_image hs ht hmask hversion hvalues]
    exact List.forall_mem_map.2 fun b _ => Set.ordConnected_Icc
  · intro hconnected
    -- A segment whose values have no gap is that of the range from its least to its greatest.
    have hrange : ∀ A ∈ s.maskedSegments op mask,
        ∃ b : Bounds, b.Within s.version.segmentBits ∧ b.values = A := by
      intro A hA
      refine forall_maskedSets (P := fun A => A.OrdConnected → ∃ b : Bounds,
        b.Within s.version.segmentBits ∧ b.values = A) hs.within hfit ?_ A hA (hconnected A hA)
      intro b m hwithin hm hA
      have hreport := describes_maskBounds op hwithin hm
      have hc := hreport.contiguous_iff.2 hA
      exact ⟨_, within_maskBounds hwithin hc, (hreport.eq_Icc hc).symm⟩
    choose! bounds hwithin hvalues using hrange
    have hbounds : ((s.maskedSegments op mask).map bounds).map Bounds.values
        = s.maskedSegments op mask := by
      rw [List.map_map]
      exact (List.map_congr_left hvalues).trans (List.map_id _)
    refine ⟨⟨s.version, (s.maskedSegments op mask).map bounds, none⟩, ?_, rfl,
      values_eq_image hs hmask rfl hbounds⟩
    refine wellFormed_of_within ?_ (List.forall_mem_map.2 hwithin) (by simp)
    rw [List.length_map, length_maskedSegments hs]

end Section

end IpSpace
