import IpSpace.Proofs.Sequential

/-!
# Splitting a range into sequential sections

`runSpans` splits the words between two given ones into runs. Words of `n + 1` digits fall into
blocks of `2 ^ (width * n)` that share the first digit, and a run of such words lies within one
block, or else it is made of whole blocks. So a run that leads out of a block holds both this block
and the next one in whole (`runsOf_cross`).

The two ends of the words to be split cut a block each. What is left of these blocks is split on its
own, one digit further down (`IsRunSplit.map_single`); the whole blocks between them are one run
(`isRunSplit_blocks`); and since no run leads across the borders between the three
(`IsRunSplit.append`), every part is maximal in all of the words, and their number is the least.
-/

namespace IpSpace

open Digits (Fit value)

/-! ## Runs as sets of words -/

/-- The sets of words of `n` digits that are runs. -/
def runsOf (width n : Nat) : Set (Set Nat) :=
  {values | ∃ bounds : List Bounds,
    bounds.length = n ∧ IsRun width bounds ∧ box width bounds = values}

section Runs

variable {width n d : Nat} {b : Bounds} {bs : List Bounds} {other : Set Nat}

theorem mem_runsOf {bounds : List Bounds} (h : IsRun width bounds) :
    box width bounds ∈ runsOf width bounds.length :=
  ⟨bounds, rfl, h, rfl⟩

theorem IsRun.tail (h : IsRun width (b :: bs)) : IsRun width bs := by
  rcases h.2 with hfull | ⟨-, hrest⟩
  · exact isRun_of_full hfull
  · exact hrest

/-- A run that leads from one block to another holds all blocks on the way, and both ends, in
whole. -/
theorem runsOf_cross (h : other ∈ runsOf width (n + 1)) {x y z : Nat} (hx : x ∈ other)
    (hy : y ∈ other) (hcross : x / 2 ^ (width * n) < y / 2 ^ (width * n))
    (hxz : x / 2 ^ (width * n) ≤ z / 2 ^ (width * n))
    (hzy : z / 2 ^ (width * n) ≤ y / 2 ^ (width * n)) : z ∈ other := by
  obtain ⟨_ | ⟨b, bs⟩, hlen, hrun, rfl⟩ := h
  · cases hlen
  · obtain rfl : bs.length = n := Nat.succ.inj hlen
    rw [mem_box_cons hrun.1.upper_lt] at hx hy ⊢
    rcases hrun.2 with hfull | ⟨heq, -⟩
    · rw [(box_of_full hfull).1, Set.mem_Iio]
      exact ⟨⟨Nat.le_trans hx.1.1 hxz, Nat.le_trans hzy hy.1.2⟩, Nat.mod_lt _ (Nat.two_pow_pos _)⟩
    · -- A run with a single first digit stays within one block.
      have hxb := hx.1.1
      have hyb := hy.1.2
      omega

/-- A run within one block is a run of the words behind the first digit. -/
theorem exists_runsOf_of_block (h : other ∈ runsOf width (n + 1))
    (hblock : ∀ x ∈ other, x / 2 ^ (width * n) = d) :
    ∃ inner ∈ runsOf width n, ∀ x, x ∈ other ↔
      x / 2 ^ (width * n) = d ∧ x % 2 ^ (width * n) ∈ inner := by
  obtain ⟨_ | ⟨b, bs⟩, hlen, hrun, rfl⟩ := h
  · cases hlen
  · obtain rfl : bs.length = n := Nat.succ.inj hlen
    have hwithin := List.forall_mem_cons.1 hrun.within
    have hlower : b.lower = d := by
      have := hblock _ (boxLower_mem hrun.within)
      rwa [boxLower_cons, (Digits.mul_add_div_mod (lt_of_mem_box (boxLower_mem hwithin.2))).1]
        at this
    have hupper : b.upper = d := by
      have := hblock _ (boxUpper_mem hrun.within)
      rwa [boxUpper_cons, (Digits.mul_add_div_mod (lt_of_mem_box (boxUpper_mem hwithin.2))).1]
        at this
    refine ⟨_, mem_runsOf hrun.tail, fun x => ?_⟩
    rw [mem_box_cons hrun.1.upper_lt, Bounds.mem_iff, hlower, hupper]
    refine and_congr_left' ?_
    omega

end Runs

/-! ## Splits of an interval of words -/

/-- Bounds that are runs, tile the words from `lower` up to, and without, `bound`, and cannot be
widened there. -/
structure IsRunSplit (width n lower bound : Nat) (parts : List (List Bounds)) : Prop where
  isRun : ∀ p ∈ parts, p.length = n ∧ IsRun width p
  tiles : Tiles (boxLower width) (boxUpper width) lower parts bound
  isMaximal : ∀ p ∈ parts, IsMaximal (runsOf width n) (Set.Ico lower bound) (box width p)

section Splits

variable {width n lower middle bound : Nat} {xs ys parts : List (List Bounds)}

theorem IsRunSplit.nil : IsRunSplit width n lower lower [] :=
  ⟨by simp, rfl, by simp⟩

/-- Splits of adjacent intervals make up a split if no run inside leads across the border. -/
theorem IsRunSplit.append (hx : IsRunSplit width n lower middle xs)
    (hy : IsRunSplit width n middle bound ys)
    (hcut : ∀ other ∈ runsOf width n, other ⊆ Set.Ico lower bound →
      ∀ x ∈ other, ∀ y ∈ other, x < middle → y < middle) :
    IsRunSplit width n lower bound (xs ++ ys) where
  isRun := List.forall_mem_append.2 ⟨hx.isRun, hy.isRun⟩
  tiles := hx.tiles.append hy.tiles
  isMaximal := by
    have hlower := hx.tiles.le
    have hbound := hy.tiles.le
    refine List.forall_mem_append.2 ⟨fun p hp => ?_, fun p hp => ?_⟩
    · refine (hx.isMaximal p hp).of_subset (Set.Ico_subset_Ico_right hbound) ?_
      rintro other hother hsub ⟨x, hxo, -, hxm⟩ y hyo
      exact ⟨(hsub hyo).1, hcut other hother hsub x hxo y hyo hxm⟩
    · refine (hy.isMaximal p hp).of_subset (Set.Ico_subset_Ico_left hlower) ?_
      rintro other hother hsub ⟨x, hxo, hxm, -⟩ y hyo
      refine ⟨?_, (hsub hyo).2⟩
      by_contra hlt
      exact absurd (hcut other hother hsub y hyo x hxo (not_le.1 hlt)) (not_lt.2 hxm)

/-- The words of an interval of a block are those whose first digit is that of the block and whose
rest lies in the interval. -/
private theorem mem_Ico_block {m d lower bound x : Nat} (hbound : bound ≤ m) :
    x ∈ Set.Ico (d * m + lower) (d * m + bound) ↔ x / m = d ∧ x % m ∈ Set.Ico lower bound := by
  have hx := Digits.div_mul_add_mod x m
  rw [Set.mem_Ico, Set.mem_Ico]
  constructor
  · intro hin
    have hdiv : x / m = d := Nat.div_eq_of_lt_le (by omega) (by rw [Nat.succ_mul]; omega)
    rw [hdiv] at hx
    exact ⟨hdiv, by omega⟩
  · rintro ⟨rfl, hin⟩
    omega

/-- A run that is maximal in an interval of words stays so behind a digit. -/
private theorem isMaximal_single_cons {d : Nat} {p : List Bounds} (hd : d < 2 ^ width)
    (hlen : p.length = n) (hrun : IsRun width p)
    (hmax : IsMaximal (runsOf width n) (Set.Ico lower bound) (box width p))
    (hbound : bound ≤ 2 ^ (width * n)) :
    IsMaximal (runsOf width (n + 1))
      (Set.Ico (d * 2 ^ (width * n) + lower) (d * 2 ^ (width * n) + bound))
      (box width (Bounds.single d :: p)) where
  mem_kind := ⟨Bounds.single d :: p, congrArg (· + 1) hlen,
    ⟨Bounds.within_single hd, Or.inr ⟨rfl, hrun⟩⟩, rfl⟩
  subset x hx := by
    rw [mem_box_cons hd, hlen, Bounds.mem_single] at hx
    exact (mem_Ico_block hbound).2 ⟨hx.1, hmax.subset hx.2⟩
  absorbs := by
    rintro other hother hsub ⟨x, hxo, hxp⟩
    -- The other run lies in the same block, and what counts is its part behind the digit.
    obtain ⟨inner, hinner, hiff⟩ :=
      exists_runsOf_of_block hother fun y hy => ((mem_Ico_block hbound).1 (hsub hy)).1
    have hsub' : inner ⊆ Set.Ico lower bound := by
      intro z hz
      have hlt : z < 2 ^ (width * n) := by
        obtain ⟨bounds, rfl, -, rfl⟩ := hinner
        exact lt_of_mem_box hz
      obtain ⟨hdiv, hmod⟩ := Digits.mul_add_div_mod (q := d) hlt
      have hzo : d * 2 ^ (width * n) + z ∈ other := (hiff _).2 ⟨hdiv, hmod.symm ▸ hz⟩
      have hin := ((mem_Ico_block hbound).1 (hsub hzo)).2
      rwa [hmod] at hin
    rw [mem_box_cons hd, hlen] at hxp
    have habsorb : inner ⊆ box width p :=
      hmax.absorbs inner hinner hsub' ⟨_, ((hiff x).1 hxo).2, hxp.2⟩
    intro y hy
    rw [mem_box_cons hd, hlen, Bounds.mem_single]
    exact ⟨((hiff y).1 hy).1, habsorb ((hiff y).1 hy).2⟩

/-- Putting a digit in front of a split makes a split of words in the block of the digit. -/
theorem IsRunSplit.map_single (h : IsRunSplit width n lower bound parts) {d : Nat}
    (hd : d < 2 ^ width) (hbound : bound ≤ 2 ^ (width * n)) :
    IsRunSplit width (n + 1) (d * 2 ^ (width * n) + lower) (d * 2 ^ (width * n) + bound)
      (parts.map (Bounds.single d :: ·)) where
  isRun := by
    refine List.forall_mem_map.2 fun p hp => ?_
    obtain ⟨hlen, hrun⟩ := h.isRun p hp
    exact ⟨congrArg (· + 1) hlen, Bounds.within_single hd, Or.inr ⟨rfl, hrun⟩⟩
  tiles := by
    refine h.tiles.map_add _ (fun p hp => ?_) fun p hp => ?_
    · rw [boxLower_cons, (h.isRun p hp).1]
      rfl
    · rw [boxUpper_cons, (h.isRun p hp).1]
      rfl
  isMaximal := by
    refine List.forall_mem_map.2 fun p hp => ?_
    obtain ⟨hlen, hrun⟩ := h.isRun p hp
    exact isMaximal_single_cons hd hlen hrun (h.isMaximal p hp) hbound

/-- Whole blocks are a single run. -/
private theorem isRunSplit_block {b : Bounds} {bs : List Bounds} (hb : b.Within width)
    (hfull : ∀ c ∈ bs, c = Bounds.full width) :
    IsRunSplit width (bs.length + 1) (b.lower * 2 ^ (width * bs.length))
      ((b.upper + 1) * 2 ^ (width * bs.length)) [b :: bs] := by
  have hrun : IsRun width (b :: bs) := ⟨hb, Or.inl hfull⟩
  obtain ⟨-, hzero, hmax⟩ := box_of_full hfull
  have hle := Nat.mul_le_mul_right (2 ^ (width * bs.length)) hb.lower_le_upper
  have hlower : boxLower width (b :: bs) = b.lower * 2 ^ (width * bs.length) := by
    rw [boxLower_cons, hzero, Nat.add_zero]
  have hupper : boxUpper width (b :: bs) + 1 = (b.upper + 1) * 2 ^ (width * bs.length) := by
    rw [boxUpper_cons, Nat.succ_mul]
    omega
  -- As all segments behind the first one are full, the words of the run have no gaps.
  have hbox : box width (b :: bs) = Set.Ico (b.lower * 2 ^ (width * bs.length))
      ((b.upper + 1) * 2 ^ (width * bs.length)) := by
    rw [hrun.box_eq_Icc, ← hlower, ← hupper]
    ext x
    rw [Set.mem_Icc, Set.mem_Ico, Nat.lt_succ_iff]
  refine ⟨?_, ?_, ?_⟩
  · exact List.forall_mem_singleton.2 ⟨rfl, hrun⟩
  · refine ⟨hlower, ?_, hupper⟩
    rw [Nat.succ_mul] at hupper
    omega
  · refine List.forall_mem_singleton.2 ?_
    rw [← hbox]
    exact .self (mem_runsOf hrun)

/-- Whole blocks are a single run, or nothing if there are none. -/
theorem isRunSplit_blocks {first last : Nat} (hlast : last < 2 ^ width) (hle : first ≤ last + 1) :
    IsRunSplit width (n + 1) (first * 2 ^ (width * n)) ((last + 1) * 2 ^ (width * n))
      (if first ≤ last then [⟨first, last⟩ :: List.replicate n (Bounds.full width)] else []) := by
  split
  · rename_i hfirst
    have hsplit := isRunSplit_block (b := ⟨first, last⟩) ⟨hfirst, hlast⟩
      fun c (hc : c ∈ List.replicate n (Bounds.full width)) => List.eq_of_mem_replicate hc
    rwa [List.length_replicate] at hsplit
  · obtain rfl : first = last + 1 := by omega
    exact .nil

/-- No run inside the words crosses the end of the block that the lower end cuts: it would hold all
of the block. -/
private theorem lt_of_cut_below {d r bound x y : Nat} {other : Set Nat} (hr : r ≠ 0)
    (hother : other ∈ runsOf width (n + 1)) (hsub : other ⊆ Set.Ico (d * 2 ^ (width * n) + r) bound)
    (hx : x ∈ other) (hy : y ∈ other) (hlt : x < (d + 1) * 2 ^ (width * n)) :
    y < (d + 1) * 2 ^ (width * n) := by
  have hpos := Nat.two_pow_pos (width * n)
  by_contra hge
  have hlower := (hsub hx).1
  have hxd : x / 2 ^ (width * n) = d := Nat.div_eq_of_lt_le (by omega) hlt
  have hyd : d + 1 ≤ y / 2 ^ (width * n) := (Nat.le_div_iff_mul_le hpos).2 (not_lt.1 hge)
  -- The first word of the block is below the lower end, yet on the way.
  have hstart : d * 2 ^ (width * n) / 2 ^ (width * n) = d := Nat.mul_div_cancel _ hpos
  have hmem := runsOf_cross hother hx hy (z := d * 2 ^ (width * n)) (by omega) (by omega) (by omega)
  have := (hsub hmem).1
  omega

/-- No run inside the words crosses the start of the block that the upper end cuts: it would hold
all of the block. -/
private theorem lt_of_cut_above {e q lower x y : Nat} {other : Set Nat}
    (hq : q < 2 ^ (width * n)) (hother : other ∈ runsOf width (n + 1))
    (hsub : other ⊆ Set.Ico lower (e * 2 ^ (width * n) + q)) (hx : x ∈ other) (hy : y ∈ other)
    (hlt : x < e * 2 ^ (width * n)) : y < e * 2 ^ (width * n) := by
  have hpos := Nat.two_pow_pos (width * n)
  by_contra hge
  have hupper := (hsub hy).2
  have hxe : x / 2 ^ (width * n) < e := (Nat.div_lt_iff_lt_mul hpos).2 hlt
  have hye : y / 2 ^ (width * n) = e :=
    Nat.div_eq_of_lt_le (not_lt.1 hge) (by rw [Nat.succ_mul]; omega)
  -- The word at the upper end is not among the words, yet on the way.
  have hstop : (e * 2 ^ (width * n) + q) / 2 ^ (width * n) = e := (Digits.mul_add_div_mod hq).1
  have hmem := runsOf_cross hother hx hy (z := e * 2 ^ (width * n) + q) (by omega) (by omega)
    (by omega)
  have := (hsub hmem).2
  omega

/-- What is left of the block that the lower end cuts. -/
private theorem IsRunSplit.front {d r : Nat} (h : IsRunSplit width n r (2 ^ (width * n)) xs)
    (hd : d < 2 ^ width) :
    IsRunSplit width (n + 1) (d * 2 ^ (width * n) + r)
      ((if r = 0 then d else d + 1) * 2 ^ (width * n))
      (if r = 0 then [] else xs.map (Bounds.single d :: ·)) := by
  split
  · subst r
    exact .nil
  · rw [Nat.succ_mul]
    exact h.map_single hd (Nat.le_refl _)

/-- What is left of the block that the upper end cuts. -/
private theorem IsRunSplit.back {e q : Nat} (h : IsRunSplit width n 0 q xs) (hpos : 0 < e)
    (he : e < 2 ^ width) (hq : q ≤ 2 ^ (width * n)) :
    IsRunSplit width (n + 1)
      (((if q = 2 ^ (width * n) then e else e - 1) + 1) * 2 ^ (width * n))
      (e * 2 ^ (width * n) + q)
      (if q = 2 ^ (width * n) then [] else xs.map (Bounds.single e :: ·)) := by
  split
  · subst q
    rw [Nat.succ_mul]
    exact .nil
  · rw [Nat.sub_add_cancel hpos]
    exact h.map_single he hq

/-- The words between ends in different blocks split into what is left of the two blocks that the
ends cut and the whole blocks between these. An end that cuts no block leaves all of its block to
the middle. -/
theorem IsRunSplit.of_ends {d e r q : Nat} (hde : d < e) (he : e < 2 ^ width)
    (hq : q ≤ 2 ^ (width * n)) (hx : IsRunSplit width n r (2 ^ (width * n)) xs)
    (hy : IsRunSplit width n 0 q ys) :
    IsRunSplit width (n + 1) (d * 2 ^ (width * n) + r) (e * 2 ^ (width * n) + q)
      ((if r = 0 then [] else xs.map (Bounds.single d :: ·))
        ++ (if (if r = 0 then d else d + 1) ≤ (if q = 2 ^ (width * n) then e else e - 1) then
          [⟨if r = 0 then d else d + 1, if q = 2 ^ (width * n) then e else e - 1⟩
            :: List.replicate n (Bounds.full width)] else [])
        ++ (if q = 2 ^ (width * n) then [] else ys.map (Bounds.single e :: ·))) := by
  have hlast : (if q = 2 ^ (width * n) then e else e - 1) < 2 ^ width := by
    split <;> omega
  have hfirst : (if r = 0 then d else d + 1) ≤ (if q = 2 ^ (width * n) then e else e - 1) + 1 := by
    split <;> split <;> omega
  refine ((hx.front (by omega)).append (isRunSplit_blocks hlast hfirst) ?_).append
    (hy.back (by omega) he hq) ?_
  · intro other hother hsub x hx y hy hlt
    split at hlt
    · -- The lower end cuts no block, so no word lies below the first whole one.
      have := (hsub hx).1
      omega
    · rw [if_neg ‹_›]
      exact lt_of_cut_below ‹_› hother hsub hx hy hlt
  · intro other hother hsub x hx y hy hlt
    split at hlt
    · rw [if_pos ‹_›, Nat.succ_mul]
      have := (hsub hy).2
      omega
    · rw [if_neg ‹_›]
      rw [Nat.sub_add_cancel (by omega)] at hlt ⊢
      exact lt_of_cut_above (by omega) hother hsub hx hy hlt

end Splits

/-! ## The algorithm -/

section Spans

variable {width max : Nat} {ds es : List Nat}

@[simp]
theorem fullTail_eq (max : Nat) (ds : List Nat) :
    fullTail max ds = List.replicate ds.length ⟨0, max⟩ :=
  List.map_const ..

/-- Digits that are all zero write zero. -/
theorem all_zero_iff (width : Nat) (ds : List Nat) :
    ds.all (· == 0) = true ↔ value width ds = 0 := by
  induction ds with
  | nil => simp [value]
  | cons d ds ih =>
      have hpos := Nat.two_pow_pos (width * ds.length)
      rw [List.all_cons, Bool.and_eq_true, ih, beq_iff_eq, value, Nat.add_eq_zero_iff,
        Nat.mul_eq_zero, or_iff_left hpos.ne']

/-- Digits that are all the largest write the last number of their length. -/
theorem all_max_iff (h : Fit width ds) :
    ds.all (· == 2 ^ width - 1) = true ↔ value width ds + 1 = 2 ^ (width * ds.length) := by
  induction ds with
  | nil => simp [value]
  | cons d ds ih =>
      rw [Digits.fit_cons] at h
      have hvalue := Digits.value_lt h.2
      rw [List.all_cons, Bool.and_eq_true, ih h.2, beq_iff_eq, value, List.length_cons,
        Digits.pow_mul_succ]
      constructor
      · rintro ⟨rfl, hrest⟩
        rw [Nat.add_assoc, hrest, ← Nat.succ_mul, Nat.succ_eq_add_one,
          Nat.sub_add_cancel (Nat.two_pow_pos width)]
      · intro heq
        have hd : 2 ^ width ≤ d + 1 := by
          refine Nat.le_of_mul_le_mul_right ?_ (Nat.two_pow_pos (width * ds.length))
          rw [Nat.succ_mul]
          omega
        obtain rfl : d = 2 ^ width - 1 := by omega
        have hsplit := Nat.succ_mul (2 ^ width - 1) (2 ^ (width * ds.length))
        rw [Nat.succ_eq_add_one, Nat.sub_add_cancel (Nat.two_pow_pos width)] at hsplit
        exact ⟨rfl, by omega⟩

theorem value_replicate_zero (width n : Nat) :
    Fit width (List.replicate n 0) ∧ value width (List.replicate n 0) = 0 := by
  refine ⟨fun d hd => ?_, (all_zero_iff width _).1 (by simp)⟩
  rw [List.eq_of_mem_replicate hd]
  exact Nat.two_pow_pos width

theorem value_replicate_max (width n : Nat) :
    Fit width (List.replicate n (2 ^ width - 1)) ∧
      value width (List.replicate n (2 ^ width - 1)) + 1 = 2 ^ (width * n) := by
  have hfit : Fit width (List.replicate n (2 ^ width - 1)) := by
    intro d hd
    rw [List.eq_of_mem_replicate hd]
    exact Nat.sub_lt (Nat.two_pow_pos width) Nat.one_pos
  have hvalue := (all_max_iff hfit).1 (by simp)
  rw [List.length_replicate] at hvalue
  exact ⟨hfit, hvalue⟩

/-- All tuples are one run. -/
private theorem runSpans_full (hmax : 0 < max) (n : Nat) :
    runSpans max (List.replicate n 0) (List.replicate n max) = [List.replicate n ⟨0, max⟩] := by
  cases n with
  | zero => rfl
  | succ n => simp [List.replicate_succ, runSpans, hmax.ne]

/-- Splitting the tuples from given digits on is splitting those up to the largest digits. -/
theorem runsFrom_eq (hmax : 0 < max) (h : ∀ d ∈ ds, d ≤ max) :
    runsFrom max ds = runSpans max ds (List.replicate ds.length max) := by
  induction ds with
  | nil => rfl
  | cons d ds ih =>
      rw [List.forall_mem_cons] at h
      rw [runsFrom, List.length_cons, List.replicate_succ, runSpans]
      have hall : (List.replicate ds.length max).all (· == max) = true := by simp
      simp only [hall, if_true, List.append_nil, fullTail_eq]
      by_cases hzero : ds.all (· == 0) = true
      · -- The block of the first digit is whole and belongs to the run behind it.
        have hds : ds = List.replicate ds.length 0 :=
          List.eq_replicate_length.2 fun d hd => beq_iff_eq.1 (List.all_eq_true.1 hzero d hd)
        rw [if_pos hzero, if_pos hzero, if_pos hzero, if_pos h.1, List.nil_append]
        rcases Nat.lt_or_eq_of_le h.1 with hd | rfl
        · rw [if_neg hd.ne]
        · rw [if_pos rfl]
          conv_rhs => rw [hds]
          rw [List.length_replicate, runSpans_full hmax]
          rfl
      · rw [if_neg hzero, if_neg hzero, if_neg hzero, ih h.2]
        rcases Nat.lt_or_eq_of_le h.1 with hd | rfl
        · rw [if_pos hd, if_neg hd.ne, if_pos (Nat.succ_le_of_lt hd)]
        · rw [if_neg (Nat.lt_irrefl _), if_pos rfl, List.append_nil]

/-- Splitting the tuples up to given digits is splitting those from zeros on. -/
theorem runsUpTo_eq (hmax : 0 < max) :
    runsUpTo max ds = runSpans max (List.replicate ds.length 0) ds := by
  induction ds with
  | nil => rfl
  | cons d ds ih =>
      rw [runsUpTo, List.length_cons, List.replicate_succ, runSpans]
      have hall : (List.replicate ds.length 0).all (· == 0) = true := by simp
      simp only [hall, if_true, List.nil_append, fullTail_eq, List.length_replicate]
      by_cases hfull : ds.all (· == max) = true
      · -- The block of the first digit is whole and belongs to the run before it.
        have hds : ds = List.replicate ds.length max :=
          List.eq_replicate_length.2 fun d hd => beq_iff_eq.1 (List.all_eq_true.1 hfull d hd)
        rw [if_pos hfull, if_pos hfull, if_pos hfull, if_pos (Nat.zero_le d), List.append_nil]
        rcases Nat.eq_zero_or_pos d with rfl | hd
        · rw [if_pos rfl]
          conv_rhs => rw [hds]
          rw [List.length_replicate, runSpans_full hmax]
          rfl
        · rw [if_neg hd.ne]
      · rw [if_neg hfull, if_neg hfull, if_neg hfull, ih]
        rcases Nat.eq_zero_or_pos d with rfl | hd
        · rw [if_neg (Nat.lt_irrefl 0), if_pos rfl, List.nil_append]
        · rw [if_pos hd, if_neg hd.ne, if_pos (Nat.zero_le _)]

/-- The one word without digits is a run. -/
private theorem isRunSplit_nil : IsRunSplit width 0 0 1 [[]] := by
  have hrun : IsRun width [] := trivial
  have hbox : box width [] = Set.Ico 0 1 := by
    ext x
    rw [mem_box_nil, Set.mem_Ico]
    omega
  refine ⟨List.forall_mem_singleton.2 ⟨rfl, hrun⟩, ⟨rfl, Nat.le_refl 0, rfl⟩, ?_⟩
  refine List.forall_mem_singleton.2 ?_
  rw [← hbox]
  exact .self (mem_runsOf hrun)

/-- **Splitting words into runs is exact and maximal.** -/
theorem isRunSplit_runSpans (hwidth : 0 < width) (hds : Fit width ds) (hes : Fit width es)
    (hlen : es.length = ds.length) (hle : value width ds ≤ value width es) :
    IsRunSplit width ds.length (value width ds) (value width es + 1)
      (runSpans (2 ^ width - 1) ds es) := by
  have hmax : 0 < 2 ^ width - 1 := by
    have := Nat.one_lt_two_pow hwidth.ne'
    omega
  -- The induction is on the length, since the ends of the blocks take the place of the digits.
  obtain ⟨n, hn⟩ : ∃ n, ds.length = n := ⟨_, rfl⟩
  induction n generalizing ds es with
  | zero =>
      obtain rfl := List.eq_nil_of_length_eq_zero hn
      obtain rfl := List.eq_nil_of_length_eq_zero hlen
      exact isRunSplit_nil
  | succ n ih =>
      obtain ⟨d, ds, rfl⟩ := List.exists_cons_of_length_eq_add_one hn
      obtain ⟨e, es, rfl⟩ := List.exists_cons_of_length_eq_add_one (hlen.trans hn)
      obtain rfl : ds.length = n := Nat.succ.inj hn
      have hlen' : es.length = ds.length := Nat.succ.inj hlen
      rw [Digits.fit_cons] at hds hes
      have hr := Digits.value_lt hds.2
      have hq := Digits.value_lt hes.2
      rw [hlen'] at hq
      simp only [value, hlen'] at hle ⊢
      rw [runSpans, List.length_cons]
      split
      · subst e
        rw [Nat.add_assoc]
        exact (ih hds.2 hes.2 hlen' (by omega) rfl).map_single hds.1 (by omega)
      · rename_i hne
        have hde : d < e := by
          rw [Digits.le_cons_iff hr, (Digits.mul_add_div_mod hq).1] at hle
          omega
        -- Below this digit each end is split against the end of its block.
        obtain ⟨hmaxFit, hmaxValue⟩ := value_replicate_max width ds.length
        obtain ⟨hzeroFit, hzeroValue⟩ := value_replicate_zero width ds.length
        have hfront : IsRunSplit width ds.length (value width ds) (2 ^ (width * ds.length))
            (runsFrom (2 ^ width - 1) ds) := by
          rw [runsFrom_eq hmax fun d hd => Nat.le_sub_one_of_lt (hds.2 d hd)]
          have hsplit := ih hds.2 hmaxFit (List.length_replicate ..) (by omega) rfl
          rwa [hmaxValue] at hsplit
        have hback : IsRunSplit width ds.length 0 (value width es + 1)
            (runsUpTo (2 ^ width - 1) es) := by
          rw [runsUpTo_eq hmax, hlen']
          have hsplit := ih hzeroFit hes.2 (by rw [hlen', List.length_replicate]) (by omega)
            (List.length_replicate ..)
          rwa [hzeroValue, List.length_replicate] at hsplit
        simp only [all_zero_iff width, all_max_iff hes.2, hlen', fullTail_eq]
        rw [Nat.add_assoc]
        exact .of_ends hde hes.1 hq hfront hback

/-! ## The number of runs -/

/-- The whole blocks behind or before an end are at most one run. -/
private theorem length_blocks_le {p : Prop} [Decidable p] (run : List Bounds) :
    (if p then [run] else []).length ≤ 1 := by
  split
  · exact Nat.le_refl 1
  · exact Nat.zero_le 1

/-- From digits on there are no more runs than digits: every digit adds the whole blocks behind the
one that it cuts. -/
theorem length_runsFrom_le (h : ds ≠ []) : (runsFrom max ds).length ≤ ds.length := by
  induction ds with
  | nil => exact absurd rfl h
  | cons d ds ih =>
      rw [runsFrom, List.length_cons]
      split
      case isTrue => exact Nat.le_add_left 1 _
      case isFalse hzero =>
        have hrest := ih fun hnil => hzero (by rw [hnil, List.all_nil])
        have hblocks := length_blocks_le (p := d < max) (⟨d + 1, max⟩ :: fullTail max ds)
        rw [List.length_append, List.length_map]
        omega

/-- Up to digits there are no more runs than digits. -/
theorem length_runsUpTo_le (h : ds ≠ []) : (runsUpTo max ds).length ≤ ds.length := by
  induction ds with
  | nil => exact absurd rfl h
  | cons d ds ih =>
      rw [runsUpTo, List.length_cons]
      split
      case isTrue => exact Nat.le_add_left 1 _
      case isFalse hmax =>
        have hrest := ih fun hnil => hmax (by rw [hnil, List.all_nil])
        have hblocks := length_blocks_le (p := 0 < d) (⟨0, d - 1⟩ :: fullTail max ds)
        rw [List.length_append, List.length_map]
        omega

/-- Splitting takes no more than two runs per digit, less one: the digit in which the ends differ
adds one run of whole blocks, and each digit behind it one run on either side. -/
theorem length_runSpans_le (hds : ds ≠ []) (hlen : es.length = ds.length) :
    (runSpans max ds es).length ≤ 2 * ds.length - 1 := by
  induction ds generalizing es with
  | nil => exact absurd rfl hds
  | cons d ds ih =>
      obtain ⟨e, es, rfl⟩ := List.exists_cons_of_length_eq_add_one hlen
      have hlen' : es.length = ds.length := Nat.succ.inj hlen
      rw [runSpans, List.length_cons]
      split
      case isTrue =>
        -- Where the first segments agree, the runs are those of the rest, or one without a rest.
        rw [List.length_map]
        cases ds with
        | nil =>
            obtain rfl := List.eq_nil_of_length_eq_zero hlen'
            exact Nat.le_refl 1
        | cons c cs =>
            have hrest := ih (List.cons_ne_nil c cs) hlen'
            omega
      case isFalse =>
        have hfront : (if ds.all (· == 0) then []
            else (runsFrom max ds).map (Bounds.single d :: ·)).length ≤ ds.length := by
          split
          case isTrue => exact Nat.zero_le _
          case isFalse hzero =>
            rw [List.length_map]
            exact length_runsFrom_le fun hnil => hzero (by rw [hnil, List.all_nil])
        have hback : (if es.all (· == max) then []
            else (runsUpTo max es).map (Bounds.single e :: ·)).length ≤ es.length := by
          split
          case isTrue => exact Nat.zero_le _
          case isFalse hmax =>
            rw [List.length_map]
            exact length_runsUpTo_le fun hnil => hmax (by rw [hnil, List.all_nil])
        rw [List.length_append, List.length_append]
        refine Nat.le_trans (Nat.add_le_add (Nat.add_le_add hfront (length_blocks_le _)) hback) ?_
        omega

end Spans

/-! ## Ranges -/

namespace Section

/-- A sequential section of a version. -/
structure IsSequentialOf (version : Version) (s : Section) : Prop where
  version_eq : s.version = version
  wellFormed : s.WellFormed
  isSequential : s.isSequential = true

/-- Sequential sections have no gaps. -/
theorem isIntervalKind_isSequentialOf (version : Version) :
    IsIntervalKind (IsSequentialOf version) where
  wellFormed _ h := h.wellFormed
  isInterval _ h := isInterval_of_isSequential h.wellFormed h.isSequential

/-- As sets of addresses, sequential sections are runs. -/
theorem valuesOf_isSequentialOf_subset (version : Version) :
    valuesOf (IsSequentialOf version) ⊆ runsOf version.segmentBits version.segmentCount := by
  rintro _ ⟨s, ⟨rfl, hwf, hseq⟩, rfl⟩
  rw [values_eq_box hwf.length_bounds, ← hwf.length_bounds]
  exact mem_runsOf ((isSequential_iff hwf).1 hseq)

/-- Bounds that are a run make a sequential section. -/
theorem isSequentialOf_of_isRun {version : Version} {bounds : List Bounds}
    (hlen : bounds.length = version.segmentCount) (hrun : IsRun version.segmentBits bounds) :
    IsSequentialOf version ⟨version, bounds, none⟩ := by
  have hwf : (⟨version, bounds, none⟩ : Section).WellFormed :=
    wellFormed_of_within hlen hrun.within (by simp)
  exact ⟨rfl, hwf, (isSequential_iff hwf).2 hrun⟩

end Section

namespace AddressRange

variable {r : AddressRange}

/-- The segments of the two ends of a range split into runs that make it up. -/
private theorem isRunSplit_of_wellFormed (hr : r.WellFormed) :
    IsRunSplit r.version.segmentBits r.version.segmentCount r.lower (r.upper + 1)
      (runSpans r.version.segmentMax (r.version.split r.lower) (r.version.split r.upper)) := by
  have hupper := Version.le_maxValue_iff.1 hr.upper_le_max
  have hlowerValue : value r.version.segmentBits (r.version.split r.lower) = r.lower :=
    Digits.value_split (Nat.lt_of_le_of_lt hr.lower_le_upper hupper)
  have hupperValue : value r.version.segmentBits (r.version.split r.upper) = r.upper :=
    Digits.value_split hupper
  have hle := hr.lower_le_upper
  rw [← hlowerValue, ← hupperValue] at hle
  have hsplit := isRunSplit_runSpans r.version.segmentBits_pos (r.version.fit_split _)
    (r.version.fit_split _) (by rw [Version.length_split, Version.length_split]) hle
  rwa [hlowerValue, hupperValue, Version.length_split] at hsplit

/-- Splitting a range into sequential sections yields maximal ones that tile it. -/
theorem isSplit_toRuns (hr : r.WellFormed) :
    Section.IsSplit (Section.IsSequentialOf r.version) r r.toRuns := by
  have hsplit := isRunSplit_of_wellFormed hr
  have hkind : ∀ bounds ∈ runSpans r.version.segmentMax (r.version.split r.lower)
      (r.version.split r.upper), Section.IsSequentialOf r.version ⟨r.version, bounds, none⟩ := by
    intro bounds hb
    obtain ⟨hlen, hrun⟩ := hsplit.isRun bounds hb
    exact Section.isSequentialOf_of_isRun hlen hrun
  refine ⟨List.forall_mem_map.2 hkind, ?_, List.forall_mem_map.2 fun bounds hb => ?_⟩
  · exact hsplit.tiles.map (fun bounds hb => Section.lowerValue_eq (hkind bounds hb).wellFormed)
      fun bounds hb => Section.upperValue_eq (hkind bounds hb).wellFormed
  · have hmax := hsplit.isMaximal bounds hb
    have hIco : Set.Ico r.lower (r.upper + 1) = r.values := by
      ext x
      rw [Set.mem_Ico, mem_values, Nat.lt_succ_iff]
    rw [hIco] at hmax
    rw [Section.values_eq_box (hkind bounds hb).wellFormed.length_bounds]
    refine hmax.mono (Section.valuesOf_isSequentialOf_subset r.version) ⟨_, hkind bounds hb, ?_⟩
    exact Section.values_eq_box (hkind bounds hb).wellFormed.length_bounds

/-- The sequential sections of a split carry no prefix length. -/
theorem prefixLen_of_mem_toRuns {s : Section} (hs : s ∈ r.toRuns) : s.prefixLen = none := by
  obtain ⟨bounds, -, rfl⟩ := List.mem_map.1 hs
  rfl

/-- **Splitting a range into sequential sections is exact and shortest.** The sections carry no
prefix length, are in ascending order and disjoint, and make up the range; no list of sequential
sections that makes it up is shorter, and there are at most two of them per segment, less one. -/
theorem toRuns_exact_shortest (r : AddressRange) (hr : r.WellFormed) :
    (∀ s ∈ r.toRuns, s.prefixLen = none) ∧
    (r.toRuns.Pairwise fun s t => Disjoint s.values t.values) ∧
    Section.IsFewest (Section.IsSequentialOf r.version) r.values r.toRuns ∧
    r.toRuns.length ≤ 2 * r.version.segmentCount - 1 := by
  have hfewest := (isSplit_toRuns hr).isFewest (Section.isIntervalKind_isSequentialOf r.version)
  refine ⟨fun s hs => prefixLen_of_mem_toRuns hs, hfewest.ascending.disjoint, hfewest, ?_⟩
  have hsplit : ∀ x, (r.version.split x).length = r.version.segmentCount := r.version.length_split
  have hne : r.version.split r.lower ≠ [] := by
    refine List.ne_nil_of_length_pos ?_
    rw [hsplit]
    cases r.version <;> decide
  rw [toRuns, List.length_map, ← hsplit r.lower]
  exact length_runSpans_le hne ((hsplit r.upper).trans (hsplit r.lower).symm)

/-- All IPv6 addresses but the first and the last are no union of fewer than fifteen sequential
sections. -/
theorem toRuns_exact_shortest_v6 :
    (⟨.v6, 1, 2 ^ 128 - 2⟩ : AddressRange).WellFormed ∧
      ∀ others : List Section, (∀ s ∈ others, Section.IsSequentialOf .v6 s) →
        Section.union others = Set.Icc 1 (2 ^ 128 - 2) → 2 * 8 - 1 ≤ others.length := by
  have hr : (⟨.v6, 1, 2 ^ 128 - 2⟩ : AddressRange).WellFormed := ⟨by decide, by decide⟩
  have hlen : (⟨.v6, 1, 2 ^ 128 - 2⟩ : AddressRange).toRuns.length = 2 * 8 - 1 := by decide +kernel
  refine ⟨hr, fun others hothers hunion => ?_⟩
  rw [← hlen]
  exact (toRuns_exact_shortest _ hr).2.2.1.length_le others hothers hunion

end AddressRange

end IpSpace
