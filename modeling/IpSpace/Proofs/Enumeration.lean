import IpSpace.Enumeration.Counter
import Mathlib.Data.List.Forall2
import Mathlib.Data.List.Lex

/-!
# The tuples of a counter

`Counting.next?` advances one tuple at a time. Here the tuples of a row of wheels are listed
outright (`Counting.listing`): each value of the first wheel is put in front of the tuples of the
others, for which it decides whether they are still bounded by the lower and by the upper ends.
Stepping runs through this list (`Counting.steps_listing`), so `Counting.tuples` is the list, and
what a counter shows can be read off the recursion.

`Steps` says that a step function runs through a list, from a first item to whatever follows the
last. It composes by appending, which is how the lists for the values of one wheel are joined.

The listing is in ascending lexicographic order (`Counting.pairwise_listing`). As a product it holds
the tuples of the cartesian product, and through an interval all tuples between the lower and the
upper ends (`Counting.mem_tuples_product`, `Counting.mem_tuples_interval`).
-/

namespace IpSpace

/-! ## Stepping through a list -/

section Steps

variable {α : Type} {next : α → Option α}

/-- From `first`, the step function runs through the items of the list and arrives at `last`. -/
def Steps (next : α → Option α) : (first : Option α) → List α → (last : Option α) → Prop
  | first, [], last => first = last
  | first, x :: xs, last => first = some x ∧ Steps next (next x) xs last

theorem Steps.append {first middle last : Option α} {xs ys : List α}
    (hx : Steps next first xs middle) (hy : Steps next middle ys last) :
    Steps next first (xs ++ ys) last := by
  induction xs generalizing first with
  | nil => exact (show first = middle from hx) ▸ hy
  | cons x xs ih => exact ⟨hx.1, ih hx.2⟩

end Steps

namespace Counting

variable {c : Counting} {atLower atUpper : Bool} {w : Wheel} {wheels : List Wheel}

/-! ## The list of tuples -/

/-- All tuples of the wheels behind some others, of which it is known whether they stand at their
lower and at their upper ends. -/
def listing (c : Counting) : (atLower atUpper : Bool) → List Wheel → List Tuple
  | _, _, [] => [[]]
  | atLower, atUpper, w :: ws =>
    (List.range' (c.start atLower w) (c.stop atUpper w + 1 - c.start atLower w)).flatMap fun d =>
      (c.listing (atLower && d == w.lower) (atUpper && d == w.upper) ws).map (d :: ·)

/-- Every wheel starts no later than it stops, whatever the wheels before it show. -/
def Ready (c : Counting) : (atLower atUpper : Bool) → List Wheel → Prop
  | _, _, [] => True
  | atLower, atUpper, w :: ws =>
    c.start atLower w ≤ c.stop atUpper w ∧
      ∀ d, c.start atLower w ≤ d → d ≤ c.stop atUpper w →
        c.Ready (atLower && d == w.lower) (atUpper && d == w.upper) ws

/-- A wheel that starts leaves it to the wheels before it whether all stand at their lower ends. -/
theorem start_beq_lower (c : Counting) (atLower : Bool) (w : Wheel) :
    c.start atLower w = w.lower ∨ atLower = false := by
  cases atLower with
  | false => exact Or.inr rfl
  | true => cases c <;> exact Or.inl rfl

/-- The tuple after `d :: t`: the wheels behind the first advance if they can, and otherwise the
first one does. -/
private theorem nextFrom?_cons (d : Nat) (t : Tuple) :
    c.nextFrom? atLower atUpper (w :: wheels) (d :: t)
      = ((c.nextFrom? (atLower && d == w.lower) (atUpper && d == w.upper) wheels t).map
          (d :: ·)).or
        (if d < c.stop atUpper w then
          some ((d + 1) :: wheels.map (c.start (atLower && d + 1 == w.lower))) else none) := by
  rw [nextFrom?]
  cases c.nextFrom? (atLower && d == w.lower) (atUpper && d == w.upper) wheels t <;> rfl

/-- While the first wheel shows `d`, stepping runs through the tuples of the others. -/
private theorem steps_map {d : Nat} {first : Option Tuple} {ts : List Tuple}
    (h : Steps (c.nextFrom? (atLower && d == w.lower) (atUpper && d == w.upper) wheels)
      first ts none) :
    Steps (c.nextFrom? atLower atUpper (w :: wheels))
      ((first.map (d :: ·)).or
        (if d < c.stop atUpper w then
          some ((d + 1) :: wheels.map (c.start (atLower && d + 1 == w.lower))) else none))
      (ts.map (d :: ·))
      (if d < c.stop atUpper w then
        some ((d + 1) :: wheels.map (c.start (atLower && d + 1 == w.lower))) else none) := by
  induction ts generalizing first with
  | nil =>
      have hfirst : first = none := h
      rw [hfirst]
      rfl
  | cons t ts ih =>
      obtain ⟨rfl, hrest⟩ := h
      refine ⟨rfl, ?_⟩
      rw [nextFrom?_cons]
      exact ih hrest

/-- Stepping runs through the tuples that begin with `d` or one of the `n - 1` values behind it, up
to the last value of the first wheel, if it runs through the tuples of the other wheels. -/
private theorem steps_flatMap {n d : Nat} (hd : c.start atLower w ≤ d)
    (hn : d + n = c.stop atUpper w + 1)
    (h : ∀ d, c.start atLower w ≤ d → d ≤ c.stop atUpper w →
      Steps (c.nextFrom? (atLower && d == w.lower) (atUpper && d == w.upper) wheels)
        (some (wheels.map (c.start (atLower && d == w.lower))))
        (c.listing (atLower && d == w.lower) (atUpper && d == w.upper) wheels) none) :
    Steps (c.nextFrom? atLower atUpper (w :: wheels))
      (if 0 < n then some (d :: wheels.map (c.start (atLower && d == w.lower))) else none)
      ((List.range' d n).flatMap fun d =>
        (c.listing (atLower && d == w.lower) (atUpper && d == w.upper) wheels).map (d :: ·))
      none := by
  induction n generalizing d with
  | zero => rfl
  | succ n ih =>
      rw [List.range'_succ, List.flatMap_cons, if_pos (Nat.succ_pos n)]
      refine (steps_map (h d hd (by omega))).append ?_
      -- The wheel advances as long as there are values left.
      have hmore : d < c.stop atUpper w ↔ 0 < n := by omega
      simp only [hmore]
      exact ih (by omega) (by omega)

/-- **Stepping runs through the listing**, from the tuple at which all wheels start to the end. -/
theorem steps_listing (h : c.Ready atLower atUpper wheels) :
    Steps (c.nextFrom? atLower atUpper wheels) (some (wheels.map (c.start atLower)))
      (c.listing atLower atUpper wheels) none := by
  induction wheels generalizing atLower atUpper with
  | nil => exact ⟨rfl, rfl⟩
  | cons w ws ih =>
      obtain ⟨hle, hrest⟩ := h
      have hcount : c.start atLower w + (c.stop atUpper w + 1 - c.start atLower w)
          = c.stop atUpper w + 1 := by omega
      have hall := steps_flatMap (Nat.le_refl _) hcount fun d hl hu => ih (hrest d hl hu)
      rw [if_pos (by omega)] at hall
      -- Where all wheels start, the flag for the lower ends is the one they were given.
      have hflag : (atLower && c.start atLower w == w.lower) = atLower := by
        rcases c.start_beq_lower atLower w with h | h
        · rw [h, beq_self_eq_true, Bool.and_true]
        · rw [h, Bool.false_and]
      rw [hflag] at hall
      exact hall

/-- A run of steps from a tuple to the end makes up the tuples from there on. -/
theorem tuplesFrom_eq_of_steps {t : Tuple} {ts : List Tuple}
    (h : Steps (c.next? wheels) (some t) ts none) : c.tuplesFrom wheels t = ts := by
  induction ts generalizing t with
  | nil => cases h
  | cons x xs ih =>
      obtain ⟨hx, hrest⟩ := h
      obtain rfl := Option.some.inj hx
      rw [tuplesFrom]
      cases hnext : c.next? wheels t with
      | none =>
          rw [hnext] at hrest
          cases xs with
          | nil => rfl
          | cons y ys => cases hrest.1
      | some t' =>
          rw [hnext] at hrest
          exact congrArg (t :: ·) (ih hrest)

/-- A counter shows the tuples of the listing. -/
theorem tuples_eq_listing (h : c.Ready true true wheels) :
    c.tuples wheels = c.listing true true wheels :=
  tuplesFrom_eq_of_steps (steps_listing h)

/-! ## Order -/

/-- Tuples are compared by their first values and then by the others. -/
theorem cons_le_cons {d e : Nat} {s t : Tuple} : d :: s ≤ e :: t ↔ d < e ∨ d = e ∧ s ≤ t := by
  rw [← not_lt, List.cons_lt_cons_iff, ← not_lt (a := t)]
  constructor
  · intro h
    by_cases hde : d = e
    · exact Or.inr ⟨hde, fun hst => h (Or.inr ⟨hde.symm, hst⟩)⟩
    · have hlt : ¬ e < d := fun hed => h (Or.inl hed)
      exact Or.inl (by omega)
  · rintro (hde | ⟨rfl, hst⟩) (hed | ⟨heq, hts⟩)
    · omega
    · omega
    · omega
    · exact hst hts

/-- The listing is in strictly ascending lexicographic order. -/
theorem pairwise_listing : (c.listing atLower atUpper wheels).Pairwise (· < ·) := by
  induction wheels generalizing atLower atUpper with
  | nil => exact List.pairwise_singleton _ _
  | cons w ws ih =>
      unfold listing
      refine List.pairwise_flatMap.2 ⟨fun d _ => ?_, ?_⟩
      · refine List.pairwise_map.2 (ih.imp fun {s t} hst => ?_)
        exact List.cons_lt_cons_iff.2 (Or.inr ⟨rfl, hst⟩)
      · refine (List.pairwise_lt_range' 1).imp fun {d e} hde x hx y hy => ?_
        obtain ⟨s, -, rfl⟩ := List.mem_map.1 hx
        obtain ⟨t, -, rfl⟩ := List.mem_map.1 hy
        exact List.cons_lt_cons_iff.2 (Or.inl hde)

/-- A counter shows its tuples in strictly ascending lexicographic order. -/
theorem pairwise_tuples (h : c.Ready true true wheels) : (c.tuples wheels).Pairwise (· < ·) := by
  rw [tuples_eq_listing h]
  exact pairwise_listing

/-! ## Products -/

/-- As a product, a counter needs wheels with their ends in the right order. -/
theorem ready_product (h : ∀ w ∈ wheels, w.lower ≤ w.upper) :
    product.Ready atLower atUpper wheels := by
  induction wheels generalizing atLower atUpper with
  | nil => trivial
  | cons w ws ih =>
      rw [List.forall_mem_cons] at h
      exact ⟨h.1, fun d _ _ => ih h.2⟩

/-- The listing of a product takes every value of every wheel. -/
theorem mem_listing_product {t : Tuple} :
    t ∈ product.listing atLower atUpper wheels ↔
      List.Forall₂ (fun w d => w.lower ≤ d ∧ d ≤ w.upper) wheels t := by
  induction wheels generalizing atLower atUpper t with
  | nil => simp [listing]
  | cons w ws ih =>
      simp only [listing, List.mem_flatMap, List.mem_map, List.mem_range'_1, ih, start, stop]
      constructor
      · rintro ⟨d, ⟨hl, hu⟩, t, ht, rfl⟩
        exact List.Forall₂.cons ⟨hl, by omega⟩ ht
      · rintro (_ | ⟨hd, ht⟩)
        exact ⟨_, ⟨hd.1, by omega⟩, _, ht, rfl⟩

/-- Counted as a product, wheels show the tuples of the cartesian product of their ranges. -/
theorem mem_tuples_product (h : ∀ w ∈ wheels, w.lower ≤ w.upper) {t : Tuple} :
    t ∈ product.tuples wheels ↔
      List.Forall₂ (fun w d => w.lower ≤ d ∧ d ≤ w.upper) wheels t := by
  rw [tuples_eq_listing (ready_product h), mem_listing_product]

/-- The listing of a product is as long as the wheels have values, multiplied. -/
theorem length_listing_product :
    (product.listing atLower atUpper wheels).length
      = (wheels.map fun w => w.upper + 1 - w.lower).foldr (· * ·) 1 := by
  induction wheels generalizing atLower atUpper with
  | nil => rfl
  | cons w ws ih =>
      simp only [listing, List.length_flatMap, List.length_map, ih, start, stop, List.map_const',
        List.length_range', List.sum_replicate_nat, List.map_cons, List.foldr_cons]

/-- Counted as a product, wheels show as many tuples as they have values, multiplied. -/
theorem length_tuples_product (h : ∀ w ∈ wheels, w.lower ≤ w.upper) :
    (product.tuples wheels).length
      = (wheels.map fun w => w.upper + 1 - w.lower).foldr (· * ·) 1 := by
  rw [tuples_eq_listing (ready_product h), length_listing_product]

/-! ## Intervals -/

/-- A wheel has neither of its ends past its largest value. -/
def InRange (w : Wheel) : Prop :=
  w.lower ≤ w.max ∧ w.upper ≤ w.max

/-- Through an interval, a counter needs ends that are in lexicographic order where both still bound
the wheels; a single wheel may have its lower end past its upper end. -/
theorem ready_interval (h : ∀ w ∈ wheels, InRange w)
    (hle : atLower = true → atUpper = true → wheels.map (·.lower) ≤ wheels.map (·.upper)) :
    interval.Ready atLower atUpper wheels := by
  induction wheels generalizing atLower atUpper with
  | nil => trivial
  | cons w ws ih =>
      rw [List.forall_mem_cons] at h
      obtain ⟨⟨hlower, hupper⟩, hrest⟩ := h
      simp only [List.map_cons, cons_le_cons] at hle
      refine ⟨?_, fun d _ _ => ih hrest fun hl hu => ?_⟩
      · cases atLower with
        | false => exact Nat.zero_le _
        | true =>
            cases atUpper with
            | false => exact hlower
            | true =>
                show w.lower ≤ w.upper
                rcases hle rfl rfl with hlt | ⟨heq, -⟩ <;> omega
      · -- A value at which both ends still bound the others is at both ends of its own wheel.
        rw [Bool.and_eq_true, beq_iff_eq] at hl hu
        rcases hle hl.1 hu.1 with hlt | ⟨-, hle⟩
        · omega
        · exact hle

/-- A lower bound on a tuple, where it is to be kept, bounds the first value, and the others if the
first value is at the bound. -/
private theorem lower_cons_le_iff {bound : Bool} {d e : Nat} {s t : Tuple} :
    (bound = true → e :: s ≤ d :: t) ↔
      (bound = true → e ≤ d) ∧ ((bound && d == e) = true → s ≤ t) := by
  cases bound with
  | false => simp
  | true =>
      simp only [true_implies, Bool.true_and, beq_iff_eq, cons_le_cons]
      constructor
      · rintro (hlt | ⟨rfl, hst⟩)
        · exact ⟨Nat.le_of_lt hlt, fun heq => by omega⟩
        · exact ⟨Nat.le_refl _, fun _ => hst⟩
      · rintro ⟨hle, hst⟩
        rcases Nat.lt_or_eq_of_le hle with hlt | heq
        · exact Or.inl hlt
        · exact Or.inr ⟨heq, hst heq.symm⟩

/-- `lower_cons_le_iff` for an upper bound. -/
private theorem cons_le_upper_iff {bound : Bool} {d e : Nat} {s t : Tuple} :
    (bound = true → d :: t ≤ e :: s) ↔
      (bound = true → d ≤ e) ∧ ((bound && d == e) = true → t ≤ s) := by
  rw [lower_cons_le_iff, Bool.beq_comm]

/-- A wheel runs over the values that it can show and that the bounds in force allow. -/
private theorem mem_values_interval (h : InRange w) {d : Nat} :
    d ∈ List.range' (interval.start atLower w)
        (interval.stop atUpper w + 1 - interval.start atLower w) ↔
      d ≤ w.max ∧ (atLower = true → w.lower ≤ d) ∧ (atUpper = true → d ≤ w.upper) := by
  obtain ⟨hlower, hupper⟩ := h
  rw [List.mem_range'_1]
  cases atLower <;> cases atUpper <;>
    simp only [start, stop, Bool.false_eq_true, if_true, if_false, false_implies, true_implies,
      and_true, true_and] <;>
    omega

/-- The listing of an interval takes the tuples of values that the wheels can show, from the lower
ends on and up to the upper ends, as far as these bound the wheels. -/
theorem mem_listing_interval (h : ∀ w ∈ wheels, InRange w) {t : Tuple} :
    t ∈ interval.listing atLower atUpper wheels ↔
      List.Forall₂ (fun w d => d ≤ w.max) wheels t ∧
        (atLower = true → wheels.map (·.lower) ≤ t) ∧
        (atUpper = true → t ≤ wheels.map (·.upper)) := by
  induction wheels generalizing atLower atUpper t with
  | nil =>
      unfold listing
      rw [List.mem_singleton, List.forall₂_nil_left_iff]
      constructor
      · rintro rfl
        exact ⟨rfl, fun _ => le_refl _, fun _ => le_refl _⟩
      · exact fun h => h.1
  | cons w ws ih =>
      rw [List.forall_mem_cons] at h
      simp only [listing, List.mem_flatMap, List.mem_map, mem_values_interval h.1, ih h.2,
        List.map_cons]
      constructor
      · rintro ⟨d, ⟨hmax, hl, hu⟩, t, ⟨hfit, hlt, hut⟩, rfl⟩
        exact ⟨List.Forall₂.cons hmax hfit, lower_cons_le_iff.2 ⟨hl, hlt⟩,
          cons_le_upper_iff.2 ⟨hu, hut⟩⟩
      · rintro ⟨_ | ⟨hmax, hfit⟩, hlower, hupper⟩
        obtain ⟨hl, hlt⟩ := lower_cons_le_iff.1 hlower
        obtain ⟨hu, hut⟩ := cons_le_upper_iff.1 hupper
        exact ⟨_, ⟨hmax, hl, hu⟩, _, ⟨hfit, hlt, hut⟩, rfl⟩

/-- Counted through an interval, wheels show the tuples between the lower and the upper ends. -/
theorem mem_tuples_interval (h : ∀ w ∈ wheels, InRange w)
    (hle : wheels.map (·.lower) ≤ wheels.map (·.upper)) {t : Tuple} :
    t ∈ interval.tuples wheels ↔ List.Forall₂ (fun w d => d ≤ w.max) wheels t ∧
      wheels.map (·.lower) ≤ t ∧ t ≤ wheels.map (·.upper) := by
  rw [tuples_eq_listing (ready_interval h fun _ _ => hle), mem_listing_interval h]
  exact and_congr_right fun _ => and_congr (forall_prop_of_true rfl) (forall_prop_of_true rfl)

end Counting

end IpSpace
