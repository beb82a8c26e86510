import Mathlib.Data.List.Chain
import Mathlib.Order.Interval.Set.Basic

/-!
# Tilings

Decomposing a range yields parts that follow each other without a gap: every part begins right
behind the one before it. `Tiles start stop lower parts bound` says this of a list of parts with the
ends `start` and `stop`, from `lower` on up to, and without, `bound`. Tilings are put together by
appending (`Tiles.append`), and what a tiling covers follows from its two bounds alone
(`Tiles.mem_iff`). In turn, parts in ascending order with this cover are a tiling
(`Tiles.of_pairwise`).
-/

namespace IpSpace

variable {β γ : Type} {start stop : β → Nat}

/-- The parts follow each other without a gap from `lower` on, and end right before `bound`. -/
def Tiles (start stop : β → Nat) : (lower : Nat) → (parts : List β) → (bound : Nat) → Prop
  | lower, [], bound => lower = bound
  | lower, b :: bs, bound =>
    start b = lower ∧ lower ≤ stop b ∧ Tiles start stop (stop b + 1) bs bound

namespace Tiles

theorem single {b : β} (h : start b ≤ stop b) : Tiles start stop (start b) [b] (stop b + 1) :=
  ⟨rfl, h, rfl⟩

theorem append {lower middle bound : Nat} {xs ys : List β} (hx : Tiles start stop lower xs middle)
    (hy : Tiles start stop middle ys bound) : Tiles start stop lower (xs ++ ys) bound := by
  induction xs generalizing lower with
  | nil => exact (show lower = middle from hx) ▸ hy
  | cons x xs ih => exact ⟨hx.1, hx.2.1, ih hx.2.2⟩

/-- A tiling stays one when its parts are replaced by parts whose ends are shifted. -/
theorem map_add {start' stop' : γ → Nat} {f : β → γ} (offset : Nat) {lower bound : Nat}
    {xs : List β} (hstart : ∀ x ∈ xs, start' (f x) = offset + start x)
    (hstop : ∀ x ∈ xs, stop' (f x) = offset + stop x) (h : Tiles start stop lower xs bound) :
    Tiles start' stop' (offset + lower) (xs.map f) (offset + bound) := by
  induction xs generalizing lower with
  | nil => exact congrArg (offset + ·) h
  | cons x xs ih =>
      obtain ⟨hx, hle, hrest⟩ := h
      rw [List.forall_mem_cons] at hstart hstop
      refine ⟨by rw [hstart.1, hx], by rw [hstop.1]; omega, ?_⟩
      rw [hstop.1, Nat.add_assoc]
      exact ih hstart.2 hstop.2 hrest

/-- A tiling stays one when its parts are replaced by parts with the same ends. -/
theorem map {start' stop' : γ → Nat} {f : β → γ} {lower bound : Nat} {xs : List β}
    (hstart : ∀ x ∈ xs, start' (f x) = start x) (hstop : ∀ x ∈ xs, stop' (f x) = stop x)
    (h : Tiles start stop lower xs bound) : Tiles start' stop' lower (xs.map f) bound := by
  have hshift : Tiles start' stop' (0 + lower) (xs.map f) (0 + bound) := by
    refine h.map_add 0 (fun x hx => ?_) fun x hx => ?_
    · rw [hstart x hx, Nat.zero_add]
    · rw [hstop x hx, Nat.zero_add]
  rwa [Nat.zero_add, Nat.zero_add] at hshift

theorem le {lower bound : Nat} {xs : List β} (h : Tiles start stop lower xs bound) :
    lower ≤ bound := by
  induction xs generalizing lower with
  | nil => exact Nat.le_of_eq h
  | cons x xs ih =>
      have := ih h.2.2
      have := h.2.1
      omega

/-- A tiling covers exactly what lies between its bounds. -/
theorem mem_iff {lower bound : Nat} {xs : List β} (h : Tiles start stop lower xs bound) {v : Nat} :
    (lower ≤ v ∧ v < bound) ↔ ∃ x ∈ xs, start x ≤ v ∧ v ≤ stop x := by
  induction xs generalizing lower with
  | nil =>
      have : lower = bound := h
      simp only [List.not_mem_nil, false_and, exists_false, iff_false]
      omega
  | cons x xs ih =>
      obtain ⟨hx, hle, hrest⟩ := h
      have := hrest.le
      simp only [List.mem_cons, exists_eq_or_imp, ← ih hrest]
      omega

/-- The parts of a tiling have ends in the right order and lie within its bounds. -/
theorem bounds_of_mem {lower bound : Nat} {xs : List β} (h : Tiles start stop lower xs bound)
    {x : β} (hx : x ∈ xs) : lower ≤ start x ∧ start x ≤ stop x ∧ stop x < bound := by
  induction xs generalizing lower with
  | nil => cases hx
  | cons y ys ih =>
      obtain ⟨hy, hle, hrest⟩ := h
      have := hrest.le
      rcases List.mem_cons.1 hx with rfl | hx
      · omega
      · have := ih hrest hx
        omega

/-- The parts of a tiling are in ascending order. -/
theorem pairwise {lower bound : Nat} {xs : List β} (h : Tiles start stop lower xs bound) :
    xs.Pairwise fun x y => stop x < start y := by
  induction xs generalizing lower with
  | nil => exact List.Pairwise.nil
  | cons x xs ih =>
      refine List.Pairwise.cons (fun y hy => ?_) (ih h.2.2)
      have := (h.2.2.bounds_of_mem hy).1
      omega

/-- Parts in ascending order that cover exactly what lies between two bounds are a tiling: the first
one begins at the lower bound, since no other part reaches it, and the others cover what lies behind
it. -/
theorem of_pairwise {lower bound : Nat} {xs : List β} (hle : lower ≤ bound)
    (hends : ∀ x ∈ xs, start x ≤ stop x) (hpairwise : xs.Pairwise fun x y => stop x < start y)
    (hmem : ∀ v, (∃ x ∈ xs, start x ≤ v ∧ v ≤ stop x) ↔ lower ≤ v ∧ v < bound) :
    Tiles start stop lower xs bound := by
  induction xs generalizing lower with
  | nil =>
      have hnone := hmem lower
      simp only [List.not_mem_nil, false_and, exists_false, false_iff] at hnone
      show lower = bound
      omega
  | cons x xs ih =>
      rw [List.forall_mem_cons] at hends
      rw [List.pairwise_cons] at hpairwise
      have hbegin := (hmem (start x)).1 ⟨x, List.mem_cons_self, Nat.le_refl _, hends.1⟩
      have hend := (hmem (stop x)).1 ⟨x, List.mem_cons_self, hends.1, Nat.le_refl _⟩
      -- The lowest number is in some span, and all but the first one begin behind that one.
      have hfirst : start x = lower := by
        obtain ⟨y, hy, hlow, -⟩ := (hmem lower).2 (by omega)
        obtain rfl | hy := List.mem_cons.1 hy
        · omega
        · have hafter := hpairwise.1 y hy
          omega
      refine ⟨hfirst, by omega, ih (by omega) hends.2 hpairwise.2 fun v => ?_⟩
      constructor
      · rintro ⟨y, hy, hlow, hupp⟩
        have hcovered := (hmem v).1 ⟨y, List.mem_cons_of_mem _ hy, hlow, hupp⟩
        have hafter := hpairwise.1 y hy
        omega
      · rintro ⟨hlow, hupp⟩
        obtain ⟨y, hy, hcovered⟩ := (hmem v).2 (by omega)
        obtain rfl | hy := List.mem_cons.1 hy
        · omega
        · exact ⟨y, hy, hcovered⟩

/-- The first part begins at the lower bound. -/
theorem head {lower bound : Nat} {xs : List β} (h : Tiles start stop lower xs bound)
    (hlt : lower < bound) : xs.head?.map start = some lower := by
  cases xs with
  | nil => exact absurd h (Nat.ne_of_lt hlt)
  | cons x xs => exact congrArg some h.1

/-- Every part begins right behind the one before it. -/
theorem isChain {lower bound : Nat} {xs : List β} (h : Tiles start stop lower xs bound) :
    xs.IsChain fun x y => start y = stop x + 1 := by
  induction xs generalizing lower with
  | nil => exact List.isChain_nil
  | cons x xs ih =>
      cases xs with
      | nil => exact List.isChain_singleton _
      | cons y ys => exact List.isChain_cons_cons.2 ⟨h.2.2.1, ih h.2.2⟩

/-- The last part ends right before the bound. -/
theorem getLast {lower bound : Nat} {xs : List β} (h : Tiles start stop lower xs bound)
    (hlt : lower < bound) : xs.getLast?.map stop = some (bound - 1) := by
  induction xs generalizing lower with
  | nil => exact absurd h (Nat.ne_of_lt hlt)
  | cons x xs ih =>
      cases xs with
      | nil =>
          have : stop x + 1 = bound := h.2.2
          simp only [List.getLast?_singleton, Option.map_some, Option.some.injEq]
          omega
      | cons y ys =>
          have hrest := h.2.2
          have := hrest.bounds_of_mem List.mem_cons_self
          rw [List.getLast?_cons_cons]
          exact ih hrest (by omega)

end Tiles

end IpSpace
