import IpSpace.Proofs.MaskedBytes

/-!
# Machine words

The library computes with numbers of any size. A machine computes with words of a fixed width, and
there are steps that it cannot carry out: a sum or a product that does not fit into a word, a
difference below zero, a shift by as many bits as a word has, an index or a cut past the end of a
list, and an assertion that does not hold. A step that may stop the machine yields an `Option`, with
`none` for the stop, and a stop of one step stops the whole computation.

Such a step is carried out if its condition holds (`add?_eq`, `sub?_eq` and so on). Steps for every
member of a list are carried out if each of them is (`mapM_eq_some`, `allM_eq_some`), and a loop is
if each round is that keeps an invariant (`foldlM_eq_some`, `loop?_spec`). An error that is part of
the outcome is no stop: where steps are followed by others in case of success, they are carried out
and then have the outcome of the library (`after?_eq`, `traverse?_eq`).
-/

namespace IpSpace

namespace Machine

/-! ## Steps that may stop -/

/-- The sum of two words of `width` bits. -/
def add? (width a b : Nat) : Option Nat :=
  if a + b < 2 ^ width then some (a + b) else none

/-- The difference of two words. -/
def sub? (a b : Nat) : Option Nat :=
  if b ≤ a then some (a - b) else none

/-- The product of two words of `width` bits. -/
def mul? (width a b : Nat) : Option Nat :=
  if a * b < 2 ^ width then some (a * b) else none

/-- A word of `width` bits shifted towards its high end, where bits fall off. -/
def shiftLeft? (width a bits : Nat) : Option Nat :=
  if bits < width then some (a <<< bits % 2 ^ width) else none

/-- A word of `width` bits shifted towards its low end. -/
def shiftRight? (width a bits : Nat) : Option Nat :=
  if bits < width then some (a >>> bits) else none

/-- The members of a list from the given index on. -/
def from? {α : Type} (l : List α) (index : Nat) : Option (List α) :=
  if index ≤ l.length then some (l.drop index) else none

/-- The members of a list in front of the given index. -/
def upTo? {α : Type} (l : List α) (index : Nat) : Option (List α) :=
  if index ≤ l.length then some (l.take index) else none

/-- A list with another member at the given index. -/
def set? {α : Type} (l : List α) (index : Nat) (a : α) : Option (List α) :=
  if index < l.length then some (l.set index a) else none

/-- Goes on where the condition holds. -/
def assert? (p : Prop) [Decidable p] : Option Unit :=
  if p then some () else none

section Steps

variable {width a b bits index : Nat} {α : Type} {l : List α}

/-- A sum that the word holds is found. -/
theorem add?_eq (h : a + b < 2 ^ width) : add? width a b = some (a + b) :=
  if_pos h

/-- A difference that is not negative is found. -/
theorem sub?_eq (h : b ≤ a) : sub? a b = some (a - b) :=
  if_pos h

/-- A product that the word holds is found. -/
theorem mul?_eq (h : a * b < 2 ^ width) : mul? width a b = some (a * b) :=
  if_pos h

/-- A shift to the left by less than the width is made, and what leaves the word is lost. -/
theorem shiftLeft?_eq (h : bits < width) :
    shiftLeft? width a bits = some (a <<< bits % 2 ^ width) :=
  if_pos h

/-- No bit falls off where the shifted word has room. -/
theorem shiftLeft?_eq_mul (h : bits < width) (hfits : a * 2 ^ bits < 2 ^ width) :
    shiftLeft? width a bits = some (a * 2 ^ bits) := by
  rw [shiftLeft?_eq h, Nat.shiftLeft_eq, Nat.mod_eq_of_lt hfits]

/-- A single bit can be shifted to every place of a word. -/
theorem shiftLeft?_one (h : bits < width) : shiftLeft? width 1 bits = some (2 ^ bits) := by
  rw [shiftLeft?_eq_mul h, Nat.one_mul]
  rw [Nat.one_mul]
  exact Nat.pow_lt_pow_right (by decide) h

/-- A shift to the right by less than the width is a division. -/
theorem shiftRight?_eq (h : bits < width) : shiftRight? width a bits = some (a / 2 ^ bits) := by
  rw [shiftRight?, if_pos h, Nat.shiftRight_eq_div_pow]

/-- A slice that starts in the list or at its end is what is left of the list there. -/
theorem from?_eq (h : index ≤ l.length) : from? l index = some (l.drop index) :=
  if_pos h

/-- A slice that ends in the list or at its end is the part of the list in front of there. -/
theorem upTo?_eq (h : index ≤ l.length) : upTo? l index = some (l.take index) :=
  if_pos h

/-- An item in the list can be replaced. -/
theorem set?_eq (h : index < l.length) (x : α) : set? l index x = some (l.set index x) :=
  if_pos h

/-- An assertion of what holds passes. -/
theorem assert?_eq {p : Prop} [Decidable p] (h : p) : assert? p = some () :=
  if_pos h

end Steps

/-- Two tests, of which the second is made only where the first one passes. -/
def both? (x y : Option Bool) : Option Bool := do
  if ← x then y else return false

/-- Two tests that have an answer have one together, whether or not the second is asked. -/
theorem both?_eq {x y : Option Bool} {first second : Bool} (hx : x = some first)
    (hy : y = some second) :
    both? x y = some (first && second) := by
  rw [both?, hx, hy]
  cases first
  · rfl
  · rfl

/-! ## Steps that never stop -/

/-- The low end of a word, as a word of `width` bits. -/
def truncate (width a : Nat) : Nat :=
  a % 2 ^ width

/-- A word of `width` bits with every bit the other way. -/
def complement (width a : Nat) : Nat :=
  2 ^ width - 1 - a

/-- The number of zeros at the high end of a word of `width` bits. -/
def leadingZeros (width a : Nat) : Nat :=
  if a = 0 then width else width - 1 - a.log2

/-- The number of ones at the high end of a word of `width` bits. -/
def leadingOnes (width a : Nat) : Nat :=
  leadingZeros width (complement width a)

/-- A narrower word keeps a value that it holds. -/
theorem truncate_eq {width a : Nat} (h : a < 2 ^ width) : truncate width a = a :=
  Nat.mod_eq_of_lt h

/-- The highest one of a word, counted from the low end. -/
theorem sub?_leadingZeros {width a : Nat} (hpos : a ≠ 0) (h : a < 2 ^ width) :
    sub? (width - 1) (leadingZeros width a) = some a.log2 := by
  have hlog := (Nat.log2_lt hpos).2 h
  rw [leadingZeros, if_neg hpos, sub?_eq (Nat.sub_le _ _)]
  congr 1
  omega

/-! ## Steps for lists -/

section Lists

variable {α β : Type} {l : List α}

/-- **Steps that succeed are left out of what follows them**: every proof that a computation does
not stop puts in the results of its steps one by one. -/
theorem bind_eq {x : Option α} {a : α} {f : α → Option β} (h : x = some a) : (x >>= f) = f a := by
  rw [h]
  rfl

/-- Steps for every member of a list. -/
theorem mapM_eq_some {f : α → Option β} {g : α → β} (h : ∀ a ∈ l, f a = some (g a)) :
    l.mapM f = some (l.map g) := by
  induction l with
  | nil => rfl
  | cons a l ih =>
      obtain ⟨ha, hrest⟩ := List.forall_mem_cons.1 h
      rw [List.mapM_cons, bind_eq ha, bind_eq (ih hrest)]
      rfl

/-- A test of every member of a list, which ends at the first that does not pass. -/
theorem allM_eq_some {test : α → Option Bool} {q : α → Bool} (h : ∀ a ∈ l, test a = some (q a)) :
    l.allM test = some (l.all q) := by
  induction l with
  | nil => rfl
  | cons a l ih =>
      obtain ⟨ha, hrest⟩ := List.forall_mem_cons.1 h
      rw [List.allM, bind_eq ha, List.all_cons, ih hrest]
      cases q a <;> rfl

/-- A search for a member that passes a test. -/
theorem findM?_eq_some {test : α → Option Bool} {q : α → Bool} (h : ∀ a ∈ l, test a = some (q a)) :
    l.findM? test = some (l.find? q) := by
  induction l with
  | nil => rfl
  | cons a l ih =>
      obtain ⟨ha, hrest⟩ := List.forall_mem_cons.1 h
      rw [List.findM?, bind_eq ha, List.find?_cons, ih hrest]
      cases q a <;> rfl

/-- A loop over a list, each round of which keeps an invariant. -/
theorem foldlM_eq_some {f : β → α → Option β} {g : β → α → β} (P : β → Prop)
    (h : ∀ b, P b → ∀ a ∈ l, f b a = some (g b a) ∧ P (g b a)) {b : β} (hb : P b) :
    l.foldlM f b = some (l.foldl g b) ∧ P (l.foldl g b) := by
  induction l generalizing b with
  | nil => exact ⟨rfl, hb⟩
  | cons a l ih =>
      obtain ⟨hstep, hkeep⟩ := h b hb a List.mem_cons_self
      rw [List.foldlM_cons, bind_eq hstep, List.foldl_cons]
      exact ih (fun b hb a ha => h b hb a (List.mem_cons_of_mem _ ha)) hkeep

end Lists

/-! ## Loops -/

section Loops

variable {σ α : Type}

/-- A loop. A round ends it with a result, or leaves a state with a smaller measure for the next
one. A round that does neither stops the machine, so a loop never goes on for ever. -/
def loop? (measure : σ → Nat) (round? : σ → Option (σ ⊕ α)) (state : σ) : Option α := do
  match ← round? state with
  | .inl next => if measure next < measure state then loop? measure round? next else none
  | .inr result => return result
termination_by measure state

/-- The state that a loop is in after `n` rounds that have not ended it. -/
inductive Rounds (round? : σ → Option (σ ⊕ α)) (start : σ) : (n : Nat) → σ → Prop
  | zero : Rounds round? start 0 start
  | succ {n : Nat} {s next : σ} (h : Rounds round? start n s)
      (hround : round? s = some (.inl next)) :
      Rounds round? start (n + 1) next

variable {measure : σ → Nat} {round? : σ → Option (σ ⊕ α)} {s : σ}

/-- What holds at the start and is kept by every round holds throughout. -/
theorem Rounds.keeps {start : σ} {n : Nat} (P : Nat → σ → Prop) (hstart : P 0 start)
    (hkeep : ∀ n s next, P n s → round? s = some (.inl next) → P (n + 1) next)
    (h : Rounds round? start n s) : P n s := by
  induction h with
  | zero => exact hstart
  | succ _ hround ih => exact hkeep _ _ _ ih hround

/-- A loop ends with the round that has the result. -/
theorem loop?_last {a : α} (h : round? s = some (.inr a)) : loop? measure round? s = some a := by
  rw [loop?, bind_eq h]
  rfl

/-- A loop, each round of which keeps an invariant or ends with what is wanted. -/
theorem loop?_spec (P : σ → Prop) (Q : α → Prop)
    (h : ∀ s, P s → (∃ a, round? s = some (.inr a) ∧ Q a) ∨
      ∃ next, round? s = some (.inl next) ∧ measure next < measure s ∧ P next) (hs : P s) :
    ∃ a, loop? measure round? s = some a ∧ Q a := by
  fun_induction loop? measure round? s with
  | case1 s ih =>
      obtain ⟨a, hlast, hwanted⟩ | ⟨next, hround, hless, hkeep⟩ := h s hs
      · exact ⟨a, bind_eq hlast, hwanted⟩
      · obtain ⟨a, hloop, hwanted⟩ := ih next hless hkeep
        refine ⟨a, (bind_eq hround).trans ?_, hwanted⟩
        exact (if_pos hless).trans hloop

end Loops

/-! ## Steps with an outcome -/

section Outcomes

variable {α β ε : Type} {l : List α}

/-- Goes on from a success, and keeps an error. -/
def after? (x : Except ε α) (f : α → Option (Except ε β)) : Option (Except ε β) :=
  match x with
  | .error err => some (.error err)
  | .ok a => f a

/-- What follows a check needs to succeed only where the check has passed. -/
theorem after?_eq {x : Except ε α} {f : α → Option (Except ε β)} {g : α → Except ε β}
    (h : ∀ a, x = .ok a → f a = some (g a)) : after? x f = some (x >>= g) := by
  cases x with
  | error err => rfl
  | ok a => exact h a rfl

/-- Changes a success, and keeps an error. -/
theorem after?_eq_map {x : Except ε α} {f : α → Option (Except ε β)} {g : α → β}
    (h : ∀ a, x = .ok a → f a = some (.ok (g a))) : after? x f = some (x.map g) := by
  cases x with
  | error err => rfl
  | ok a => exact h a rfl

/-- Steps for every member of a list, up to the first error. -/
def traverse? (f : α → Option (Except ε β)) : List α → Option (Except ε (List β))
  | [] => some (.ok [])
  | a :: l => do after? (← f a) fun b => do return (← traverse? f l).map (b :: ·)

/-- A traversal whose steps all succeed stops at the first error, as the traversal of a list does.
-/
theorem traverse?_eq {f : α → Option (Except ε β)} {g : α → Except ε β}
    (h : ∀ a ∈ l, f a = some (g a)) : traverse? f l = some (l.mapM g) := by
  induction l with
  | nil => rfl
  | cons a l ih =>
      obtain ⟨ha, hrest⟩ := List.forall_mem_cons.1 h
      rw [traverse?, bind_eq ha, List.mapM_cons]
      apply after?_eq
      intro b _
      rw [bind_eq (ih hrest)]
      cases l.mapM g <;> rfl

end Outcomes

end Machine

end IpSpace
