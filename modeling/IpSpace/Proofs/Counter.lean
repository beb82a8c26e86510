import IpSpace.Proofs.Enumeration

/-!
# What a counter hands out

A counter keeps one tuple of look-ahead, and looks for it past the tuples that its test rejects.
Seen from outside it is a list that gets shorter: `Counter.upcoming` is what the counter has still
to hand out, that is, the look-ahead and the accepted tuples behind its position. Asking for the
next tuple yields the first item of this list and leaves the others (`Counter.next_spec`). So the
answers of a fresh counter, however often it is asked, are its accepted tuples in order and then
nothing (`Counter.handsOut`).
-/

namespace IpSpace

namespace Counting

variable {c : Counting} {wheels : List Wheel} {rejects : Tuple → Bool} {t : Tuple}

/-- The tuples after a given one. -/
def later (c : Counting) (wheels : List Wheel) (t : Tuple) : List Tuple :=
  (c.next? wheels t).elim [] (c.tuplesFrom wheels)

/-- The tuples from a given one on are this one and those after it. -/
theorem tuplesFrom_eq_cons (c : Counting) (wheels : List Wheel) (t : Tuple) :
    c.tuplesFrom wheels t = t :: c.later wheels t := by
  rw [tuplesFrom, later]
  split
  case h_1 t' hnext => rw [hnext]; rfl
  case h_2 hnext => rw [hnext]; rfl

/-- Seeking finds the first tuple that is not rejected, and leaves those after it. -/
theorem filter_tuplesFrom :
    (c.tuplesFrom wheels t).filter (fun t => !rejects t)
      = (c.seek? wheels rejects t).elim [] fun t =>
        t :: (c.later wheels t).filter fun t => !rejects t := by
  fun_induction c.seek? wheels rejects t with
  | case1 t hreject t' hnext ih =>
      rw [tuplesFrom_eq_cons, List.filter_cons_of_neg (by simp [hreject]), later, hnext]
      exact ih
  | case2 t hreject hnext =>
      rw [tuplesFrom_eq_cons, List.filter_cons_of_neg (by simp [hreject]), later, hnext]
      rfl
  | case3 t haccept =>
      rw [tuplesFrom_eq_cons, List.filter_cons_of_pos (by simp [haccept])]
      rfl

end Counting

namespace Counter

/-! ## What is still to come -/

/-- The tuples behind the position of the counter. -/
def behind (c : Counter) : List Tuple :=
  match c.position with
  | .fresh => c.counting.tuples c.wheels
  | .showing t => c.counting.later c.wheels t
  | .done => []

/-- The tuples behind the position of the counter that are not rejected. -/
def accepted (c : Counter) : List Tuple :=
  c.behind.filter fun t => !c.rejects t

/-- The tuples that the counter has still to hand out: the look-ahead, unless it has still to be
fetched, and the accepted tuples behind it. -/
def upcoming (c : Counter) : List Tuple :=
  match c.ahead with
  | none => c.accepted
  | some none => []
  | some (some t) => t :: c.accepted

/-- The counter after `n` calls for the next tuple. -/
def after (c : Counter) : Nat → Counter
  | 0 => c
  | n + 1 => c.next.2.after n

/-- Asked again and again, the counter answers with the items of the list in order, and then with
nothing, however often it is asked. -/
def HandsOut (c : Counter) (ts : List Tuple) : Prop :=
  ∀ n, (c.after n).next.1 = ts[n]?

section Cursor

variable {c : Counter}

/-- The look-ahead to be fetched is the first accepted tuple behind the position. -/
theorem accepted_eq (c : Counter) :
    c.accepted = c.fetch?.elim [] fun t =>
      t :: (c.counting.later c.wheels t).filter fun t => !c.rejects t := by
  obtain ⟨wheels, counting, rejects, position, ahead⟩ := c
  cases position with
  | fresh => exact Counting.filter_tuplesFrom
  | showing t =>
      show (counting.later wheels t).filter _
        = ((counting.next? wheels t).bind (counting.seek? wheels rejects)).elim [] _
      unfold Counting.later
      cases counting.next? wheels t with
      | none => rfl
      | some t' => exact Counting.filter_tuplesFrom
  | done => rfl

/-- Fetching the look-ahead makes the accepted tuples those that are to come. -/
theorem upcoming_fill (c : Counter) : c.fill.upcoming = c.accepted := by
  rw [accepted_eq]
  unfold fill
  cases c.fetch? <;> rfl

/-- Fetching a look-ahead that is still missing changes nothing in what is to come. -/
theorem upcoming_prime (c : Counter) : c.prime.upcoming = c.upcoming := by
  unfold prime
  split
  case isTrue hnone =>
    rw [upcoming_fill]
    unfold upcoming
    rw [Option.isNone_iff_eq_none.1 hnone]
  case isFalse => rfl

/-- After it has been fetched, the look-ahead is there. -/
theorem exists_ahead_prime (c : Counter) : ∃ look, c.prime.ahead = some look := by
  unfold prime
  split
  case isTrue =>
    unfold fill
    cases c.fetch? <;> exact ⟨_, rfl⟩
  case isFalse hsome => exact Option.ne_none_iff_exists'.1 fun hnone => hsome (by rw [hnone]; rfl)

/-- **The next tuple is the first of those to come**, and it leaves the others. -/
theorem next_spec (c : Counter) :
    c.next.1 = c.upcoming.head? ∧ c.next.2.upcoming = c.upcoming.tail := by
  obtain ⟨look, hlook⟩ := c.exists_ahead_prime
  rw [← upcoming_prime]
  unfold next
  cases look with
  | none =>
      have hjoin : c.prime.ahead.join = none := by rw [hlook]; rfl
      have hnil : c.prime.upcoming = [] := by
        unfold upcoming
        rw [hlook]
      simp only [hjoin, hnil]
      exact ⟨rfl, rfl⟩
  | some t =>
      have hjoin : c.prime.ahead.join = some t := by rw [hlook]; rfl
      have hcons : c.prime.upcoming = t :: c.prime.accepted := by
        unfold upcoming
        rw [hlook]
      simp only [hjoin, hcons]
      exact ⟨rfl, upcoming_fill _⟩

/-- Every call takes one tuple off what is to come. -/
theorem upcoming_after (c : Counter) (n : Nat) : (c.after n).upcoming = c.upcoming.drop n := by
  induction n generalizing c with
  | zero => rfl
  | succ n ih =>
      unfold after
      rw [ih, c.next_spec.2, List.drop_tail]

/-- A counter hands out what is to come. -/
theorem handsOut_upcoming (c : Counter) : c.HandsOut c.upcoming := by
  intro n
  rw [(c.after n).next_spec.1, upcoming_after, List.head?_drop]

/-- A fresh counter hands out its tuples, less those that are rejected. -/
theorem handsOut (counting : Counting) (wheels : List Wheel) (rejects : Tuple → Bool) :
    HandsOut { wheels, counting, rejects }
      ((counting.tuples wheels).filter fun t => !rejects t) :=
  handsOut_upcoming _

end Cursor

/-! ## Products and intervals -/

/-- Without a test, a fresh counter hands out all its tuples. -/
theorem handsOut_tuples (counting : Counting) (wheels : List Wheel) :
    HandsOut { wheels, counting } (counting.tuples wheels) := by
  have hall := handsOut counting wheels fun _ => false
  have hself : (counting.tuples wheels).filter (fun _ => !false) = counting.tuples wheels :=
    List.filter_eq_self.2 fun _ _ => rfl
  rw [hself] at hall
  exact hall

/-- **A counter enumerates products and intervals.** Its answers are a list of tuples, each once and
in strictly ascending lexicographic order, and nothing after them. As a product, if no lower end is
past its upper end, the list is the cartesian product of the ranges of the wheels. Through an
interval, if the tuple of the lower ends is not past the tuple of the upper ends, it holds exactly
the tuples between these two of values that the wheels can show. -/
theorem handsOut_product_interval (wheels : List Wheel)
    (h : ∀ w ∈ wheels, w.lower ≤ w.max ∧ w.upper ≤ w.max) :
    ((∀ w ∈ wheels, w.lower ≤ w.upper) → ∃ ts : List Tuple,
      HandsOut { wheels, counting := .product } ts ∧ ts.Pairwise (· < ·) ∧
      ∀ t, t ∈ ts ↔ List.Forall₂ (fun w d => w.lower ≤ d ∧ d ≤ w.upper) wheels t) ∧
    (wheels.map (·.lower) ≤ wheels.map (·.upper) → ∃ ts : List Tuple,
      HandsOut { wheels, counting := .interval } ts ∧ ts.Pairwise (· < ·) ∧
      ∀ t, t ∈ ts ↔ List.Forall₂ (fun w d => d ≤ w.max) wheels t ∧
        wheels.map (·.lower) ≤ t ∧ t ≤ wheels.map (·.upper)) := by
  constructor
  · intro hle
    refine ⟨_, handsOut_tuples .product wheels, ?_, fun t => Counting.mem_tuples_product hle⟩
    exact Counting.pairwise_tuples (Counting.ready_product hle)
  · intro hle
    refine ⟨_, handsOut_tuples .interval wheels, ?_, fun t => Counting.mem_tuples_interval h hle⟩
    exact Counting.pairwise_tuples (Counting.ready_interval h fun _ _ => hle)

/-- Two wheels count from `10.250` through `11.5`, where the second one carries past its upper
end. -/
theorem handsOut_product_interval_carry :
    let wheels : List Wheel := [⟨10, 11, 255⟩, ⟨250, 5, 255⟩]
    let others : List Wheel := [⟨1, 2, 255⟩, ⟨5, 6, 255⟩]
    (∀ w ∈ wheels, w.lower ≤ w.max ∧ w.upper ≤ w.max) ∧
      wheels.map (·.lower) ≤ wheels.map (·.upper) ∧
      (∃ ts : List Tuple, HandsOut { wheels, counting := .interval } ts ∧
        [10, 255] ∈ ts ∧ [11, 0] ∈ ts ∧ [11, 6] ∉ ts) ∧
      (∀ w ∈ others, w.lower ≤ w.max ∧ w.upper ≤ w.max) ∧ (∀ w ∈ others, w.lower ≤ w.upper) ∧
      ∃ ts : List Tuple, HandsOut { wheels := others, counting := .product } ts ∧
        [2, 5] ∈ ts ∧ [1, 7] ∉ ts := by
  intro wheels others
  have hmax : ∀ w ∈ wheels, w.lower ≤ w.max ∧ w.upper ≤ w.max := by decide
  have hle : wheels.map (·.lower) ≤ wheels.map (·.upper) :=
    Counting.cons_le_cons.2 (Or.inl (by decide))
  have hmax' : ∀ w ∈ others, w.lower ≤ w.max ∧ w.upper ≤ w.max := by decide
  have hle' : ∀ w ∈ others, w.lower ≤ w.upper := by decide
  obtain ⟨ts, hts, -, hmem⟩ := (handsOut_product_interval wheels hmax).2 hle
  obtain ⟨us, hus, -, hmem'⟩ := (handsOut_product_interval others hmax').1 hle'
  refine ⟨hmax, hle, ⟨ts, hts, ?_, ?_, ?_⟩, hmax', hle', us, hus, ?_, ?_⟩
  · simp [hmem, wheels, Counting.cons_le_cons]
  · simp [hmem, wheels, Counting.cons_le_cons]
  · simp [hmem, wheels, Counting.cons_le_cons]
  · simp [hmem', others]
  · simp [hmem', others]

end Counter

end IpSpace
