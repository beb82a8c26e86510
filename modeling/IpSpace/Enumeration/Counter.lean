/-!
# Counters

A counter is a row of wheels, the most significant first, that steps through tuples of numbers in
lexicographic order. It counts in one of two ways.

* As a *product*, every wheel runs over its own range, so the tuples are the cartesian product.
* Through an *interval*, the lower ends of the wheels make up the first tuple and the upper ends the
  last. A wheel starts from its lower end only while all wheels before it stand at theirs, and from
  zero otherwise; it stops at its upper end only while all wheels before it stand at theirs, and at
  its largest value otherwise.

The next tuple depends on the current one alone (`next?`): the least significant wheel that can
still move is advanced, and all wheels behind it start over. `remaining` bounds the number of steps
that are left, so scanning for a tuple ends.

A `Counter` adds the state of a reader: where it stands, a test that leaves tuples out, and one
tuple of look-ahead, which is fetched when it is first asked for and again whenever it is handed
out.
-/

namespace IpSpace

/-- A wheel with the two ends of its range and the largest value it can show. -/
structure Wheel where
  lower : Nat
  upper : Nat
  max : Nat
  deriving DecidableEq, Repr

/-- The two ways to count. -/
inductive Counting where
  | product
  | interval
  deriving DecidableEq, Repr

/-- The values that the wheels show. -/
abbrev Tuple := List Nat

namespace Counting

/-! ## Stepping -/

/-- Where a wheel starts, given whether all wheels before it stand at their lower ends. -/
def start : Counting → (atLower : Bool) → Wheel → Nat
  | product, _, w => w.lower
  | interval, atLower, w => if atLower then w.lower else 0

/-- Where a wheel stops, given whether all wheels before it stand at their upper ends. -/
def stop : Counting → (atUpper : Bool) → Wheel → Nat
  | product, _, w => w.upper
  | interval, atUpper, w => if atUpper then w.upper else w.max

/-- The first tuple. -/
def first (c : Counting) (wheels : List Wheel) : Tuple :=
  wheels.map (c.start true)

/-- The tuple after the given one on the wheels behind some others, of which it is known whether
they stand at their lower and at their upper ends. -/
def nextFrom? (c : Counting) : (atLower atUpper : Bool) → List Wheel → Tuple → Option Tuple
  | atLower, atUpper, w :: ws, d :: ds =>
    match c.nextFrom? (atLower && d == w.lower) (atUpper && d == w.upper) ws ds with
    | some ds' => some (d :: ds')
    | none =>
      if d < c.stop atUpper w then
        some ((d + 1) :: ws.map (c.start (atLower && d + 1 == w.lower)))
      else none
  | _, _, _, _ => none

/-- The tuple after the given one. -/
def next? (c : Counting) (wheels : List Wheel) (t : Tuple) : Option Tuple :=
  c.nextFrom? true true wheels t

/-! ## A bound on the steps that are left -/

/-- A number greater than every value that a wheel can stop at. -/
def radix (w : Wheel) : Nat :=
  Nat.max w.upper w.max + 1

/-- The product of the radixes of the wheels. -/
def capacity : List Wheel → Nat
  | [] => 1
  | w :: ws => radix w * capacity ws

/-- Counts every wheel's distance to its stop, weighted by the capacity of the wheels behind it. -/
def remainingFrom (c : Counting) : (atUpper : Bool) → List Wheel → Tuple → Nat
  | atUpper, w :: ws, d :: ds =>
    (c.stop atUpper w - d) * capacity ws + c.remainingFrom (atUpper && d == w.upper) ws ds
  | _, _, _ => 0

/-- A bound on the number of steps from the given tuple. -/
def remaining (c : Counting) (wheels : List Wheel) (t : Tuple) : Nat :=
  c.remainingFrom true wheels t

theorem stop_lt_radix (c : Counting) (atUpper : Bool) (w : Wheel) :
    c.stop atUpper w < radix w := by
  have h1 : w.upper ≤ Nat.max w.upper w.max := Nat.le_max_left _ _
  have h2 : w.max ≤ Nat.max w.upper w.max := Nat.le_max_right _ _
  cases c <;> cases atUpper <;>
    simp only [stop, radix, Bool.false_eq_true, if_true, if_false] <;> omega

/-- Wheels have fewer steps left than their capacity. -/
theorem remainingFrom_lt_capacity (c : Counting) (atUpper : Bool) (wheels : List Wheel)
    (t : Tuple) : c.remainingFrom atUpper wheels t < capacity wheels := by
  induction wheels generalizing atUpper t with
  | nil => simp [remainingFrom, capacity]
  | cons w ws ih =>
    cases t with
    | nil =>
      have := ih atUpper []
      simp only [remainingFrom, capacity]
      exact Nat.mul_pos (Nat.succ_pos _) (Nat.lt_of_le_of_lt (Nat.zero_le _) this)
    | cons d ds =>
      have hrest := ih (atUpper && d == w.upper) ds
      have hstop := stop_lt_radix c atUpper w
      simp only [remainingFrom, capacity]
      calc (c.stop atUpper w - d) * capacity ws + c.remainingFrom (atUpper && d == w.upper) ws ds
          < (c.stop atUpper w - d) * capacity ws + capacity ws := by omega
        _ = (c.stop atUpper w - d + 1) * capacity ws := by rw [Nat.succ_mul]
        _ ≤ radix w * capacity ws := Nat.mul_le_mul_right _ (by omega)

/-- A step leaves fewer steps. -/
theorem remainingFrom_nextFrom? (c : Counting) {atLower atUpper : Bool} {wheels : List Wheel}
    {t t' : Tuple} (h : c.nextFrom? atLower atUpper wheels t = some t') :
    c.remainingFrom atUpper wheels t' < c.remainingFrom atUpper wheels t := by
  induction wheels generalizing atLower atUpper t t' with
  | nil => simp [nextFrom?] at h
  | cons w ws ih =>
    cases t with
    | nil => simp [nextFrom?] at h
    | cons d ds =>
      rw [nextFrom?] at h
      split at h
      · rename_i ds' hds
        cases h
        simpa [remainingFrom] using ih hds
      · split at h
        · rename_i hlt
          cases h
          have hrest := remainingFrom_lt_capacity c (atUpper && d + 1 == w.upper) ws
            (ws.map (c.start (atLower && d + 1 == w.lower)))
          obtain ⟨k, hk⟩ : ∃ k, c.stop atUpper w - d = k + 1 := ⟨c.stop atUpper w - d - 1, by omega⟩
          have hk' : c.stop atUpper w - (d + 1) = k := by omega
          simp only [remainingFrom, hk, hk', Nat.succ_mul]
          omega
        · cases h

/-- A step leaves fewer steps. -/
theorem remaining_next? (c : Counting) {wheels : List Wheel} {t t' : Tuple}
    (h : c.next? wheels t = some t') : c.remaining wheels t' < c.remaining wheels t :=
  c.remainingFrom_nextFrom? h

/-! ## Runs of tuples -/

/-- All tuples from the given one on. -/
def tuplesFrom (c : Counting) (wheels : List Wheel) (t : Tuple) : List Tuple :=
  match _h : c.next? wheels t with
  | some t' => t :: c.tuplesFrom wheels t'
  | none => [t]
termination_by c.remaining wheels t
decreasing_by exact c.remaining_next? _h

/-- All tuples in order. -/
def tuples (c : Counting) (wheels : List Wheel) : List Tuple :=
  c.tuplesFrom wheels (c.first wheels)

/-- The first tuple, from the given one on, that is not rejected. -/
def seek? (c : Counting) (wheels : List Wheel) (rejects : Tuple → Bool) (t : Tuple) :
    Option Tuple :=
  if rejects t then
    match _h : c.next? wheels t with
    | some t' => c.seek? wheels rejects t'
    | none => none
  else some t
termination_by c.remaining wheels t
decreasing_by exact c.remaining_next? _h

end Counting

/-! ## Counters with look-ahead -/

/-- Where a counter stands: before the first tuple, showing a tuple, or past the last. -/
inductive Position where
  | fresh
  | showing (t : Tuple)
  | done
  deriving DecidableEq, Repr

/-- A counter with a test for tuples to leave out. The look-ahead is absent until it is first
fetched; after that it is the next tuple, or nothing past the end. -/
structure Counter where
  wheels : List Wheel
  counting : Counting
  rejects : Tuple → Bool := fun _ => false
  position : Position := .fresh
  ahead : Option (Option Tuple) := none

namespace Counter

/-- The next tuple past the position of the counter that is not rejected. -/
def fetch? (c : Counter) : Option Tuple :=
  match c.position with
  | .fresh => c.counting.seek? c.wheels c.rejects (c.counting.first c.wheels)
  | .showing t => (c.counting.next? c.wheels t).bind (c.counting.seek? c.wheels c.rejects)
  | .done => none

/-- Fetches the look-ahead and moves to it. -/
def fill (c : Counter) : Counter :=
  match c.fetch? with
  | some t => { c with position := .showing t, ahead := some (some t) }
  | none => { c with position := .done, ahead := some none }

/-- Fetches the look-ahead unless that has been done before. -/
def prime (c : Counter) : Counter :=
  if c.ahead.isNone then c.fill else c

/-- Whether another tuple follows, and the counter that knows it. -/
def hasNext (c : Counter) : Bool × Counter :=
  let c := c.prime
  (c.ahead.join.isSome, c)

/-- The next tuple, and the counter after it, which already looks one tuple further. -/
def next (c : Counter) : Option Tuple × Counter :=
  let c := c.prime
  match c.ahead.join with
  | some t => (some t, c.fill)
  | none => (none, c)

/-- Steps over one tuple without a look at it, if the counter stands at a tuple and another follows.
The look-ahead stays as it is. -/
def advance (c : Counter) : Bool × Counter :=
  match c.position with
  | .showing t =>
    match c.counting.next? c.wheels t with
    | some t' => (true, { c with position := .showing t' })
    | none => (false, c)
  | _ => (false, c)

/-- The next `n` tuples, or as many as there are, and the counter after them. -/
def take (c : Counter) : Nat → List Tuple × Counter
  | 0 => ([], c)
  | n + 1 =>
    match c.next with
    | (some t, c') =>
      let (ts, c'') := c'.take n
      (t :: ts, c'')
    | (none, c') => ([], c')

end Counter

end IpSpace
