import IpSpace.Proofs.Cursor
import IpSpace.Proofs.Machine.Words

/-!
# Counters on the machine

On the machine, a counter has a row of values that it shows, and beside it three rows of notes:
whether all wheels in front of a wheel stand at their lower ends, whether they stand at their upper
ends, and where the wheel stops. A step looks for the last wheel that has not reached its stop,
moves it, and starts the wheels behind it over one after another, each with a look at the notes of
the one in front of it.

The library goes through the wheels by recursion and has no notes. The notes follow from the values
(`showing`), so all that a reset does is overwrite the rows from some place on (`resetFrom?_eq`),
and the last wheel that can move is the one that the recursion comes back to (`nextFrom?_eq`). A
counter on the machine that shows what a counter of the library shows goes on doing so
(`Simulates`), whatever it is asked (`hasNext?_spec`, `next?_spec`), and no step of it stops: every
row has as many places as there are wheels, and no value is moved past its stop.
-/

namespace IpSpace

namespace Machine

/-! ## The state of a counter -/

/-- Whether a counter has still to start, is counting, or is past the end. -/
inductive Stage where
  | fresh
  | running
  | done
  deriving DecidableEq

/-- A counter with its notes and one tuple of look-ahead. -/
structure Odometer where
  wheels : List Wheel
  counting : Counting
  rejects : Tuple → Bool
  current : List Nat
  ends : List Nat
  atLower : List Bool
  atUpper : List Bool
  stage : Stage
  primed : Bool
  pending : Option Tuple

namespace Odometer

/-- A counter that has still to start. -/
def new (wheels : List Wheel) (counting : Counting) (rejects : Tuple → Bool) : Odometer where
  wheels := wheels
  counting := counting
  rejects := rejects
  current := List.replicate wheels.length 0
  ends := List.replicate wheels.length 0
  atLower := List.replicate wheels.length true
  atUpper := List.replicate wheels.length true
  stage := .fresh
  primed := false
  pending := none

/-- What the notes of the wheel in front say about the wheel with the given number. -/
def flags? (o : Odometer) (index : Nat) : Option (Bool × Bool) :=
  if index = 0 then some (true, true)
  else do
    let previous ← sub? index 1
    let w ← o.wheels[previous]?
    let d ← o.current[previous]?
    return ((← o.atLower[previous]?) && d == w.lower, (← o.atUpper[previous]?) && d == w.upper)

/-- Starts the wheel with the given number over. -/
def resetAt? (o : Odometer) (index : Nat) : Option Odometer := do
  let (lower, upper) ← flags? o index
  let w ← o.wheels[index]?
  let atLower ← set? o.atLower index lower
  let atUpper ← set? o.atUpper index upper
  let current ← set? o.current index (o.counting.start lower w)
  let ends ← set? o.ends index (o.counting.stop upper w)
  return { o with atLower, atUpper, current, ends }

/-- Starts the wheels from the given number on over. -/
def resetFrom? (o : Odometer) (start : Nat) : Option Odometer :=
  (List.range' start (o.wheels.length - start)).foldlM resetAt? o

/-- Whether the wheel with the given number can move. -/
def movable? (o : Odometer) (index : Nat) : Option Bool := do
  return decide ((← o.current[index]?) < (← o.ends[index]?))

/-- Moves to the next tuple, if there is one. -/
def advance? (o : Odometer) : Option (Bool × Odometer) := do
  match ← (List.range o.wheels.length).reverse.findM? o.movable? with
  | none => return (false, o)
  | some index => do
    let current ← set? o.current index (← add? 32 (← o.current[index]?) 1)
    return (true, ← resetFrom? { o with current } (← add? 64 index 1))

/-- The next tuple, rejected or not. -/
def step? (o : Odometer) : Option (Option Tuple × Odometer) :=
  match o.stage with
  | .done => some (none, o)
  | .fresh => do
    let o ← resetFrom? { o with stage := .running } 0
    return (some o.current, o)
  | .running => do
    let (moved, o) ← advance? o
    if moved then return (some o.current, o)
    return (none, { o with stage := .done })

/-- How many steps are left at most. -/
def left (o : Odometer) : Nat :=
  match o.stage with
  | .fresh => Counting.capacity o.wheels + 1
  | .running => o.counting.remaining o.wheels o.current + 1
  | .done => 0

/-- How many tuples can still be handed out at most. -/
def due (o : Odometer) : Nat :=
  o.left + if o.pending.isSome then 1 else 0

/-- Fetches the next tuple, and has done so in vain if it is rejected. -/
def tryFill? (o : Odometer) : Option (Odometer ⊕ Odometer) := do
  let (tuple?, o) ← step? o
  match tuple? with
  | none => return .inr { o with pending := none }
  | some t => return if o.rejects t then .inl o else .inr { o with pending := some t }

/-- Fetches the next tuple that is not rejected. -/
def fill? (o : Odometer) : Option Odometer :=
  loop? left tryFill? o

/-- Fetches the look-ahead unless that has been done before. -/
def prime? (o : Odometer) : Option Odometer :=
  if o.primed then some o else fill? { o with primed := true }

/-- Whether another tuple follows. -/
def hasNext? (o : Odometer) : Option (Bool × Odometer) := do
  let o ← prime? o
  return (o.pending.isSome, o)

/-- The next tuple. -/
def next? (o : Odometer) : Option (Option Tuple × Odometer) := do
  let o ← prime? o
  match o.pending with
  | some t => return (some t, ← fill? { o with pending := none })
  | none => return (none, o)

end Odometer

/-! ## Notes -/

/-- Whether all wheels in front of the one with the given number stand at a place. -/
def standAt (place : Wheel → Nat) (wheels : List Wheel) (t : Tuple) (index : Nat) : Bool :=
  ((wheels.zip t).take index).all fun (w, d) => d == place w

/-- Where the wheels of a counter stop if they show the given tuple. -/
def stopAt (counting : Counting) (wheels : List Wheel) (t : Tuple) (index : Nat) (w : Wheel) :
    Nat :=
  counting.stop (standAt (·.upper) wheels t index) w

/-- The state of a counter that shows the given tuple. -/
def showing (o : Odometer) (t : Tuple) : Odometer :=
  { o with
    current := t
    ends := o.wheels.mapIdx (stopAt o.counting o.wheels t)
    atLower := (List.range o.wheels.length).map (standAt (·.lower) o.wheels t)
    atUpper := (List.range o.wheels.length).map (standAt (·.upper) o.wheels t) }

section Notes

variable {place : Wheel → Nat} {counting : Counting} {wheels : List Wheel} {t u : Tuple} {w : Wheel}
  {d index k : Nat}

/-- The note for a wheel follows from the one for the wheel in front of it. -/
theorem standAt_succ (hw : wheels[index]? = some w) (hd : t[index]? = some d) :
    standAt place wheels t (index + 1) = (standAt place wheels t index && d == place w) := by
  have hget : (wheels.zip t)[index]? = some (w, d) := List.getElem?_zip_eq_some.2 ⟨hw, hd⟩
  rw [standAt, List.take_add_one, hget, List.all_append]
  simp [standAt]

/-- The notes for a wheel depend on the values in front of it alone. -/
theorem standAt_congr (h : t.take k = u.take k) (hle : index ≤ k) :
    standAt place wheels t index = standAt place wheels u index := by
  have htake : t.take index = u.take index := by
    rw [← Nat.min_eq_left hle, ← List.take_take, h, List.take_take]
  rw [standAt, standAt, List.zip, List.take_zipWith, List.take_zipWith, htake]

/-- The values of the wheels from a number on are those of wheels that start over. -/
def Restarts (counting : Counting) (wheels : List Wheel) (t : Tuple) (k : Nat) : Prop :=
  ∀ j w, k ≤ j → wheels[j]? = some w →
    t[j]? = some (counting.start (standAt (·.lower) wheels t k) w)

/-- Wheels that start over pass the note about their lower ends on. -/
theorem Restarts.standAt_eq (h : Restarts counting wheels t k) (hk : k ≤ index)
    (hindex : index ≤ wheels.length) :
    standAt (·.lower) wheels t index = standAt (·.lower) wheels t k := by
  induction index, hk using Nat.le_induction with
  | base => rfl
  | succ index hk ih =>
      have hw := List.getElem?_eq_getElem hindex
      rw [standAt_succ hw (h index _ hk hw), ih (Nat.le_of_succ_le hindex)]
      cases standAt (·.lower) wheels t k
      · rfl
      · -- At its lower end a wheel starts there, whichever way it counts.
        cases counting <;> exact beq_self_eq_true _

/-- A wheel that starts over goes by its own note as well as by that of the first one that does. -/
theorem Restarts.getElem? (h : Restarts counting wheels t k) (hk : k ≤ index)
    (hw : wheels[index]? = some w) :
    t[index]? = some (counting.start (standAt (·.lower) wheels t index) w) := by
  rw [h.standAt_eq hk (Nat.le_of_lt (List.getElem?_eq_some_iff.1 hw).1)]
  exact h index w hk hw

/-- The first tuple starts every wheel at its lower end. -/
theorem restarts_first (counting : Counting) (wheels : List Wheel) :
    Restarts counting wheels (counting.first wheels) 0 := by
  intro j w _ hw
  rw [Counting.first, List.getElem?_map, hw]
  rfl

end Notes

/-! ## Overwriting -/

/-- A list with the members in front of the given index taken from another one. -/
def overwrite {α : Type} (new old : List α) (index : Nat) : List α :=
  new.take index ++ old.drop index

section Overwriting

variable {α : Type} {new old : List α} {index j : Nat} {x : α}

theorem overwrite_of_take_eq (h : new.take index = old.take index) :
    overwrite new old index = old := by
  rw [overwrite, h, List.take_append_drop]

theorem overwrite_length (h : new.length = old.length) : overwrite new old old.length = new := by
  rw [overwrite, List.drop_length, List.append_nil, ← h, List.take_length]

/-- Overwriting keeps the number of places. -/
theorem length_overwrite (h : new.length = old.length) :
    (overwrite new old index).length = old.length := by
  rw [overwrite, List.length_append, List.length_take, List.length_drop]
  omega

/-- In front of the index the members are the new ones. -/
theorem getElem?_overwrite (hj : j < index) (hindex : index ≤ new.length) :
    (overwrite new old index)[j]? = new[j]? := by
  rw [overwrite, List.getElem?_append_left (by rw [List.length_take]; omega),
    List.getElem?_take_of_lt hj]

/-- Each step of overwriting puts one more member in place. -/
theorem set?_overwrite (hlen : new.length = old.length) (hx : new[index]? = some x) :
    set? (overwrite new old index) index x = some (overwrite new old (index + 1)) := by
  obtain ⟨hindex, rfl⟩ := List.getElem?_eq_some_iff.1 hx
  have hfront : (new.take index).length = index := by rw [List.length_take]; omega
  rw [set?_eq (by rw [length_overwrite hlen]; omega), overwrite, overwrite,
    List.set_append_right _ _ (by omega), hfront, Nat.sub_self,
    List.drop_eq_getElem_cons (hlen ▸ hindex), List.set_cons_zero,
    List.take_succ_eq_append_getElem hindex, List.append_assoc]
  rfl

end Overwriting

/-! ## Starting wheels over -/

/-- Every row has as many places as there are wheels. -/
structure Odometer.Sized (o : Odometer) : Prop where
  current : o.current.length = o.wheels.length
  ends : o.ends.length = o.wheels.length
  atLower : o.atLower.length = o.wheels.length
  atUpper : o.atUpper.length = o.wheels.length

/-- A counter whose rows are overwritten in front of the given index by those of another one. -/
def halfway (new old : Odometer) (index : Nat) : Odometer :=
  { old with
    current := overwrite new.current old.current index
    ends := overwrite new.ends old.ends index
    atLower := overwrite new.atLower old.atLower index
    atUpper := overwrite new.atUpper old.atUpper index }

section Resetting

variable {o : Odometer} {t : Tuple} {index k : Nat}

/-- A counter that shows a tuple has rows of the right size. -/
theorem sized_showing (hlen : t.length = o.wheels.length) : (showing o t).Sized where
  current := hlen
  ends := List.length_mapIdx
  atLower := by rw [showing, List.length_map, List.length_range]
  atUpper := by rw [showing, List.length_map, List.length_range]

/-- With the rows overwritten in front of a wheel, the machine finds the notes about that wheel. -/
theorem flags?_halfway (hlen : t.length = o.wheels.length) (hindex : index < o.wheels.length) :
    (halfway (showing o t) o index).flags? index
    = some (standAt (·.lower) o.wheels t index, standAt (·.upper) o.wheels t index) := by
  rcases index with - | j
  · rfl
  have hjw : j < o.wheels.length := Nat.lt_of_succ_lt hindex
  have hjt : j < t.length := hlen ▸ hjw
  have hw : o.wheels[j]? = some o.wheels[j] := List.getElem?_eq_getElem hjw
  have hd : t[j]? = some t[j] := List.getElem?_eq_getElem hjt
  have hcurrent : (overwrite t o.current (j + 1))[j]? = t[j]? :=
    getElem?_overwrite (Nat.lt_succ_self j) (by omega)
  have hnote : ∀ (place : Wheel → Nat) (old : List Bool),
      (overwrite ((List.range o.wheels.length).map (standAt place o.wheels t)) old (j + 1))[j]?
        = some (standAt place o.wheels t j) := by
    intro place old
    rw [getElem?_overwrite (Nat.lt_succ_self j) (by rw [List.length_map, List.length_range]; omega),
      List.getElem?_map, List.getElem?_range (by omega)]
    rfl
  refine (bind_eq (sub?_eq (Nat.le_add_left 1 j))).trans ?_
  refine (bind_eq hw).trans ?_
  refine (bind_eq (hcurrent.trans hd)).trans ?_
  refine (bind_eq (hnote (·.lower) o.atLower)).trans ?_
  refine (bind_eq (hnote (·.upper) o.atUpper)).trans ?_
  rw [standAt_succ hw hd, standAt_succ hw hd]
  rfl

variable (hsize : o.Sized) (hlen : t.length = o.wheels.length)

include hsize hlen

/-- **One round of a reset puts the values and the notes of one more wheel in place.** -/
theorem resetAt?_halfway (hk : k ≤ index) (hindex : index < o.wheels.length)
    (hstart : Restarts o.counting o.wheels t k) :
    (halfway (showing o t) o index).resetAt? index =
      some (halfway (showing o t) o (index + 1)) := by
  have hw : o.wheels[index]? = some o.wheels[index] := List.getElem?_eq_getElem _
  have hnote : ∀ place : Wheel → Nat,
      ((List.range o.wheels.length).map (standAt place o.wheels t))[index]?
        = some (standAt place o.wheels t index) := by
    intro place
    rw [List.getElem?_map, List.getElem?_range hindex]
    rfl
  have hstop : (o.wheels.mapIdx (stopAt o.counting o.wheels t))[index]?
      = some (stopAt o.counting o.wheels t index o.wheels[index]) := by
    rw [List.getElem?_mapIdx, hw]
    rfl
  have hrange : ∀ place : Wheel → Nat,
      ((List.range o.wheels.length).map (standAt place o.wheels t)).length = o.wheels.length := by
    intro place
    rw [List.length_map, List.length_range]
  have hlower := set?_overwrite ((hrange _).trans hsize.atLower.symm) (hnote (·.lower))
  have hupper := set?_overwrite ((hrange _).trans hsize.atUpper.symm) (hnote (·.upper))
  have hcurrent := set?_overwrite (hlen.trans hsize.current.symm) (hstart.getElem? hk hw)
  have hends := set?_overwrite (List.length_mapIdx.trans hsize.ends.symm) hstop
  refine (bind_eq (flags?_halfway hlen hindex)).trans ?_
  refine (bind_eq hw).trans ?_
  refine (bind_eq hlower).trans ?_
  refine (bind_eq hupper).trans ?_
  refine (bind_eq hcurrent).trans ?_
  exact bind_eq hends

/-- **Wheels that start over bring a counter to show the tuple.** -/
theorem resetFrom?_eq (hk : k ≤ o.wheels.length) (hstart : Restarts o.counting o.wheels t k)
    (hfront : halfway (showing o t) o k = o) : o.resetFrom? k = some (showing o t) := by
  -- The invariant of the loop: the rows are overwritten in front of the wheel that is next.
  have hloop : ∀ count index, k ≤ index → index + count = o.wheels.length →
      (List.range' index count).foldlM Odometer.resetAt? (halfway (showing o t) o index)
        = some (halfway (showing o t) o o.wheels.length) := by
    intro count
    induction count with
    | zero =>
        intro index _ hindex
        rw [← hindex]
        rfl
    | succ count ih =>
        intro index hle hindex
        rw [List.range'_succ, List.foldlM_cons,
          bind_eq (resetAt?_halfway hsize hlen hle (by omega) hstart)]
        exact ih (index + 1) (by omega) (by omega)
  -- Overwritten up to the end, they are the rows of a counter that shows the tuple.
  have hall : halfway (showing o t) o o.wheels.length = showing o t := by
    have hshow := sized_showing hlen
    have hcurrent := overwrite_length (hshow.current.trans hsize.current.symm)
    have hends := overwrite_length (hshow.ends.trans hsize.ends.symm)
    have hlower := overwrite_length (hshow.atLower.trans hsize.atLower.symm)
    have hupper := overwrite_length (hshow.atUpper.trans hsize.atUpper.symm)
    rw [hsize.current] at hcurrent
    rw [hsize.ends] at hends
    rw [hsize.atLower] at hlower
    rw [hsize.atUpper] at hupper
    rw [halfway, hcurrent, hends, hlower, hupper]
    rfl
  have hrun := hloop (o.wheels.length - k) k (Nat.le_refl k) (by omega)
  rw [hfront, hall] at hrun
  exact hrun

end Resetting

/-! ## Stepping -/

/-- Whether a wheel can move, if the wheels in front of all of them stand at their upper ends or
not. -/
def canMove (counting : Counting) (atUpper : Bool) (wheels : List Wheel) (t : Tuple) (index : Nat) :
    Bool :=
  match wheels[index]?, t[index]? with
  | some w, some d => d < counting.stop (atUpper && standAt (·.upper) wheels t index) w
  | _, _ => false

/-- The tuple after a wheel has moved and those behind it have started over. -/
def moving (counting : Counting) (atLower : Bool) (wheels : List Wheel) (t : Tuple) (index : Nat) :
    Tuple :=
  let moved := t.modify index (· + 1)
  moved.take (index + 1) ++ (wheels.drop (index + 1)).map
    (counting.start (atLower && standAt (·.lower) wheels moved (index + 1)))

section Stepping

variable {counting : Counting} {wheels : List Wheel} {t : Tuple} {w : Wheel} {d index : Nat}

/-- The first wheel has its own part in the note of every wheel behind it. -/
theorem standAt_cons (place : Wheel → Nat) (w : Wheel) (wheels : List Wheel) (d : Nat) (t : Tuple)
    (index : Nat) : standAt place (w :: wheels) (d :: t) (index + 1)
      = (d == place w && standAt place wheels t index) :=
  rfl

/-- Whether a wheel can move depends on the first one by the note alone. -/
theorem canMove_cons (atUpper : Bool) : canMove counting atUpper (w :: wheels) (d :: t) (index + 1)
    = canMove counting (atUpper && d == w.upper) wheels t index := by
  simp only [canMove, List.getElem?_cons_succ, standAt_cons, Bool.and_assoc]
  rfl

/-- The first wheel stays where it is if one behind it moves. -/
theorem moving_cons (atLower : Bool) : moving counting atLower (w :: wheels) (d :: t) (index + 1)
    = d :: moving counting (atLower && d == w.lower) wheels t index := by
  simp only [moving, List.modify_succ_cons, List.take_succ_cons, List.drop_succ_cons, standAt_cons,
    Bool.and_assoc, List.cons_append]

/-- **The recursion moves the last wheel that can move.** -/
theorem nextFrom?_eq (atLower atUpper : Bool) (hlen : t.length = wheels.length) :
    counting.nextFrom? atLower atUpper wheels t
      = ((List.range wheels.length).reverse.find? (canMove counting atUpper wheels t)).map
          (moving counting atLower wheels t) := by
  induction wheels generalizing atLower atUpper t with
  | nil => rfl
  | cons w ws ih =>
      cases t with
      | nil => cases hlen
      | cons d ds =>
          have hrest := ih (atLower && d == w.lower) (atUpper && d == w.upper) (Nat.succ.inj hlen)
          have hcan : canMove counting atUpper (w :: ws) (d :: ds) ∘ Nat.succ
              = canMove counting (atUpper && d == w.upper) ws ds :=
            funext fun _ => canMove_cons atUpper
          have hfirst : canMove counting atUpper (w :: ws) (d :: ds) 0 =
              decide (d < counting.stop atUpper w) := by
            simp [canMove, standAt]
          rw [Counting.nextFrom?, hrest, List.length_cons, List.range_succ_eq_map,
            List.reverse_cons, ← List.map_reverse, List.find?_append, List.find?_map, hcan]
          -- A wheel behind the first one moves, if there is one that can.
          cases (List.range ws.length).reverse.find?
            (canMove counting (atUpper && d == w.upper) ws ds) with
          | some index => exact congrArg some (moving_cons atLower).symm
          | none =>
              show (if d < counting.stop atUpper w then _ else _) = _
              by_cases hmove : d < counting.stop atUpper w
              · simp [hfirst, hmove, moving, standAt]
              · simp [hfirst, hmove]

/-- A move keeps the number of values. -/
theorem length_moving (atLower : Bool) (hlen : t.length = wheels.length)
    (hindex : index < wheels.length) :
    (moving counting atLower wheels t index).length = wheels.length := by
  rw [moving, List.length_append, List.length_take, List.length_modify, List.length_map,
    List.length_drop]
  omega

/-- The next tuple has a value for every wheel again. -/
theorem length_of_next? {u : Tuple} (hlen : t.length = wheels.length)
    (h : counting.next? wheels t = some u) : u.length = wheels.length := by
  rw [Counting.next?, nextFrom?_eq true true hlen] at h
  obtain ⟨index, hindex, rfl⟩ := Option.map_eq_some_iff.1 h
  have hmem := List.mem_reverse.1 (List.mem_of_find?_eq_some hindex)
  exact length_moving true hlen (List.mem_range.1 hmem)

end Stepping

section Advancing

variable {o : Odometer} {t u : Tuple} {index : Nat}

/-- The notes about a wheel are those that the values in front of it call for, so they stay while
the wheel moves. -/
theorem halfway_moved (hu : u.take (index + 1) = (t.modify index (· + 1)).take (index + 1)) :
    halfway (showing o u) { showing o t with current := t.modify index (· + 1) } (index + 1)
      = { showing o t with current := t.modify index (· + 1) } := by
  -- The wheel that moves is behind all that its notes speak about, so these stay as they are.
  have hfront : u.take index = t.take index := by
    have htake := congrArg (List.take index) hu
    rw [List.take_take, List.take_take, Nat.min_eq_left (Nat.le_succ index), List.take_modify]
      at htake
    rw [htake, List.modify_eq_self (List.length_take_le index t)]
  have hstand : ∀ (place : Wheel → Nat) j, j ≤ index →
      standAt place o.wheels u j = standAt place o.wheels t j := fun place j => standAt_congr hfront
  have hnotes : ∀ place : Wheel → Nat,
      overwrite ((List.range o.wheels.length).map (standAt place o.wheels u))
        ((List.range o.wheels.length).map (standAt place o.wheels t)) (index + 1)
          = (List.range o.wheels.length).map (standAt place o.wheels t) := by
    intro place
    apply overwrite_of_take_eq
    rw [← List.map_take, ← List.map_take, List.take_range]
    refine List.map_congr_left fun j hj => hstand place j ?_
    rw [List.mem_range] at hj
    omega
  have hends : overwrite (o.wheels.mapIdx (stopAt o.counting o.wheels u))
      (o.wheels.mapIdx (stopAt o.counting o.wheels t)) (index + 1)
        = o.wheels.mapIdx (stopAt o.counting o.wheels t) := by
    apply overwrite_of_take_eq
    refine List.ext_getElem (by simp) fun j hj _ => ?_
    rw [List.length_take] at hj
    rw [List.getElem_take, List.getElem_take, List.getElem_mapIdx, List.getElem_mapIdx, stopAt,
      stopAt, hstand _ j (by omega)]
  have hcurrent := overwrite_of_take_eq hu
  simp only [halfway, showing, hcurrent, hends, hnotes]

/-- The machine tests a wheel as the recursion does. -/
theorem movable?_showing (hlen : t.length = o.wheels.length) (hindex : index < o.wheels.length) :
    (showing o t).movable? index = some (canMove o.counting true o.wheels t index) := by
  have hin : index < t.length := hlen ▸ hindex
  have hw : o.wheels[index]? = some o.wheels[index] := List.getElem?_eq_getElem hindex
  have hd : t[index]? = some t[index] := List.getElem?_eq_getElem hin
  have hstop : (o.wheels.mapIdx (stopAt o.counting o.wheels t))[index]?
      = some (stopAt o.counting o.wheels t index o.wheels[index]) := by
    rw [List.getElem?_mapIdx, hw]
    rfl
  refine (bind_eq hd).trans ((bind_eq hstop).trans ?_)
  rw [canMove, hw, hd]
  rfl

/-- After a wheel has moved, the machine starts the wheels behind it over as the recursion does. -/
theorem resetFrom?_moved (hlen : t.length = o.wheels.length) (hindex : index < o.wheels.length) :
    Odometer.resetFrom? { showing o t with current := t.modify index (· + 1) } (index + 1)
      = some (showing o (moving o.counting true o.wheels t index)) := by
  have hsized := sized_showing hlen
  have hfront : (t.modify index (· + 1)).take (index + 1)
      = (moving o.counting true o.wheels t index).take (index + 1) := by
    rw [moving, List.take_append_of_le_length (by rw [List.length_take, List.length_modify]; omega),
      List.take_take, Nat.min_self]
  have hstart : Restarts o.counting o.wheels (moving o.counting true o.wheels t index)
      (index + 1) := by
    intro j w hj hw
    rw [← standAt_congr hfront (Nat.le_refl _), moving, List.getElem?_append_right]
    · rw [List.length_take, List.length_modify, Nat.min_eq_left (by omega), List.getElem?_map,
        List.getElem?_drop, Nat.add_sub_cancel' hj, hw, Bool.true_and]
      rfl
    · rw [List.length_take]
      omega
  refine resetFrom?_eq ?_ (length_moving true hlen hindex) hindex hstart (halfway_moved hfront.symm)
  exact ⟨by rw [List.length_modify]; exact hlen, hsized.ends, hsized.atLower, hsized.atUpper⟩

/-- The values of the wheels fit into words. -/
def Fits (wheels : List Wheel) : Prop :=
  wheels.length < 2 ^ 64 ∧ ∀ w ∈ wheels, w.upper < 2 ^ 32 ∧ w.max < 2 ^ 32

/-- Wherever a wheel stops, it stops within a word. -/
theorem Fits.stop_lt {wheels : List Wheel} (h : Fits wheels) {w : Wheel} (hw : w ∈ wheels)
    (counting : Counting) (atUpper : Bool) : counting.stop atUpper w < 2 ^ 32 := by
  obtain ⟨hupper, hmax⟩ := h.2 w hw
  cases counting with
  | product => exact hupper
  | interval => cases atUpper <;> assumption

/-- **A step of the machine is one of the library.** -/
theorem advance?_eq (hlen : t.length = o.wheels.length) (hfits : Fits o.wheels) :
    (showing o t).advance? = some (match o.counting.next? o.wheels t with
      | some u => (true, showing o u)
      | none => (false, showing o t)) := by
  have hfind : (List.range (showing o t).wheels.length).reverse.findM? (showing o t).movable?
      = some ((List.range o.wheels.length).reverse.find? (canMove o.counting true o.wheels t)) := by
    refine findM?_eq_some fun index hindex => movable?_showing hlen ?_
    exact List.mem_range.1 (List.mem_reverse.1 hindex)
  rw [Counting.next?, nextFrom?_eq true true hlen]
  refine (bind_eq hfind).trans ?_
  cases hlast : (List.range o.wheels.length).reverse.find? (canMove o.counting true o.wheels t) with
  | none => rfl
  | some index =>
      have hindex : index < o.wheels.length :=
        List.mem_range.1 (List.mem_reverse.1 (List.mem_of_find?_eq_some hlast))
      have hin : index < t.length := hlen ▸ hindex
      have hd : t[index]? = some t[index] := List.getElem?_eq_getElem hin
      have hcan := List.find?_some hlast
      rw [canMove, List.getElem?_eq_getElem hindex, hd, decide_eq_true_eq] at hcan
      -- A wheel that can move is in front of its stop, so the sum is at most that.
      have hstop := hfits.stop_lt (List.getElem_mem hindex) o.counting
        (true && standAt (·.upper) o.wheels t index)
      have hset : set? t index (t[index] + 1) = some (t.modify index (· + 1)) := by
        rw [set?_eq hin, List.modify_eq_set_get _ hin]
        rfl
      have hwords := hfits.1
      refine (bind_eq hd).trans ((bind_eq (add?_eq (by omega))).trans ((bind_eq hset).trans ?_))
      exact (bind_eq (add?_eq (by omega))).trans (bind_eq (resetFrom?_moved hlen hindex))

end Advancing

/-! ## Look-ahead -/

/-- The counter on the machine stands where the one of the library does. -/
def Odometer.StandsAt (o : Odometer) : Position → Prop
  | .fresh => o.stage = .fresh ∧ o.Sized
  | .showing t => o.stage = .running ∧ t.length = o.wheels.length ∧ showing o t = o
  | .done => o.stage = .done

/-- The counter on the machine counts like the one of the library, and stands where it does. -/
structure Odometer.Follows (o : Odometer) (c : Counter) : Prop where
  wheels : o.wheels = c.wheels
  counting : o.counting = c.counting
  rejects : ∀ t : Tuple, t.length = o.wheels.length → o.rejects t = c.rejects t
  position : o.StandsAt c.position

/-- It also has the same look-ahead. -/
structure Odometer.Simulates (o : Odometer) (c : Counter) : Prop extends o.Follows c where
  primed : o.primed = c.ahead.isSome
  pending : o.pending = c.ahead.join

/-- The tuple behind the position of a counter, rejected or not. -/
def Counter.after? (c : Counter) : Option Tuple :=
  match c.position with
  | .fresh => some (c.counting.first c.wheels)
  | .showing t => c.counting.next? c.wheels t
  | .done => none

/-- The position at a tuple, or past all. -/
def Position.at? : Option Tuple → Position
  | some t => .showing t
  | none => .done

/-- A look-ahead seeks from the tuple behind the position on. -/
theorem fetch?_eq (c : Counter) :
    c.fetch? = (Counter.after? c).bind (c.counting.seek? c.wheels c.rejects) := by
  obtain ⟨wheels, counting, rejects, position, ahead⟩ := c
  cases position <;> rfl

/-- A look-ahead moves the counter to the tuple that it fetches. -/
theorem fill_eq (c : Counter) :
    c.fill = { c with position := Position.at? c.fetch?, ahead := some c.fetch? } := by
  rw [Counter.fill]
  cases c.fetch? <;> rfl

/-- A look-ahead leaves the wheels as they are. -/
theorem wheels_prime (c : Counter) : c.prime.wheels = c.wheels := by
  rw [Counter.prime, fill_eq]
  split <;> rfl

/-- Handing a tuple out leaves the wheels as they are. -/
theorem wheels_next (c : Counter) : c.next.2.wheels = c.wheels := by
  obtain ⟨look, hlook⟩ := c.exists_ahead_prime
  rw [c.next_eq hlook, ← wheels_prime c, fill_eq]
  cases look <;> rfl

section LookAhead

variable {o : Odometer} {c : Counter}

/-- Where a counter stands does not depend on its look-ahead. -/
theorem Odometer.Follows.looking (h : o.Follows c) (primed : Bool) (pending : Option Tuple)
    (ahead : Option (Option Tuple)) :
    Odometer.Follows { o with primed, pending } { c with ahead } := by
  refine ⟨h.wheels, h.counting, h.rejects, ?_⟩
  have hposition := h.position
  revert hposition
  show o.StandsAt c.position → Odometer.StandsAt { o with primed, pending } c.position
  cases c.position with
  | fresh => exact fun hfresh => ⟨hfresh.1, hfresh.2.1, hfresh.2.2, hfresh.2.3, hfresh.2.4⟩
  | showing t =>
      exact fun hshow =>
        ⟨hshow.1, hshow.2.1, congrArg (fun o => { o with primed, pending }) hshow.2.2⟩
  | done => exact id

/-- **A step of the machine comes to the tuple behind the position.** -/
theorem step?_spec (h : o.Follows c) (hfits : Fits o.wheels) : ∃ o' : Odometer,
    o.step? = some (Counter.after? c, o') ∧
      o'.Follows { c with position := Position.at? (Counter.after? c) } ∧ o'.primed = o.primed := by
  obtain ⟨wheels, counting, rejects, position, ahead⟩ := c
  obtain ⟨rfl, rfl, hrejects, hposition⟩ := h
  cases position with
  | fresh =>
      obtain ⟨hstage, hsize⟩ := hposition
      have hlen : (o.counting.first o.wheels).length = o.wheels.length := List.length_map _
      have hreset :=
        resetFrom?_eq (o := { o with stage := .running }) ⟨hsize.1, hsize.2, hsize.3, hsize.4⟩
          hlen (Nat.zero_le _) (restarts_first _ _) rfl
      refine ⟨showing { o with stage := .running } (o.counting.first o.wheels), ?_,
        ⟨rfl, rfl, hrejects, rfl, hlen, rfl⟩, rfl⟩
      rw [Odometer.step?, hstage]
      exact bind_eq hreset
  | showing t =>
      obtain ⟨hstage, hlen, hsame⟩ := hposition
      have hadvance := advance?_eq hlen hfits
      rw [hsame] at hadvance
      rw [Odometer.step?, hstage]
      unfold Counter.after?
      dsimp only
      cases hnext : o.counting.next? o.wheels t with
      | none =>
          rw [hnext] at hadvance
          exact ⟨{ o with stage := .done }, bind_eq hadvance, ⟨rfl, rfl, hrejects, rfl⟩, rfl⟩
      | some u =>
          rw [hnext] at hadvance
          exact ⟨showing o u, bind_eq hadvance,
            ⟨rfl, rfl, hrejects, hstage, length_of_next? hlen hnext, rfl⟩, rfl⟩
  | done =>
      refine ⟨o, ?_, ⟨rfl, rfl, hrejects, hposition⟩, rfl⟩
      rw [Odometer.step?, (hposition : o.stage = .done)]
      rfl

/-- How many steps a counter has left at most. -/
def Counter.stepsLeft (c : Counter) : Nat :=
  match c.position with
  | .fresh => Counting.capacity c.wheels + 1
  | .showing t => c.counting.remaining c.wheels t + 1
  | .done => 0

/-- The machine has as many steps left as the counter it follows. -/
theorem Odometer.Follows.left_eq (h : o.Follows c) : o.left = Counter.stepsLeft c := by
  obtain ⟨wheels, counting, rejects, position, ahead⟩ := c
  obtain ⟨rfl, rfl, -, hposition⟩ := h
  cases position with
  | fresh => rw [Odometer.left, hposition.1, Counter.stepsLeft]
  | showing t =>
      have hcurrent : o.current = t := congrArg Odometer.current hposition.2.2.symm
      rw [Odometer.left, hposition.1, Counter.stepsLeft, hcurrent]
  | done =>
      rw [Odometer.left, (hposition : o.stage = .done)]
      rfl

/-- A step leaves fewer steps. -/
theorem stepsLeft_lt {t : Tuple} (hafter : Counter.after? c = some t) :
    Counter.stepsLeft { c with position := .showing t } < Counter.stepsLeft c := by
  obtain ⟨wheels, counting, rejects, position, ahead⟩ := c
  cases position with
  | fresh =>
      rw [← Option.some.inj hafter]
      exact Nat.succ_lt_succ (counting.remainingFrom_lt_capacity _ _ _)
  | showing u => exact Nat.succ_lt_succ (counting.remaining_next? hafter)
  | done => cases hafter

/-- Seeking goes on from tuple to tuple. -/
theorem remaining_seek? {counting : Counting} {wheels : List Wheel} {rejects : Tuple → Bool}
    {t u : Tuple} (h : counting.seek? wheels rejects t = some u) :
    counting.remaining wheels u ≤ counting.remaining wheels t := by
  fun_induction counting.seek? wheels rejects t with
  | case1 t hreject v hnext ih =>
      exact Nat.le_of_lt (Nat.lt_of_le_of_lt (ih h) (counting.remaining_next? hnext))
  | case2 t hreject hnext => cases h
  | case3 t haccept =>
      cases h
      exact Nat.le_refl _

/-- A rejected tuple is passed over. -/
theorem fill_showing {t : Tuple} (hafter : Counter.after? c = some t)
    (hreject : c.rejects t = true) :
    Counter.fill { c with position := .showing t } = c.fill := by
  have hfetch : Counter.fetch? { c with position := .showing t } = c.fetch? := by
    rw [fetch?_eq, fetch?_eq, hafter, Option.bind_some, Counting.seek?, if_pos hreject]
    show (c.counting.next? c.wheels t).bind _ = _
    cases c.counting.next? c.wheels t <;> rfl
  rw [fill_eq, fill_eq, hfetch]

/-- What a counter is that has fetched a tuple which is not rejected. -/
theorem fill_eq_of_after? {look : Option Tuple} (hafter : Counter.after? c = look)
    (haccept : ∀ t ∈ look, ¬ c.rejects t = true) :
    c.fill = { c with position := Position.at? look, ahead := some look } := by
  have hfetch : c.fetch? = look := by
    rw [fetch?_eq, hafter]
    cases look with
    | none => rfl
    | some t => rw [Option.bind_some, Counting.seek?, if_neg (haccept t rfl)]
  rw [fill_eq, hfetch]

/-- The machine follows a counter that will have the same look-ahead. -/
def FillsLike (c : Counter) (o : Odometer) : Prop :=
  ∃ d : Counter, o.Follows d ∧ o.primed = true ∧ Fits o.wheels ∧ d.fill = c.fill

/-- **From step to step, the machine comes to the tuple that the library finds.** -/
theorem fill?_spec (h : o.Follows c) (hprimed : o.primed = true) (hfits : Fits o.wheels) :
    ∃ o' : Odometer, o.fill? = some o' ∧ o'.Simulates c.fill := by
  refine loop?_spec (FillsLike c) (Odometer.Simulates · c.fill) (fun o hlike => ?_)
    ⟨c, h, hprimed, hfits, rfl⟩
  obtain ⟨d, hfollow, hprimed, hfits, hfill⟩ := hlike
  obtain ⟨o', hstep, hfollow', hkeep⟩ := step?_spec hfollow hfits
  have hprimed' : o'.primed = true := hkeep.trans hprimed
  rw [← hfill, Odometer.tryFill?, bind_eq hstep]
  cases hafter : Counter.after? d with
  | none =>
      rw [hafter] at hfollow'
      rw [fill_eq_of_after? hafter (by simp)]
      exact Or.inl ⟨_, rfl, hfollow'.looking o'.primed none _, hprimed', rfl⟩
  | some t =>
      rw [hafter] at hfollow'
      have htest : o'.rejects t = d.rejects t := hfollow'.rejects t hfollow'.position.2.1
      by_cases hreject : d.rejects t = true
      · -- The tuple is passed over, and the next round has fewer steps left.
        refine Or.inr ⟨o', ?_, ?_, _, hfollow', hprimed', ?_,
          (fill_showing hafter hreject).trans hfill⟩
        · dsimp only
          rw [htest, if_pos hreject]
          rfl
        · rw [hfollow'.left_eq, hfollow.left_eq]
          exact stepsLeft_lt hafter
        · rw [hfollow'.wheels]
          exact hfollow.wheels ▸ hfits
      · rw [fill_eq_of_after? hafter (fun u hu => Option.some.inj hu ▸ hreject)]
        refine Or.inl ⟨_, ?_, hfollow'.looking o'.primed (some t) _, hprimed', rfl⟩
        dsimp only
        rw [htest, if_neg hreject]
        rfl

/-- **The look-ahead is fetched once**, and is the one of the library. -/
theorem prime?_spec (h : o.Simulates c) (hfits : Fits o.wheels) :
    ∃ o' : Odometer, o.prime? = some o' ∧ o'.Simulates c.prime := by
  rw [Odometer.prime?, h.primed, Counter.prime]
  cases hahead : c.ahead with
  | none => exact fill?_spec (h.toFollows.looking true o.pending c.ahead) rfl hfits
  | some look => exact ⟨o, rfl, h⟩

/-- **Asked whether a tuple follows, the machine answers as the library does, and goes on like
it.** -/
theorem hasNext?_spec (h : o.Simulates c) (hfits : Fits o.wheels) :
    ∃ o' : Odometer, o.hasNext? = some (c.hasNext.1, o') ∧ o'.Simulates c.hasNext.2 := by
  obtain ⟨o', hprime, hsim⟩ := prime?_spec h hfits
  refine ⟨o', (bind_eq hprime).trans ?_, hsim⟩
  rw [hsim.pending]
  rfl

/-- **Asked for the next tuple, the machine answers as the library does, and goes on like it.** -/
theorem next?_spec (h : o.Simulates c) (hfits : Fits o.wheels) :
    ∃ o' : Odometer, o.next? = some (c.next.1, o') ∧ o'.Simulates c.next.2 := by
  obtain ⟨o', hprime, hsim⟩ := prime?_spec h hfits
  obtain ⟨look, hlook⟩ := c.exists_ahead_prime
  have hpending : o'.pending = look := by rw [hsim.pending, hlook]; rfl
  have hprimed : o'.primed = true := by rw [hsim.primed, hlook]; rfl
  rw [Odometer.next?, c.next_eq hlook, bind_eq hprime, hpending]
  cases look with
  | none => exact ⟨o', rfl, hsim⟩
  | some t =>
      have hwheels : o'.wheels = o.wheels :=
        hsim.wheels.trans ((wheels_prime c).trans h.wheels.symm)
      obtain ⟨o'', hfill, hsim'⟩ :=
        fill?_spec (hsim.toFollows.looking o'.primed none c.prime.ahead) hprimed (hwheels ▸ hfits)
      exact ⟨o'', bind_eq hfill, hsim'⟩

/-- How many tuples a counter can still hand out at most. -/
def Counter.due (c : Counter) : Nat :=
  Counter.stepsLeft c + if c.ahead.join.isSome then 1 else 0

/-- The machine has as many tuples to hand out as the counter it simulates. -/
theorem Odometer.Simulates.due_eq (h : o.Simulates c) : o.due = Counter.due c := by
  rw [Odometer.due, h.left_eq, h.pending, Counter.due]

/-- The tuple that is found leaves fewer steps. -/
theorem stepsLeft_fetch? {u : Tuple} (hfetch : c.fetch? = some u) :
    Counter.stepsLeft { c with position := .showing u } < Counter.stepsLeft c := by
  rw [fetch?_eq] at hfetch
  obtain ⟨t, hafter, hseek⟩ := Option.bind_eq_some_iff.1 hfetch
  exact Nat.lt_of_le_of_lt (Nat.succ_le_succ (remaining_seek? hseek)) (stepsLeft_lt hafter)

/-- A look-ahead costs at least one step. -/
theorem due_fill_le (c : Counter) : Counter.due c.fill ≤ Counter.stepsLeft c := by
  rw [fill_eq]
  cases hfetch : c.fetch? with
  | none => exact Nat.zero_le _
  | some u => exact stepsLeft_fetch? hfetch

/-- A tuple that is handed out leaves fewer to hand out. -/
theorem due_next_lt {t : Tuple} (h : c.next.1 = some t) : Counter.due c.next.2 < Counter.due c := by
  obtain ⟨look, hlook⟩ := c.exists_ahead_prime
  rw [c.next_eq hlook] at h ⊢
  have hlook' : look = some t := h
  subst hlook'
  have hfill : Counter.due c.prime.fill ≤ Counter.stepsLeft c.prime := due_fill_le _
  have hdue : Counter.due c.prime = Counter.stepsLeft c.prime + 1 := by
    rw [Counter.due, hlook]
    rfl
  have hprime : Counter.due c.prime ≤ Counter.due c := by
    rw [Counter.prime]
    split
    · exact Nat.le_trans (due_fill_le c) (Nat.le_add_right _ _)
    · exact Nat.le_refl _
  show Counter.due c.prime.fill < Counter.due c
  omega

/-- A counter that has still to start simulates a fresh one. -/
theorem simulates_new (wheels : List Wheel) (counting : Counting) {rejects test : Tuple → Bool}
    (h : ∀ t : Tuple, t.length = wheels.length → test t = rejects t) :
    (Odometer.new wheels counting test).Simulates { wheels, counting, rejects } where
  wheels := rfl
  counting := rfl
  rejects := h
  position := ⟨rfl, List.length_replicate, List.length_replicate, List.length_replicate,
    List.length_replicate⟩
  primed := rfl
  pending := rfl

end LookAhead

end Machine

end IpSpace
