import IpSpace.Proofs.Counter

/-!
# Counters as cursors

A counter can be asked three things in any order: whether a tuple follows, for the next tuple, and
to step over a tuple without a look at it. The answers depend on where the counter stands and on the
tuple that it has looked ahead to, and the two come apart, since a step moves the one and leaves the
other.

`Counter.Cursor` is what a reader has to know of a counter: the tuples that follow its position, out
of a list written down beforehand, and the look-ahead. `Cursor.Step` says what one call may answer
and where it leaves the cursor. One call to a counter is such a step (`Counter.call_step`), so any
number of calls, from a fresh counter on, make a run of the cursor from the front of its list of
tuples (`Counter.run_steps`).
-/

namespace IpSpace

namespace Counting

/-- Wheels that can be counted. For a product, no lower end is past its upper end; for an interval,
no end is past what its wheel can show, and the tuple of the lower ends is not past that of the
upper ends. -/
def Countable : Counting → List Wheel → Prop
  | product, wheels => ∀ w ∈ wheels, w.lower ≤ w.upper
  | interval, wheels =>
    (∀ w ∈ wheels, w.lower ≤ w.max ∧ w.upper ≤ w.max) ∧
      wheels.map (·.lower) ≤ wheels.map (·.upper)

/-- The tuples to be counted: those of the cartesian product of the ranges of the wheels, or those
of values that the wheels can show, from the tuple of the lower ends to that of the upper ends. -/
def Counts : Counting → List Wheel → Tuple → Prop
  | product, wheels, t => List.Forall₂ (fun w d => w.lower ≤ d ∧ d ≤ w.upper) wheels t
  | interval, wheels, t =>
    List.Forall₂ (fun w d => d ≤ w.max) wheels t ∧
      wheels.map (·.lower) ≤ t ∧ t ≤ wheels.map (·.upper)

variable {c : Counting} {wheels : List Wheel} {rejects : Tuple → Bool} {t : Tuple}

/-- The tuples of wheels that can be counted, in ascending order. -/
theorem Countable.tuples_spec (h : c.Countable wheels) :
    (c.tuples wheels).Pairwise (· < ·) ∧ ∀ t, t ∈ c.tuples wheels ↔ c.Counts wheels t := by
  cases c with
  | product => exact ⟨pairwise_tuples (ready_product h), fun t => mem_tuples_product h⟩
  | interval =>
      obtain ⟨hmax, hle⟩ := h
      exact ⟨pairwise_tuples (ready_interval hmax fun _ _ => hle),
        fun t => mem_tuples_interval hmax hle⟩

/-- Seeking passes over rejected tuples, and either finds a tuple that is not rejected or has passed
over all. -/
theorem seek?_spec (c : Counting) (wheels : List Wheel) (rejects : Tuple → Bool) (t : Tuple) :
    (∃ skipped u, c.seek? wheels rejects t = some u ∧
      c.tuplesFrom wheels t = skipped ++ u :: c.later wheels u ∧
      (∀ s ∈ skipped, rejects s = true) ∧ rejects u = false) ∨
    (c.seek? wheels rejects t = none ∧ ∀ s ∈ c.tuplesFrom wheels t, rejects s = true) := by
  fun_induction c.seek? wheels rejects t with
  | case1 t hreject t' hnext ih =>
      have hfrom : c.tuplesFrom wheels t = t :: c.tuplesFrom wheels t' := by
        rw [tuplesFrom_eq_cons, later, hnext]
        rfl
      rw [hfrom]
      rcases ih with ⟨skipped, u, hseek, hsplit, hskipped, haccept⟩ | ⟨hseek, hall⟩
      · refine Or.inl ⟨t :: skipped, u, hseek, ?_, ?_, haccept⟩
        · rw [hsplit, List.cons_append]
        · exact List.forall_mem_cons.2 ⟨hreject, hskipped⟩
      · exact Or.inr ⟨hseek, List.forall_mem_cons.2 ⟨hreject, hall⟩⟩
  | case2 t hreject hnext =>
      refine Or.inr ⟨rfl, ?_⟩
      rw [tuplesFrom_eq_cons, later, hnext]
      exact List.forall_mem_singleton.2 hreject
  | case3 t haccept =>
      refine Or.inl ⟨[], t, rfl, ?_, List.forall_mem_nil _, by simpa using haccept⟩
      rw [tuplesFrom_eq_cons, List.nil_append]

end Counting

namespace Counter

/-! ## Calls -/

/-- What a counter can be asked. -/
inductive Call where
  | hasNext
  | next
  | advance
  deriving DecidableEq

/-- What a counter answers: whether a tuple follows, the next tuple, whether it has moved. -/
inductive Reply where
  | found (more : Bool)
  | item (t? : Option Tuple)
  | moved (done : Bool)
  deriving DecidableEq

/-- The answer to one call, and the counter after it. -/
def call (c : Counter) : Call → Reply × Counter
  | .hasNext => (.found c.hasNext.1, c.hasNext.2)
  | .next => (.item c.next.1, c.next.2)
  | .advance => (.moved c.advance.1, c.advance.2)

/-- The answers to calls made one after another, and the counter after them. -/
def run (c : Counter) : List Call → List Reply × Counter
  | [] => ([], c)
  | q :: qs => ((c.call q).1 :: ((c.call q).2.run qs).1, ((c.call q).2.run qs).2)

/-- The answers to the calls for the next tuple. -/
def items (replies : List Reply) : List (Option Tuple) :=
  replies.filterMap fun
    | .item t? => some t?
    | _ => none

/-! ## Cursors -/

/-- A cursor in a list of tuples: whether it has left the front, the tuples that follow it, and the
look-ahead, which is absent until it is first fetched. -/
structure Cursor where
  started : Bool
  rest : List Tuple
  ahead : Option (Option Tuple)

namespace Cursor

/-- Fetching a look-ahead moves the cursor past the next tuple that is not rejected, or past all. -/
inductive Fetch (rejects : Tuple → Bool) (k : Cursor) : Cursor → Prop where
  | found {skipped rest : List Tuple} {t : Tuple} (hrest : k.rest = skipped ++ t :: rest)
      (hskipped : ∀ s ∈ skipped, rejects s = true) (haccept : rejects t = false) :
      Fetch rejects k ⟨true, rest, some (some t)⟩
  | exhausted (hall : ∀ s ∈ k.rest, rejects s = true) : Fetch rejects k ⟨true, [], some none⟩

/-- A look-ahead is fetched only if there is none yet. -/
inductive Prime (rejects : Tuple → Bool) (k : Cursor) : Cursor → Prop where
  | fetch {k' : Cursor} (hnone : k.ahead = none) (hfetch : Fetch rejects k k') : Prime rejects k k'
  | keep {look : Option Tuple} (hsome : k.ahead = some look) : Prime rejects k k

/-- What one call may answer, and where it leaves the cursor. -/
inductive Step (rejects : Tuple → Bool) (k : Cursor) : Call → Reply → Cursor → Prop where
  /-- The look-ahead tells whether a tuple follows. -/
  | hasNext {k' : Cursor} {look : Option Tuple} (hprime : Prime rejects k k')
      (hlook : k'.ahead = some look) : Step rejects k .hasNext (.found look.isSome) k'
  /-- The look-ahead is handed out, and another one is fetched. -/
  | next {k' k'' : Cursor} {t : Tuple} (hprime : Prime rejects k k')
      (hlook : k'.ahead = some (some t)) (hfetch : Fetch rejects k' k'') :
      Step rejects k .next (.item (some t)) k''
  /-- Past the end there is nothing to hand out. -/
  | nothing {k' : Cursor} (hprime : Prime rejects k k') (hlook : k'.ahead = some none) :
      Step rejects k .next (.item none) k'
  /-- A step drops the tuple that follows the cursor. The look-ahead stays. -/
  | advance {t : Tuple} {rest : List Tuple} (hstarted : k.started = true)
      (hrest : k.rest = t :: rest) : Step rejects k .advance (.moved true) { k with rest }
  /-- From the front, and from the end, there is no step. -/
  | stay (hstay : k.started = false ∨ k.rest = []) : Step rejects k .advance (.moved false) k

/-- What calls made one after another may answer, and where they leave the cursor. -/
inductive Run (rejects : Tuple → Bool) : Cursor → List Call → List Reply → Cursor → Prop where
  | nil {k : Cursor} : Run rejects k [] [] k
  | cons {k k' k'' : Cursor} {q : Call} {qs : List Call} {reply : Reply} {replies : List Reply}
      (hstep : Step rejects k q reply k') (hrun : Run rejects k' qs replies k'') :
      Run rejects k (q :: qs) (reply :: replies) k''

end Cursor

/-! ## One call -/

/-- The cursor that a counter stands for. -/
def cursor (c : Counter) : Cursor where
  started := c.position != .fresh
  rest := c.behind
  ahead := c.ahead

section Calls

variable (c : Counter)

/-- Fetching the look-ahead of a counter fetches that of its cursor. -/
theorem fill_fetch : Cursor.Fetch c.rejects c.cursor c.fill.cursor := by
  have hfetch : (∃ skipped u, c.fetch? = some u ∧
        c.behind = skipped ++ u :: c.counting.later c.wheels u ∧
        (∀ s ∈ skipped, c.rejects s = true) ∧ c.rejects u = false) ∨
      (c.fetch? = none ∧ ∀ s ∈ c.behind, c.rejects s = true) := by
    obtain ⟨wheels, counting, rejects, position, ahead⟩ := c
    cases position with
    | fresh => exact counting.seek?_spec wheels rejects _
    | showing t =>
        unfold fetch? behind Counting.later
        simp only
        cases counting.next? wheels t with
        | none => exact Or.inr ⟨rfl, List.forall_mem_nil _⟩
        | some t' => exact counting.seek?_spec wheels rejects t'
    | done => exact Or.inr ⟨rfl, List.forall_mem_nil _⟩
  unfold fill
  rcases hfetch with ⟨skipped, u, hfound, hsplit, hskipped, haccept⟩ | ⟨hnone, hall⟩
  · rw [hfound]
    exact .found hsplit hskipped haccept
  · rw [hnone]
    exact .exhausted hall

theorem prime_prime : Cursor.Prime c.rejects c.cursor c.prime.cursor := by
  unfold prime
  by_cases hnone : c.ahead.isNone = true
  · rw [if_pos hnone]
    exact .fetch (Option.isNone_iff_eq_none.1 hnone) c.fill_fetch
  · rw [if_neg hnone]
    have hsome : c.ahead ≠ none := fun h => hnone (Option.isNone_iff_eq_none.2 h)
    obtain ⟨look, hlook⟩ := Option.ne_none_iff_exists'.1 hsome
    exact .keep hlook

theorem rejects_prime : c.prime.rejects = c.rejects := by
  unfold prime fill
  split
  · split <;> rfl
  · rfl

/-- The next tuple is the look-ahead once it has been fetched. -/
theorem next_eq {look : Option Tuple} (hlook : c.prime.ahead = some look) :
    c.next = (look, if look.isSome then c.prime.fill else c.prime) := by
  have hjoin : c.prime.ahead.join = look := by rw [hlook]; rfl
  unfold next
  simp only [hjoin]
  cases look <;> rfl

/-- **One call to a counter is a step of its cursor.** -/
theorem call_step (q : Call) :
    Cursor.Step c.rejects c.cursor q (c.call q).1 (c.call q).2.cursor := by
  obtain ⟨look, hlook⟩ := c.exists_ahead_prime
  cases q with
  | hasNext =>
      have hfound : c.hasNext.1 = look.isSome := by
        unfold hasNext
        simp only [hlook]
        rfl
      unfold call
      rw [hfound]
      exact .hasNext c.prime_prime hlook
  | next =>
      unfold call
      simp only [c.next_eq hlook]
      cases look with
      | none => exact .nothing c.prime_prime hlook
      | some t => exact .next c.prime_prime hlook (c.rejects_prime ▸ c.prime.fill_fetch)
  | advance =>
      obtain ⟨wheels, counting, rejects, position, ahead⟩ := c
      cases position with
      | fresh => exact .stay (Or.inl rfl)
      | showing t =>
          -- The position moves only if there is a tuple behind it, rejected or not.
          unfold call advance
          simp only
          cases hnext : counting.next? wheels t with
          | none =>
              refine .stay (Or.inr ?_)
              show counting.later wheels t = []
              rw [Counting.later, hnext]
              rfl
          | some t' =>
              have hrest : counting.later wheels t = t' :: counting.later wheels t' := by
                rw [← Counting.tuplesFrom_eq_cons, Counting.later, hnext]
                rfl
              exact .advance rfl hrest
      | done => exact .stay (Or.inr rfl)

theorem rejects_call (q : Call) : (c.call q).2.rejects = c.rejects := by
  cases q with
  | hasNext => exact c.rejects_prime
  | next =>
      obtain ⟨look, hlook⟩ := c.exists_ahead_prime
      unfold call
      simp only [c.next_eq hlook]
      cases look with
      | none => exact c.rejects_prime
      | some t =>
          show c.prime.fill.rejects = c.rejects
          rw [← c.rejects_prime]
          unfold fill
          split <;> rfl
  | advance =>
      unfold call advance
      simp only
      split
      · split <;> rfl
      · rfl

end Calls

/-! ## Any number of calls -/

/-- **Calls to a counter make a run of its cursor.** -/
theorem run_steps (c : Counter) (calls : List Call) :
    Cursor.Run c.rejects c.cursor calls (c.run calls).1 (c.run calls).2.cursor := by
  induction calls generalizing c with
  | nil => exact .nil
  | cons q qs ih =>
      have hrest := ih (c.call q).2
      rw [c.rejects_call q] at hrest
      exact .cons (c.call_step q) hrest

/-- A cursor that has looked past the end stays there, and has nothing to hand out. -/
theorem Cursor.Step.ended {rejects : Tuple → Bool} {k k' : Cursor} {q : Call} {reply : Reply}
    (hstep : Cursor.Step rejects k q reply k') (hend : k.ahead = some none) :
    k'.ahead = some none ∧ ∀ t?, reply = .item t? → t? = none := by
  have hprime : ∀ {m : Cursor}, Cursor.Prime rejects k m → m.ahead = some none := by
    intro m hprime
    cases hprime with
    | fetch hnone _ => rw [hend] at hnone; cases hnone
    | keep _ => exact hend
  cases hstep with
  | hasNext hfound _ => exact ⟨hprime hfound, by rintro _ ⟨⟩⟩
  | next hfound hlook _ => rw [hprime hfound] at hlook; cases hlook
  | nothing hfound _ => exact ⟨hprime hfound, by rintro _ ⟨⟩; rfl⟩
  | advance _ _ => exact ⟨hend, by rintro _ ⟨⟩⟩
  | stay _ => exact ⟨hend, by rintro _ ⟨⟩⟩

/-- So it is after any number of calls. -/
theorem items_of_ended {c : Counter} (hend : c.ahead = some none) (calls : List Call) :
    ∀ t? ∈ items (c.run calls).1, t? = none := by
  induction calls generalizing c with
  | nil => exact List.forall_mem_nil _
  | cons q qs ih =>
      obtain ⟨hend', hreply⟩ := (c.call_step q).ended hend
      have hrest := ih (c := (c.call q).2) hend'
      unfold run
      cases hq : (c.call q).1 with
      | item t? => exact List.forall_mem_cons.2 ⟨hreply t? hq, hrest⟩
      | found more => exact hrest
      | moved done => exact hrest

/-- A counter that has nothing to hand out has looked past the end. -/
theorem ahead_of_next_eq_none {c : Counter} (h : c.next.1 = none) :
    c.next.2.ahead = some none := by
  obtain ⟨look, hlook⟩ := c.exists_ahead_prime
  rw [c.next_eq hlook] at h ⊢
  have hlook' : look = none := h
  rw [hlook'] at hlook ⊢
  exact hlook

/-- Whether a tuple follows is whether there is a next one, and asking changes nothing in that. -/
theorem hasNext_spec (c : Counter) : c.hasNext.1 = c.next.1.isSome ∧ c.hasNext.2.next = c.next := by
  obtain ⟨look, hlook⟩ := c.exists_ahead_prime
  have hagain : c.prime.prime = c.prime := by
    show (if c.prime.ahead.isNone then c.prime.fill else c.prime) = c.prime
    rw [hlook]
    rfl
  have hfound : c.hasNext = (look.isSome, c.prime) := by
    unfold hasNext
    simp only [hlook]
    rfl
  have hlook' : c.prime.prime.ahead = some look := by rw [hagain, hlook]
  rw [hfound, c.next_eq hlook]
  exact ⟨rfl, by rw [c.prime.next_eq hlook', hagain]⟩

/-- A step that is not made changes nothing. -/
theorem advance_eq_self {c : Counter} (h : c.advance.1 = false) : c.advance.2 = c := by
  unfold advance at h ⊢
  split at h
  · split at h
    · cases h
    · rename_i hnext
      rfl
  · rfl

/-- Without steps, the calls for the next tuple are answered with the tuples to come, in order, and
with nothing after them, whatever is asked in between. -/
theorem items_run {c : Counter} {calls : List Call} (h : Call.advance ∉ calls) :
    items (c.run calls).1 = (List.range (calls.count .next)).map fun n => c.upcoming[n]? := by
  induction calls generalizing c with
  | nil => rfl
  | cons q qs ih =>
      rw [List.mem_cons, not_or] at h
      have hrest := ih (c := (c.call q).2) h.2
      unfold run
      cases q with
      | hasNext =>
          have hupcoming : (c.call .hasNext).2.upcoming = c.upcoming := c.upcoming_prime
          rw [hupcoming] at hrest
          rw [List.count_cons_of_ne (by decide)]
          exact hrest
      | next =>
          obtain ⟨hhead, htail⟩ := c.next_spec
          have hupcoming : (c.call .next).2.upcoming = c.upcoming.tail := htail
          rw [hupcoming] at hrest
          rw [List.count_cons_self, List.range_succ_eq_map, List.map_cons, List.map_map]
          show c.next.1 :: items _ = _
          rw [hrest, hhead, List.head?_eq_getElem?]
          simp [Function.comp_def]
      | advance => exact absurd rfl h.1

/-- **A counter is a cursor over its tuples.** Wheels that can be counted have a list of tuples, in
strictly ascending order, which are those that a counter without a test hands out. Asked whatever
and however often, a fresh counter with any test answers as a cursor that starts in front of this
list, and ends up where the cursor does. Whether a tuple follows is whether the next call for one is
answered with a tuple, and asking changes nothing in that answer; a step that is not made changes
nothing at all; where there is no next tuple, there is none later; and without steps, the tuples
handed out are those that are not rejected, in order. -/
theorem run_cursor (counting : Counting) (wheels : List Wheel) (rejects : Tuple → Bool)
    (h : counting.Countable wheels) :
    ∃ ts : List Tuple,
      (ts.Pairwise (· < ·) ∧ (∀ t, t ∈ ts ↔ counting.Counts wheels t) ∧
        HandsOut { wheels, counting } ts) ∧
      ∀ calls : List Call,
        let replies := (run { wheels, counting, rejects } calls).1
        let c := (run { wheels, counting, rejects } calls).2
        Cursor.Run rejects ⟨false, ts, none⟩ calls replies c.cursor ∧
          (c.hasNext.1 = c.next.1.isSome ∧ c.hasNext.2.next = c.next) ∧
          (c.advance.1 = false → c.advance.2 = c) ∧
          (c.next.1 = none → ∀ later, ∀ t? ∈ items (c.next.2.run later).1, t? = none) ∧
          (Call.advance ∉ calls → items replies =
            (List.range (calls.count .next)).map fun n => (ts.filter fun t => !rejects t)[n]?) := by
  obtain ⟨hpairwise, hmem⟩ := h.tuples_spec
  refine ⟨counting.tuples wheels, ⟨hpairwise, hmem, handsOut_tuples counting wheels⟩, ?_⟩
  intro calls replies c
  refine ⟨run_steps { wheels, counting, rejects } calls, c.hasNext_spec, advance_eq_self, ?_, ?_⟩
  · exact fun hnone => items_of_ended (ahead_of_next_eq_none hnone)
  · exact fun hcalls => items_run hcalls

/-- Two wheels from `1.254` through `2.2`, without the tuples that end in `255`. In front of the
first tuple there is no step. Later one drops `2.1` from the tuples that follow, while the
look-ahead `2.0` stays. -/
theorem run_cursor_dropped :
    let wheels : List Wheel := [⟨1, 2, 255⟩, ⟨254, 2, 255⟩]
    let rejects : Tuple → Bool := fun t => t.getLast? == some 255
    let calls : List Call := [.advance, .next, .advance, .hasNext, .next, .next, .next]
    Counting.interval.Countable wheels ∧
      ∃ ts : List Tuple, ([1, 255] ∈ ts ∧ [2, 3] ∉ ts) ∧
        Cursor.Run rejects ⟨false, ts, none⟩ calls
          [.moved false, .item (some [1, 254]), .moved true, .found true, .item (some [2, 0]),
            .item (some [2, 2]), .item none]
          (run { wheels, counting := .interval, rejects } calls).2.cursor := by
  intro wheels rejects calls
  have hcountable : Counting.interval.Countable wheels :=
    ⟨by decide, Counting.cons_le_cons.2 (Or.inl (by decide))⟩
  have hreplies : (run { wheels, counting := .interval, rejects } calls).1
      = [.moved false, .item (some [1, 254]), .moved true, .found true, .item (some [2, 0]),
          .item (some [2, 2]), .item none] := by decide +kernel
  obtain ⟨ts, ⟨-, hmem, -⟩, hrun⟩ := run_cursor .interval wheels rejects hcountable
  refine ⟨hcountable, ts, ⟨?_, ?_⟩, ?_⟩
  · simp [hmem, Counting.Counts, wheels, Counting.cons_le_cons]
  · simp [hmem, Counting.Counts, wheels, Counting.cons_le_cons]
  · rw [← hreplies]
    exact (hrun calls).1

end Counter

end IpSpace
