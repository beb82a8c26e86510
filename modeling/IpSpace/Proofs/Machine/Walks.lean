import IpSpace.Proofs.Machine.Odometers
import IpSpace.Proofs.Machine.Layouts
import IpSpace.Proofs.Machine.Ranges

/-!
# Walks on the machine

A walk on the machine is a counter with notes and the steps that turn a tuple into an item. It runs
like a walk of the library (`Iterator.Runs`) if its counter simulates that of the library and the
steps for every tuple to come are carried out and have the item of the library as outcome. It goes
on doing so, whatever it is asked (`Iterator.hasNext?_spec`, `Iterator.next?_spec`), so it hands out
what the library hands out (`GoesOn.handedOut?_eq`). Every way to walk over a section, an address or
a range is such a walk.
-/

namespace IpSpace

namespace Machine

/-! ## Asking -/

section Asking

variable {σ α : Type}

/-- The next items, at most `n`. -/
def take? (next? : σ → Option (Option α × σ)) : σ → Nat → Option (List α × σ)
  | it, 0 => some ([], it)
  | it, n + 1 => do
    match ← next? it with
    | (some a, it) =>
      let (as, it) ← take? next? it n
      return (a :: as, it)
    | (none, it) => return ([], it)

/-- The items handed out to whoever asks one thing after another. -/
def handedOut? (hasNext? : σ → Option (Bool × σ)) (next? : σ → Option (Option α × σ)) :
    σ → List Walk.Call → Option (List α)
  | _, [] => some []
  | it, .hasNext :: calls => do
    let (_, it) ← hasNext? it
    handedOut? hasNext? next? it calls
  | it, .take n :: calls => do
    let (as, it) ← take? next? it n
    return as ++ (← handedOut? hasNext? next? it calls)

/-- The next item of a walk, and the walk after it. -/
def nextOf (w : Walk α) : Option α × Walk α :=
  (w.counter.next.1.map w.emit, { w with counter := w.counter.next.2 })

/-- Whoever is related to a walk answers like it, and is related to what the walk is afterwards. -/
structure GoesOn (hasNext? : σ → Option (Bool × σ)) (next? : σ → Option (Option α × σ))
    (R : σ → Walk α → Prop) : Prop where
  hasNext : ∀ it w, R it w → ∃ it', hasNext? it = some (w.hasNext.1, it') ∧ R it' w.hasNext.2
  next : ∀ it w, R it w → ∃ it', next? it = some ((nextOf w).1, it') ∧ R it' (nextOf w).2

variable {hasNext? : σ → Option (Bool × σ)} {next? : σ → Option (Option α × σ)}
  {R : σ → Walk α → Prop} {it : σ} {w : Walk α}

/-- Asking for items asks for one after another. -/
theorem take_succ (w : Walk α) (n : Nat) : w.take (n + 1) = match nextOf w with
    | (some a, w') => (a :: (w'.take n).1, (w'.take n).2)
    | (none, w') => ([], w') := by
  rw [Walk.take, Counter.take, nextOf]
  rcases w.counter.next with ⟨- | t, c⟩ <;> rfl

/-- Whoever goes on like a walk hands out as many items at once. -/
theorem GoesOn.take?_eq (h : GoesOn hasNext? next? R) (hit : R it w) (n : Nat) :
    ∃ it', take? next? it n = some ((w.take n).1, it') ∧ R it' (w.take n).2 := by
  induction n generalizing it w with
  | zero => exact ⟨it, rfl, hit⟩
  | succ n ih =>
      obtain ⟨it', hnext, hit'⟩ := h.next it w hit
      rw [take?, bind_eq hnext, take_succ]
      revert hit'
      rcases nextOf w with ⟨- | a, w'⟩
      · exact fun hit' => ⟨it', rfl, hit'⟩
      · intro hit'
        obtain ⟨it'', htake, hit''⟩ := ih hit'
        exact ⟨it'', bind_eq htake, hit''⟩

/-- **Whoever goes on like a walk hands out its items.** -/
theorem GoesOn.handedOut?_eq (h : GoesOn hasNext? next? R) (hit : R it w) (calls : List Walk.Call) :
    handedOut? hasNext? next? it calls = some (w.handedOut calls) := by
  induction calls generalizing it w with
  | nil => rfl
  | cons call calls ih =>
      cases call with
      | hasNext =>
          obtain ⟨it', hask, hit'⟩ := h.hasNext it w hit
          exact (bind_eq hask).trans (ih hit')
      | take n =>
          obtain ⟨it', htake, hit'⟩ := h.take?_eq hit n
          exact (bind_eq htake).trans (bind_eq (ih hit'))

end Asking

/-! ## Iterators -/

/-- A counter, and the steps that turn its tuples into items. -/
structure Iterator (α : Type) where
  odometer : Odometer
  emit? : Tuple → Option α

namespace Iterator

variable {α β : Type}

/-- Whether another item follows. -/
def hasNext? (it : Iterator α) : Option (Bool × Iterator α) := do
  let (found, odometer) ← it.odometer.hasNext?
  return (found, { it with odometer })

/-- The next item. -/
def next? (it : Iterator α) : Option (Option α × Iterator α) := do
  match ← it.odometer.next? with
  | (some t, odometer) => return (some (← it.emit? t), { it with odometer })
  | (none, odometer) => return (none, { it with odometer })

/-- The iterator with every item changed by `f`. -/
def map (f : α → β) (it : Iterator α) : Iterator β where
  odometer := it.odometer
  emit? t := do return f (← it.emit? t)

/-- Puts the next item behind those that have been collected. -/
def collectNext? : List α × Iterator α → Option (List α × Iterator α ⊕ List α)
  | (items, it) => do
    match ← it.next? with
    | (some a, it) => return .inl (items ++ [a], it)
    | (none, _) => return .inr items

/-- All items to come. -/
def collect? (it : Iterator α) : Option (List α) :=
  loop? (·.2.odometer.due) collectNext? ([], it)

/-- The iterator runs like the walk. -/
structure Runs (it : Iterator α) (w : Walk α) : Prop where
  simulates : it.odometer.Simulates w.counter
  fits : Fits w.counter.wheels
  emits : ∀ t ∈ w.counter.upcoming, it.emit? t = some (w.emit t)

variable {it : Iterator α} {w : Walk α}

/-- **An iterator that runs like a walk goes on like it.** -/
theorem goesOn_runs : GoesOn (@hasNext? α) next? Runs where
  hasNext it w h := by
    obtain ⟨o, hask, hsim⟩ := hasNext?_spec h.simulates (h.simulates.wheels ▸ h.fits)
    refine ⟨{ it with odometer := o }, bind_eq hask, hsim, ?_, ?_⟩
    · show Fits w.counter.prime.wheels
      rw [wheels_prime]
      exact h.fits
    · intro t ht
      exact h.emits t ((Counter.upcoming_prime w.counter) ▸ ht)
  next it w h := by
    obtain ⟨hhead, htail⟩ := w.counter.next_spec
    obtain ⟨o, hask, hsim⟩ := next?_spec h.simulates (h.simulates.wheels ▸ h.fits)
    refine ⟨{ it with odometer := o }, ?_, hsim, ?_, ?_⟩
    · rw [next?, bind_eq hask, nextOf]
      cases hnext : w.counter.next.1 with
      | none => rfl
      | some t =>
          rw [hnext] at hhead
          exact bind_eq (h.emits t (List.mem_of_mem_head? hhead.symm))
    · show Fits w.counter.next.2.wheels
      rw [wheels_next]
      exact h.fits
    · intro t ht
      have ht : t ∈ w.counter.next.2.upcoming := ht
      rw [htail] at ht
      exact h.emits t (List.mem_of_mem_tail ht)

/-- The items that are collected and those to come are all items. -/
def CollectsTo (all : List α) : List α × Iterator α → Prop
  | (items, it) => ∃ w : Walk α, it.Runs w ∧ items ++ w.counter.upcoming.map w.emit = all

/-- A round puts the next item behind the others, or ends if there is none. -/
theorem collectNext?_spec {all : List α} (state : List α × Iterator α) (h : CollectsTo all state) :
    (∃ items, collectNext? state = some (.inr items) ∧ items = all) ∨
      ∃ next, collectNext? state = some (.inl next) ∧
        next.2.odometer.due < state.2.odometer.due ∧ CollectsTo all next := by
  obtain ⟨items, it⟩ := state
  obtain ⟨w, hruns, hall⟩ := h
  obtain ⟨hhead, htail⟩ := w.counter.next_spec
  obtain ⟨it', hnext, hruns'⟩ := goesOn_runs.next it w hruns
  rw [collectNext?, bind_eq hnext, nextOf]
  cases hitem : w.counter.next.1 with
  | none =>
      rw [hitem, eq_comm, List.head?_eq_none_iff] at hhead
      rw [hhead, List.map_nil, List.append_nil] at hall
      exact Or.inl ⟨items, rfl, hall⟩
  | some t =>
      refine Or.inr ⟨(items ++ [w.emit t], it'), rfl, ?_, _, hruns', ?_⟩
      · rw [hruns'.simulates.due_eq, hruns.simulates.due_eq]
        exact due_next_lt hitem
      · rw [hitem] at hhead
        show items ++ [w.emit t] ++ w.counter.next.2.upcoming.map w.emit = _
        rw [htail, List.append_assoc, List.singleton_append, ← List.map_cons,
          List.cons_head?_tail hhead.symm, hall]

/-- **Collecting the items ends**, and yields those of the walk. -/
theorem Runs.collect?_eq (h : it.Runs w) : it.collect? = some (w.counter.upcoming.map w.emit) := by
  have hstart : CollectsTo (w.counter.upcoming.map w.emit) ([], it) := ⟨w, h, List.nil_append _⟩
  obtain ⟨items, hcollect, hitems⟩ := loop?_spec (CollectsTo (w.counter.upcoming.map w.emit))
    (· = w.counter.upcoming.map w.emit) collectNext?_spec hstart
  exact hitems ▸ hcollect

/-- Changing the items of an iterator changes those of the walk. -/
theorem Runs.map (h : it.Runs w) (f : α → β) : (it.map f).Runs (w.map f) where
  simulates := h.simulates
  fits := h.fits
  emits t ht := bind_eq (h.emits t ht)

end Iterator

/-! ## Building iterators -/

/-- An iterator over the sections that the tuples of a layout stand for. -/
def iterator? (version : Version) (source : List Bounds) (layout : Layout) (counting : Counting)
    (prefixLen : Option Nat) (test : Tuple → Bool) : Option (Iterator Section) := do
  let wheels ← wheels? version layout source
  return {
    odometer := Odometer.new wheels counting test
    emit? := fun t => do fromBounds? version (← segments? version source t layout) prefixLen }

section Building

variable {version : Version} {source : List Bounds} {layout : Layout} {counting : Counting}
  {prefixLen : Option Nat} {test rejects : Tuple → Bool} {wheels : List Wheel}
  {emit : Tuple → Section}

/-- Wheels for values of segments fit into words. -/
theorem fits_wheelsAt (p : Nat) (hlen : source.length = version.segmentCount)
    (hends : ∀ b ∈ source, b.lower ≤ version.segmentMax ∧ b.upper ≤ version.segmentMax) :
    Fits (wheelsAt version p source) := by
  have hcount := Nat.le_trans (version.wheelCount_le p) (segmentCount_le version)
  have hmax := segmentMax_lt_word version
  refine ⟨by rw [length_wheelsAt hlen]; omega, fun w hw => ?_⟩
  obtain ⟨index, hindex, rfl⟩ := List.getElem_of_mem hw
  have hb := lt_length_of_wheelsAt hindex
  rw [getElem_wheelsAt hindex hb]
  exact ⟨Nat.lt_of_le_of_lt
    (Nat.le_trans (Nat.div_le_self _ _) (hends _ (List.getElem_mem hb)).2) hmax,
    Nat.lt_of_le_of_lt (Nat.div_le_self _ _) hmax⟩

theorem Fits.take (h : Fits wheels) (n : Nat) : Fits (wheels.take n) :=
  ⟨Nat.lt_of_le_of_lt (List.length_take_le' n wheels) h.1, fun w hw =>
    h.2 w (List.mem_of_mem_take hw)⟩

/-- **An iterator runs like a walk** with the same wheels if its test rejects the same tuples and
its tuples stand for the same sections. -/
theorem iterator?_runs (hwheels : wheels? version layout source = some wheels) (hfits : Fits wheels)
    (htest : ∀ t : Tuple, t.length = wheels.length → test t = rejects t)
    (hemit : ∀ t ∈ counting.tuples wheels,
      segments? version source t layout = some (emit t).bounds ∧
      (emit t).version = version ∧ (emit t).prefixLen = prefixLen ∧ (emit t).WellFormed) :
    ∃ it, iterator? version source layout counting prefixLen test = some it ∧
      it.Runs ⟨{ wheels, counting, rejects }, emit⟩ := by
  refine ⟨_, bind_eq hwheels, simulates_new wheels counting htest, hfits, fun t ht => ?_⟩
  obtain ⟨hbounds, hversion, hprefix, hwf⟩ := hemit t (Counter.mem_tuples_of_upcoming ht)
  have hbuilt := fromBounds?_eq hwf
  rw [hversion, hprefix] at hbuilt
  exact (bind_eq hbounds).trans hbuilt

end Building

/-! ## Walks over a section -/

/-- Every address. -/
def addresses? (s : Section) : Option (Iterator Section) :=
  iterator? s.version s.bounds .values .product s.prefixLen fun _ => false

/-- The sections got by fixing the first `count` segments. -/
def fixing? (s : Section) (count : Nat) : Option (Iterator Section) :=
  iterator? s.version s.bounds (.fixing (min count s.segmentCount)) .product s.prefixLen
    fun _ => false

/-- The blocks of the given prefix length that hold an address of the section. -/
def prefixBlocks? (s : Section) (p : Nat) : Option (Iterator Section) := do
  let layout ← Layout.ofPrefixLen? s.version p false
  iterator? s.version s.bounds layout .product (some (min p s.bitCount)) fun _ => false

/-- The addresses of the section, grouped by their first `p` bits. -/
def prefixGroups? (s : Section) (p : Nat) : Option (Iterator Section) := do
  let layout ← Layout.ofPrefixLen? s.version p true
  iterator? s.version s.bounds layout .product (some (min p s.bitCount)) fun _ => false

/-- Number of segments in front of the last one that does not take all values. -/
def runSegmentCount? (s : Section) : Option Nat := do
  match ← s.bounds.zipIdx.reverse.findM? fun (b, _) => do
      return !(← isFull? s.version.segmentBits b) with
  | some (_, index) => return index
  | none => return 0

/-- The longest runs of consecutive addresses. -/
def runs? (s : Section) : Option (Iterator Section) := do
  fixing? s (← runSegmentCount? s)

/-- Number of runs. -/
def runCount? (s : Section) : Option Nat := do
  product? (← upTo? s.bounds (← runSegmentCount? s)) boundsCount?

/-- The host mask of every segment, if some of its bits are host bits. -/
def hostMasks? (version : Version) (p : Nat) : Option (List (Option Nat)) :=
  (List.range version.segmentCount).mapM fun index => do
    match ← segmentPrefixLen? version.segmentBits (some p) index with
    | some own => return some (← segmentHostMask? version.segmentBits own)
    | none => return none

/-- The addresses whose host is not zero. -/
def nonZeroHosts? (s : Section) : Option (Iterator Section) :=
  match s.prefixLen with
  | none => addresses? s
  | some p =>
    if s.bitCount ≤ p then addresses? s
    else do
      let masks ← hostMasks? s.version p
      iterator? s.version s.bounds .values .product s.prefixLen fun t =>
        (t.zip masks).all fun (d, mask) => mask.all fun m => d &&& m == 0

section Sections

variable {s : Section} (hs : s.WellFormed)

include hs

/-- The ends of every segment are values of its version. -/
theorem bounds_le_segmentMax :
    ∀ b ∈ s.bounds, b.lower ≤ s.version.segmentMax ∧ b.upper ≤ s.version.segmentMax :=
  fun b hb => ⟨Nat.le_trans (hs.lower_le_upper b hb) (hs.upper_le_max b hb), hs.upper_le_max b hb⟩

/-- The iterator over the addresses has a wheel for every segment. -/
theorem addresses?_runs : ∃ it, addresses? s = some it ∧ it.Runs s.addresses := by
  refine iterator?_runs (wheels?_all hs.length_bounds)
    (fits_wheelsAt _ hs.length_bounds (bounds_le_segmentMax hs))
    (fun _ _ => rfl) fun t ht => ⟨rfl, rfl, rfl, ?_⟩
  exact wellFormed_ofDigits_of_isNetworkTuple
    (Section.isNetworkTuple_of_mem_tuples hs ht) hs.prefixLen_le

/-- The iterator that fixes segments has a wheel for each of them, and for no more than there are.
-/
theorem fixing?_runs (count : Nat) :
    ∃ it, fixing? s count = some it ∧ it.Runs (s.fixing count) := by
  have hlen : s.bounds.length = s.segmentCount := rfl
  have hwheel : s.version.wheelCount s.bitCount = s.segmentCount :=
    (Section.wheelCount_bitCount s.version).trans hs.length_bounds.symm
  -- Asked to fix more segments than there are, the machine and the library fix all of them.
  have hcut : (wheelsAt s.version s.bitCount s.bounds).take (min count s.segmentCount)
      = (wheelsAt s.version s.bitCount s.bounds).take count := by
    rw [List.take_eq_take_iff, length_wheelsAt hs.length_bounds, hwheel]
    omega
  have hroom : min count s.segmentCount ≤ s.bounds.length := by omega
  have hwheels : wheels? s.version (.fixing (min count s.segmentCount)) s.bounds
      = some ((wheelsAt s.version s.bitCount s.bounds).take count) := by
    rw [← hcut]
    exact wheels?_values hs.length_bounds rfl rfl hroom
  have hfits := fits_wheelsAt s.bitCount hs.length_bounds (bounds_le_segmentMax hs)
  refine iterator?_runs hwheels (hfits.take count) (fun _ _ => rfl) fun t ht => ?_
  have hpicks := (Section.mem_tuples_fixing hs).1 ht
  have htlen := hpicks.length_eq
  rw [List.length_take, hlen] at htlen
  have hfrom : from? s.bounds (min count s.segmentCount) = some (s.bounds.drop t.length) := by
    rw [from?_eq hroom, htlen]
  exact ⟨bind_eq hfrom, rfl, rfl, Section.wellFormed_fixed hs hpicks⟩

/-- The section for a tuple of networks is the block of the tuple. -/
theorem prefixBlocks?_runs (p : Nat) :
    ∃ it, prefixBlocks? s p = some it ∧ it.Runs (s.prefixBlocks p) := by
  have hlen := hs.length_bounds
  have hp : min p s.version.bitCount ≤ s.version.bitCount := Nat.min_le_right _ _
  rw [prefixBlocks?, bind_eq (ofPrefixLen?_eq s.version p false)]
  refine iterator?_runs (wheels?_eq hlen hp rfl rfl)
    (fits_wheelsAt _ hlen (bounds_le_segmentMax hs)) (fun _ _ => rfl) fun t ht => ?_
  have htuple := Section.isNetworkTuple_of_mem_tuples hs ht
  exact ⟨segments?_blocks hp htuple hlen, rfl, rfl, wellFormed_blockOf htuple hp⟩

/-- In front of the last digit, a tuple has values of the section. -/
theorem mem_values_of_mem_tuples {p : Nat} (hp : p ≤ s.version.bitCount) {t : Tuple}
    (ht : t ∈ Counting.product.tuples (wheelsAt s.version p s.bounds)) :
    ∀ index n b, index + 1 < s.version.wheelCount p → t[index]? = some n →
      s.bounds[index]? = some b → n ∈ b.values := by
  intro index n b hindex hn hb
  have hmem := Section.network_mem_of_mem_tuples hs ht
  obtain ⟨hin, rfl⟩ := List.getElem?_eq_some_iff.1 hn
  obtain ⟨hbounds, rfl⟩ := List.getElem?_eq_some_iff.1 hb
  have hwheel : index < (wheelsAt s.version p s.bounds).length := hmem.length_eq ▸ hin
  have hbetween := hmem.get hwheel hin
  have hhost := hostBits_of_lt_wheelCount hp (Nat.lt_of_succ_lt hindex)
  rw [if_neg (Nat.ne_of_lt hindex)] at hhost
  rw [List.get_eq_getElem, List.get_eq_getElem, getElem_wheelsAt hwheel hbounds, hhost,
    Nat.pow_zero, Nat.div_one, Nat.div_one] at hbetween
  exact hbetween

omit hs in
/-- Reducing a prefix length to the width of the address once more does not change it. -/
theorem prefixGroups_eq (s : Section) (p : Nat) : s.prefixGroups p =
    ⟨{ wheels := wheelsAt s.version (min p s.version.bitCount) s.bounds, counting := .product },
      fun t => { blockOf s.version (min p s.version.bitCount) t with
        bounds := (blockOf s.version (min p s.version.bitCount) t).bounds.zipWith Bounds.inter
          s.bounds }⟩ := by
  have hmin : min (min p s.version.bitCount) s.version.bitCount = min p s.version.bitCount :=
    Nat.min_eq_left (Nat.min_le_right _ _)
  simp only [Section.prefixGroups, Section.prefixBlocks, Section.bitCount, hmin]
  rfl

/-- The section for a tuple of networks is the part of its block that the section has. -/
theorem prefixGroups?_runs (p : Nat) :
    ∃ it, prefixGroups? s p = some it ∧ it.Runs (s.prefixGroups p) := by
  have hlen := hs.length_bounds
  have hp : min p s.version.bitCount ≤ s.version.bitCount := Nat.min_le_right _ _
  have hwf := fun t => Section.wellFormed_of_prefixGroups (p := p) (t := t) hs
  rw [prefixGroups_eq] at hwf ⊢
  rw [prefixGroups?, bind_eq (ofPrefixLen?_eq s.version p true)]
  refine iterator?_runs (wheels?_eq hlen hp rfl rfl)
    (fits_wheelsAt _ hlen (bounds_le_segmentMax hs)) (fun _ _ => rfl) fun t ht => ?_
  have htuple := Section.isNetworkTuple_of_mem_tuples hs ht
  exact ⟨segments?_groups hp htuple hlen hs.within (mem_values_of_mem_tuples hs hp ht), rfl, rfl,
    hwf t (List.mem_filter.2 ⟨ht, rfl⟩)⟩

omit hs in
/-- Looked for from the back, the last member that fails a test has all others in front of it that
are left when those behind it are dropped. -/
theorem find?_zipIdx_reverse {α : Type} (l : List α) (q : α → Bool) :
    (l.zipIdx.reverse.find? fun x => !q x.1).elim 0 (·.2) = (l.reverse.dropWhile q).length - 1 := by
  induction l using List.reverseRecOn with
  | nil => rfl
  | append_singleton l b ih =>
      rw [List.zipIdx_append, List.reverse_append, List.reverse_append, List.zipIdx_singleton,
        List.reverse_singleton, List.reverse_singleton, List.singleton_append,
        List.singleton_append, List.find?_cons, List.dropWhile_cons]
      cases q b
      · simp
      · exact ih

omit hs in
/-- The search from the back comes to the last segment that does not take all values. -/
theorem runSegmentCount?_eq (s : Section) : runSegmentCount? s = some s.runSegmentCount := by
  have hfull : ∀ place ∈ s.bounds.zipIdx.reverse,
      (fun (b, _) => do return !(← isFull? s.version.segmentBits b)) place
        = some (!place.1.isFull s.version.segmentBits) :=
    fun place _ => bind_eq (isFull?_eq (segmentBits_lt s.version) place.1)
  rw [runSegmentCount?, bind_eq (findM?_eq_some hfull), Section.runSegmentCount,
    ← find?_zipIdx_reverse]
  cases s.bounds.zipIdx.reverse.find? fun x => !x.1.isFull s.version.segmentBits <;> rfl

/-- The iterator over the runs fixes the segments in front of that one. -/
theorem runs?_runs : ∃ it, runs? s = some it ∧ it.Runs s.runs := by
  rw [runs?, bind_eq (runSegmentCount?_eq s)]
  exact fixing?_runs hs s.runSegmentCount

/-- There is one run for every choice of values in front of that segment. -/
theorem runCount?_eq : runCount? s = some s.runCount := by
  have hcut : s.runSegmentCount ≤ s.bounds.length := by
    have hdrop := List.length_dropWhile_le (·.isFull s.version.segmentBits) s.bounds.reverse
    rw [List.length_reverse] at hdrop
    exact Nat.le_trans (Nat.sub_le _ _) hdrop
  rw [runCount?, bind_eq (runSegmentCount?_eq s), bind_eq (upTo?_eq hcut)]
  exact product?_eq fun b hb =>
    boundsCount?_eq (segmentBits_lt s.version) (hs.within b (List.mem_of_mem_take hb))

omit hs in
/-- Every segment that has host bits has a mask for them in the table. -/
theorem hostMasks?_eq (version : Version) (p : Nat) : hostMasks? version p
    = some ((List.range version.segmentCount).map fun index =>
        if version.hostBits p index = 0 then none
          else some (2 ^ version.hostBits p index - 1)) := by
  apply mapM_eq_some
  intro index hindex
  have hcount := segmentCount_le version
  rw [List.mem_range] at hindex
  rw [bind_eq (segmentPrefixLen?_eq (by omega) p)]
  by_cases hhost : version.hostBits p index = 0
  · rw [if_pos hhost, if_pos hhost]
    rfl
  · rw [if_neg hhost, if_neg hhost]
    exact bind_eq (segmentHostMask?_eq (segmentBits_cases version) (Nat.sub_le _ _))

omit hs in
/-- A tuple has no host bits under the masks exactly if no value leaves a remainder. -/
theorem all_zip_hostMasks (version : Version) (p : Nat) {t : Tuple}
    (hlen : t.length = version.segmentCount) :
    ((t.zip ((List.range version.segmentCount).map fun index =>
        if version.hostBits p index = 0 then none else some (2 ^ version.hostBits p index - 1))).all
          fun (d, mask) => mask.all fun m => d &&& m == 0)
      = (t.mapIdx fun index d => d % 2 ^ version.hostBits p index == 0).all id := by
  have hzip : (t.zip ((List.range version.segmentCount).map fun index =>
        if version.hostBits p index = 0 then none else some (2 ^ version.hostBits p index - 1)))
      = t.mapIdx fun index d =>
        (d, if version.hostBits p index = 0 then none
          else some (2 ^ version.hostBits p index - 1)) :=
    List.ext_getElem (by simp [hlen]) fun index _ _ => by simp
  rw [hzip, List.mapIdx_eq_zipIdx_map, List.mapIdx_eq_zipIdx_map, List.all_map, List.all_map]
  congr 1
  funext (d, index)
  show (if version.hostBits p index = 0 then none else some (2 ^ version.hostBits p index - 1)).all
      (fun m => d &&& m == 0) = (d % 2 ^ version.hostBits p index == 0)
  by_cases hhost : version.hostBits p index = 0
  · rw [if_pos hhost, hhost, Nat.pow_zero, Nat.mod_one]
    rfl
  · rw [if_neg hhost, Option.all_some, Nat.and_two_pow_sub_one_eq_mod]

/-- The iterator over the addresses with a host leaves out those that the masks find none in. -/
theorem nonZeroHosts?_runs : ∃ it, nonZeroHosts? s = some it ∧ it.Runs s.nonZeroHosts := by
  rw [nonZeroHosts?, Section.nonZeroHosts]
  rcases hp : s.prefixLen with - | p
  · exact addresses?_runs hs
  · by_cases hle : s.bitCount ≤ p
    · simp only [if_pos hle]
      exact addresses?_runs hs
    · simp only [if_neg hle]
      rw [bind_eq (hostMasks?_eq s.version p)]
      refine iterator?_runs (wheels?_all hs.length_bounds)
        (fits_wheelsAt _ hs.length_bounds (bounds_le_segmentMax hs))
        (fun t ht => all_zip_hostMasks s.version p ?_) fun t ht => ⟨rfl, rfl, hp, ?_⟩
      · exact (ht.trans (length_wheelsAt hs.length_bounds)).trans
          (Section.wheelCount_bitCount s.version)
      · exact wellFormed_ofDigits_of_isNetworkTuple (Section.isNetworkTuple_of_mem_tuples hs ht)
          hs.prefixLen_le

/-- The iterator for a way to walk over a section. -/
def iteratorOf? (s : Section) : Section.Route → Option (Iterator Section)
  | .addresses => addresses? s
  | .fixing count => fixing? s count
  | .prefixBlocks p => prefixBlocks? s p
  | .prefixGroups p => prefixGroups? s p
  | .runs => runs? s
  | .nonZeroHosts => nonZeroHosts? s

/-- **Every iterator over a section runs like the walk.** -/
theorem iteratorOf?_runs (route : Section.Route) :
    ∃ it, iteratorOf? s route = some it ∧ it.Runs (s.walk route) := by
  cases route with
  | addresses => exact addresses?_runs hs
  | fixing count => exact fixing?_runs hs count
  | prefixBlocks p => exact prefixBlocks?_runs hs p
  | prefixGroups p => exact prefixGroups?_runs hs p
  | runs => exact runs?_runs hs
  | nonZeroHosts => exact nonZeroHosts?_runs hs

end Sections

/-! ## Walks over a range -/

namespace Range

/-- The two ends of every segment. -/
def ends? (r : AddressRange) : Option (List Bounds) := do
  return List.zipWith Bounds.mk (← split? r.version r.lower) (← split? r.version r.upper)

/-- An iterator over the addresses that the tuples of a layout stand for. -/
def addressIterator? (r : AddressRange) (layout : Layout) (prefixLen : Option Nat) :
    Option (Iterator Address) := do
  let it ← iterator? r.version (← ends? r) layout .interval prefixLen fun _ => false
  return it.map r.first.wrap

/-- Every address. -/
def addresses? (r : AddressRange) : Option (Iterator Address) :=
  addressIterator? r .values none

/-- The blocks of the given prefix length that hold an address of the range. -/
def prefixBlocks? (r : AddressRange) (p : Nat) : Option (Iterator Address) := do
  addressIterator? r (← Layout.ofPrefixLen? r.version p false) (some (min p r.version.bitCount))

/-- The part of the range that lies in a block. -/
def pieceIn? (r : AddressRange) (block : Address) : Option (Option AddressRange) := do
  inter? (← ofSection? block.body) r

/-- Fetches the next block for its part in the range, and has done so in vain if it has none. -/
def tryPiece? (r : AddressRange) (blocks : Iterator Address) :
    Option (Iterator Address ⊕ Option AddressRange × Iterator Address) := do
  match ← blocks.next? with
  | (none, blocks) => return .inr (none, blocks)
  | (some block, blocks) =>
    match ← pieceIn? r block with
    | some piece => return .inr (some piece, blocks)
    | none => return .inl blocks

/-- The next part of the range that lies in a block. -/
def nextPiece? (r : AddressRange) (blocks : Iterator Address) :
    Option (Option AddressRange × Iterator Address) :=
  loop? (·.odometer.due) (tryPiece? r) blocks

/-- The blocks whose parts in the range run like the walk. -/
def RunsPieces (r : AddressRange) (blocks : Iterator Address) (w : Walk AddressRange) : Prop :=
  ∃ emit : Tuple → Address, blocks.Runs ⟨w.counter, emit⟩ ∧ ∀ t ∈ w.counter.upcoming,
    pieceIn? r (emit t) = some (some (w.emit t))

section Ranges

variable {r : AddressRange}

/-- **The parts of the range come one by one with the blocks**: each block yields the next part at
once. -/
theorem goesOn_pieces (r : AddressRange) :
    GoesOn Iterator.hasNext? (nextPiece? r) (RunsPieces r) where
  hasNext blocks w h := by
    obtain ⟨emit, hruns, hpieces⟩ := h
    obtain ⟨blocks', hask, hruns'⟩ := Iterator.goesOn_runs.hasNext blocks _ hruns
    refine ⟨blocks', hask, emit, hruns', fun t ht => hpieces t ?_⟩
    exact (Counter.upcoming_prime w.counter) ▸ ht
  next blocks w h := by
    obtain ⟨emit, hruns, hpieces⟩ := h
    obtain ⟨blocks', hask, hruns'⟩ := Iterator.goesOn_runs.next blocks _ hruns
    obtain ⟨hhead, htail⟩ := w.counter.next_spec
    refine ⟨blocks', ?_, emit, hruns', fun t ht => ?_⟩
    · apply loop?_last
      rw [tryPiece?, bind_eq hask, nextOf, nextOf]
      dsimp only
      cases hnext : w.counter.next.1 with
      | none => rfl
      | some t =>
          rw [hnext] at hhead
          exact bind_eq (hpieces t (List.mem_of_mem_head? hhead.symm))
    · have ht : t ∈ w.counter.next.2.upcoming := ht
      rw [htail] at ht
      exact hpieces t (List.mem_of_mem_tail ht)

variable (hr : r.WellFormed)

/-- Both ends of a range are cut into segments. -/
theorem ends?_eq (r : AddressRange) : ends? r = some r.ends := by
  rw [ends?, bind_eq (split?_eq _ _), bind_eq (split?_eq _ _)]
  rfl

/-- An iterator over sections is one over addresses. -/
theorem addressIterator?_runs {r : AddressRange} {layout : Layout} {prefixLen : Option Nat}
    {w : Walk Section}
    (h : ∃ it, iterator? r.version r.ends layout .interval prefixLen (fun _ => false) = some it ∧
      it.Runs w) :
    ∃ it, addressIterator? r layout prefixLen = some it ∧ it.Runs (w.map Address.ofSection) := by
  obtain ⟨it, hbuilt, hruns⟩ := h
  rw [addressIterator?, bind_eq (ends?_eq r), bind_eq hbuilt]
  exact ⟨_, rfl, hruns.map _⟩

include hr

/-- The iterator over the addresses of a range stays between its ends. -/
theorem addresses?_runs : ∃ it, addresses? r = some it ∧ it.Runs r.addresses := by
  have hlen := r.length_ends
  have hwf : ∀ t ∈ Counting.interval.tuples (wheelsAt r.version r.version.bitCount r.ends),
      (Section.ofDigits r.version t none).WellFormed := fun t ht =>
    wellFormed_ofDigits_of_isNetworkTuple (AddressRange.networks_of_mem_tuples hr ht).1 (by simp)
  have hruns : ∃ it, iterator? r.version r.ends .values .interval none (fun _ => false) = some it ∧
      it.Runs ⟨{ wheels := wheelsAt r.version r.version.bitCount r.ends, counting := .interval },
        fun t => Section.ofDigits r.version t none⟩ :=
    iterator?_runs (wheels?_all hlen) (fits_wheelsAt _ hlen r.ends_le) (fun _ _ => rfl)
      fun t ht => ⟨rfl, rfl, rfl, hwf t ht⟩
  exact addressIterator?_runs hruns

/-- The iterator over the blocks of a range stays between the networks of its ends. -/
theorem prefixBlocks?_runs (p : Nat) :
    ∃ it, prefixBlocks? r p = some it ∧ it.Runs (r.prefixBlocks p) := by
  have hlen := r.length_ends
  have hp : min p r.version.bitCount ≤ r.version.bitCount := Nat.min_le_right _ _
  rw [prefixBlocks?, bind_eq (ofPrefixLen?_eq r.version p false)]
  refine addressIterator?_runs
    (iterator?_runs (wheels?_eq hlen hp rfl rfl) (fits_wheelsAt _ hlen r.ends_le)
      (fun _ _ => rfl) fun t ht => ?_)
  have htuple := (AddressRange.networks_of_mem_tuples hr ht).1
  exact ⟨segments?_blocks hp htuple hlen, rfl, rfl, wellFormed_blockOf htuple hp⟩

/-- **The blocks of a range have parts in it**, so the search for the next part ends at the next
block. -/
theorem prefixPieces?_runs (p : Nat) :
    ∃ blocks, prefixBlocks? r p = some blocks ∧ RunsPieces r blocks (r.prefixPieces p) := by
  obtain ⟨blocks, hbuilt, hruns⟩ := prefixBlocks?_runs hr p
  refine ⟨blocks, hbuilt, _, hruns, fun t ht => ?_⟩
  have hp : min p r.version.bitCount ≤ r.version.bitCount := Nat.min_le_right _ _
  have ht := Counter.mem_tuples_of_upcoming ht
  have hblock := wellFormed_blockOf (AddressRange.networks_of_mem_tuples hr ht).1 hp
  have hwf := Section.wellFormed_ofSection hblock
  have hmeets := AddressRange.meets_blockOf hr hp ht
  have hinter : (AddressRange.ofSection (blockOf r.version (min p r.version.bitCount) t)).inter? r
      = some ((AddressRange.ofSection (blockOf r.version (min p r.version.bitCount) t)).clip r) :=
    (AddressRange.inter?_eq_some_iff hwf hr).2 ⟨hmeets, rfl⟩
  refine (bind_eq (ofSection?_eq hblock)).trans ?_
  rw [inter?_eq hwf hr, hinter]
  rfl

end Ranges

end Range

end Machine

end IpSpace
