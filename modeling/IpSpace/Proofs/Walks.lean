import IpSpace.Proofs.Building
import IpSpace.Proofs.Counter
import IpSpace.Proofs.NetworkTuples

/-!
# The items of a walk

A walk is asked whether there is a next item, or for some items, any number of times and in any
order. However it is asked, it hands out what the tuples of its counter stand for, in their order
(`Walk.handsOut_upcoming`), so a property of all items is one of what its tuples stand for.

All walks count networks. Those over a section count them as a product, so the block of a tuple
meets the section in every segment, and what they have in common is a section. Those over a range
count through an interval from the networks of its lowest to those of its highest address, so the
block of a tuple begins no later than the range ends and ends no earlier than the range begins: what
is cut out of the range is a range.
-/

namespace IpSpace

/-! ## Asking a walk -/

/-- The next `n` tuples are the first of those to come, and they leave the others. -/
theorem Counter.take_spec (c : Counter) (n : Nat) :
    (c.take n).1 = c.upcoming.take n ∧ (c.take n).2.upcoming = c.upcoming.drop n := by
  induction n generalizing c with
  | zero => exact ⟨rfl, rfl⟩
  | succ n ih =>
      obtain ⟨hnext, hrest⟩ := c.next_spec
      unfold take
      cases hupcoming : c.upcoming with
      | nil =>
          rw [hupcoming] at hnext hrest
          split
          · rename_i t c' heq
            rw [heq] at hnext
            cases hnext
          · rename_i c' heq
            rw [heq] at hrest
            exact ⟨rfl, hrest⟩
      | cons t ts =>
          rw [hupcoming] at hnext hrest
          split
          · rename_i t' c' heq
            rw [heq] at hnext hrest
            obtain ⟨htake, hdrop⟩ := ih c'
            cases hnext
            have hrest : c'.upcoming = ts := hrest
            exact ⟨by simp [htake, hrest], by simp [hdrop, hrest]⟩
          · rename_i c' heq
            rw [heq] at hnext
            cases hnext

namespace Walk

variable {α : Type}

/-- What a walk can be asked. -/
inductive Call where
  | hasNext
  | take (n : Nat)

/-- The items that a walk hands out when it is asked one thing after another. -/
def handedOut (w : Walk α) : List Call → List α
  | [] => []
  | .hasNext :: calls => w.hasNext.2.handedOut calls
  | .take n :: calls => (w.take n).1 ++ (w.take n).2.handedOut calls

/-- How many items are asked for altogether. -/
def asked : List Call → Nat
  | [] => 0
  | .hasNext :: calls => asked calls
  | .take n :: calls => n + asked calls

/-- However it is asked, the walk hands out as many items of the list as are asked for, from the
first one on, and after the last one nothing more. -/
def HandsOut (w : Walk α) (items : List α) : Prop :=
  ∀ calls, w.handedOut calls = items.take (asked calls)

/-- **A walk hands out what the tuples to come stand for.** Asking whether there is a next item
leaves them as they are, and asking for items takes them off from the front. -/
theorem handsOut_upcoming (w : Walk α) : w.HandsOut (w.counter.upcoming.map w.emit) := by
  intro calls
  induction calls generalizing w with
  | nil => rfl
  | cons call calls ih =>
      cases call with
      | hasNext =>
          have hprime : w.hasNext.2.counter.upcoming = w.counter.upcoming :=
            Counter.upcoming_prime _
          have hrest := ih w.hasNext.2
          rw [hprime] at hrest
          exact hrest
      | take n =>
          obtain ⟨htake, hdrop⟩ := w.counter.take_spec n
          have hitems : (w.take n).1 = (w.counter.upcoming.map w.emit).take n := by
            rw [← List.map_take, ← htake]
            rfl
          have hleft : (w.take n).2.counter.upcoming = w.counter.upcoming.drop n := hdrop
          have hrest := ih (w.take n).2
          rw [hleft, List.map_drop] at hrest
          rw [handedOut, hitems, hrest, asked, List.take_add]
          rfl

/-- Every item that a walk hands out stands for a tuple that was to come. -/
theorem mem_handedOut {w : Walk α} {calls : List Call} {a : α} (ha : a ∈ w.handedOut calls) :
    ∃ t ∈ w.counter.upcoming, w.emit t = a := by
  rw [w.handsOut_upcoming calls] at ha
  exact List.mem_map.1 (List.mem_of_mem_take ha)

end Walk

/-- What a fresh counter has to hand out are tuples of its wheels. -/
theorem Counter.mem_tuples_of_upcoming {wheels : List Wheel} {counting : Counting}
    {rejects : Tuple → Bool} {t : Tuple}
    (ht : t ∈ Counter.upcoming { wheels, counting, rejects }) : t ∈ counting.tuples wheels :=
  List.mem_of_mem_filter ht

/-- With a fresh counter, a walk hands out what the tuples of its wheels stand for, less those that
are rejected. -/
theorem Walk.handsOut_rejecting {α : Type} (wheels : List Wheel) (counting : Counting)
    (rejects : Tuple → Bool) (emit : Tuple → α) :
    Walk.HandsOut ⟨{ wheels, counting, rejects }, emit⟩
      (((counting.tuples wheels).filter fun t => !rejects t).map emit) :=
  Walk.handsOut_upcoming _

/-- With a fresh counter that rejects nothing, a walk hands out what the tuples of its wheels stand
for. -/
theorem Walk.handsOut_fresh {α : Type} (wheels : List Wheel) (counting : Counting)
    (emit : Tuple → α) :
    Walk.HandsOut ⟨{ wheels, counting }, emit⟩ ((counting.tuples wheels).map emit) := by
  have hwalk := Walk.handsOut_rejecting wheels counting (fun _ => false) emit
  have hall : (counting.tuples wheels).filter (fun _ => !false) = counting.tuples wheels :=
    List.filter_eq_self.2 fun _ _ => rfl
  rw [hall] at hwalk
  exact hwalk

/-! ## Walks over a section -/

/-- A network of the values of a range overlaps the range. -/
theorem Bounds.overlaps_ofNetwork {b : Bounds} {n h : Nat} (hlower : b.lower / 2 ^ h ≤ n)
    (hupper : n ≤ b.upper / 2 ^ h) : (ofNetwork n h).overlaps b = true := by
  have hpos := Nat.two_pow_pos h
  have hnext : b.lower < (n + 1) * 2 ^ h :=
    (Nat.div_lt_iff_lt_mul hpos).1 (Nat.lt_succ_of_le hlower)
  rw [Nat.succ_mul] at hnext
  rw [overlaps_iff]
  constructor
  · show b.lower ≤ n * 2 ^ h + (2 ^ h - 1)
    omega
  · exact (Nat.le_div_iff_mul_le hpos).1 hupper

namespace Section

variable {s : Section} {p : Nat} {t : Tuple}

/-- The wheels of a section do not have their lower ends past their upper ends. -/
theorem lower_le_upper_of_mem_wheelsAt (hs : s.WellFormed) :
    ∀ w ∈ wheelsAt s.version p s.bounds, w.lower ≤ w.upper := by
  intro w hw
  obtain ⟨index, h, rfl⟩ := List.getElem_of_mem hw
  have hb := lt_length_of_wheelsAt h
  rw [getElem_wheelsAt h hb]
  exact Nat.div_le_div_right (hs.lower_le_upper _ (List.getElem_mem hb))

/-- A tuple of a section has a network of every segment that has a wheel. -/
theorem network_mem_of_mem_tuples (hs : s.WellFormed)
    (ht : t ∈ Counting.product.tuples (wheelsAt s.version p s.bounds)) :
    List.Forall₂ (fun w d => w.lower ≤ d ∧ d ≤ w.upper) (wheelsAt s.version p s.bounds) t :=
  (Counting.mem_tuples_product (lower_le_upper_of_mem_wheelsAt hs)).1 ht

theorem isNetworkTuple_of_mem_tuples (hs : s.WellFormed)
    (ht : t ∈ Counting.product.tuples (wheelsAt s.version p s.bounds)) :
    IsNetworkTuple s.version p t := by
  have hin : ∀ w ∈ wheelsAt s.version p s.bounds, Counting.InRange w :=
    inRange_of_mem_wheelsAt fun b hb =>
      ⟨Nat.le_trans (hs.lower_le_upper b hb) (hs.upper_le_max b hb), hs.upper_le_max b hb⟩
  refine isNetworkTuple_of_le_max hs.length_bounds ?_
  refine List.forall₂_iff_zip.2 ⟨(network_mem_of_mem_tuples hs ht).length_eq, fun hmem => ?_⟩
  have hle := (List.forall₂_iff_zip.1 (network_mem_of_mem_tuples hs ht)).2 hmem
  exact Nat.le_trans hle.2 (hin _ (List.of_mem_zip hmem).1).2

/-- The block of a tuple of a section meets the section in every segment. -/
theorem meet_blockOf (hs : s.WellFormed)
    (ht : t ∈ Counting.product.tuples (wheelsAt s.version p s.bounds)) :
    Meet (blockOf s.version p t).bounds s.bounds := by
  have htuple := isNetworkTuple_of_mem_tuples hs ht
  have hnetwork := network_mem_of_mem_tuples hs ht
  have hlen : (blockOf s.version p t).bounds.length = s.bounds.length := by
    rw [blockOf_bounds, length_tupleBox htuple.length_le, hs.length_bounds]
  refine List.forall₂_iff_get.2 ⟨hlen, fun index hblock hb => ?_⟩
  simp only [List.get_eq_getElem, blockOf_bounds, tupleBox, List.getElem_append, length_networkBox]
  split
  · rename_i hindex
    have hw : index < (wheelsAt s.version p s.bounds).length := hnetwork.length_eq ▸ hindex
    have hmem := hnetwork.get hw hindex
    rw [List.get_eq_getElem, List.get_eq_getElem, getElem_wheelsAt hw hb] at hmem
    simp only [networkBox, List.getElem_mapIdx]
    exact Bounds.overlaps_ofNetwork hmem.1 hmem.2
  · -- Behind the wheels, the block takes all values.
    have hwithin := hs.within _ (List.getElem_mem hb)
    rw [List.getElem_replicate]
    exact Bounds.overlaps_of_mem (Bounds.mem_full.2 hwithin.upper_lt) hwithin.upper_mem

theorem wellFormed_of_fixing (hs : s.WellFormed) {count : Nat}
    (ht : t ∈ (s.fixing count).counter.upcoming) : ((s.fixing count).emit t).WellFormed :=
  wellFormed_fixed hs ((mem_tuples_fixing hs).1 (Counter.mem_tuples_of_upcoming ht))

theorem wellFormed_of_addresses (hs : s.WellFormed) (ht : t ∈ s.addresses.counter.upcoming) :
    (s.addresses.emit t).WellFormed :=
  wellFormed_ofDigits_of_isNetworkTuple
    (isNetworkTuple_of_mem_tuples hs (Counter.mem_tuples_of_upcoming ht)) hs.prefixLen_le

theorem wellFormed_of_prefixBlocks (hs : s.WellFormed)
    (ht : t ∈ (s.prefixBlocks p).counter.upcoming) : ((s.prefixBlocks p).emit t).WellFormed :=
  wellFormed_blockOf (isNetworkTuple_of_mem_tuples hs (Counter.mem_tuples_of_upcoming ht))
    (Nat.min_le_right _ _)

/-- A group is what the block of its prefix has in common with the section. -/
theorem wellFormed_of_prefixGroups (hs : s.WellFormed)
    (ht : t ∈ (s.prefixGroups p).counter.upcoming) : ((s.prefixGroups p).emit t).WellFormed := by
  have ht := Counter.mem_tuples_of_upcoming ht
  have hblock := wellFormed_blockOf (isNetworkTuple_of_mem_tuples hs ht) (Nat.min_le_right _ _)
  have hoverlap := (overlaps_iff_meet hblock hs).2 ⟨rfl, meet_blockOf hs ht⟩
  exact wellFormed_withPrefixLen (wellFormed_common hblock hs hoverlap) hblock.prefixLen_le

theorem wellFormed_of_nonZeroHosts (hs : s.WellFormed)
    (ht : t ∈ s.nonZeroHosts.counter.upcoming) : (s.nonZeroHosts.emit t).WellFormed := by
  revert ht
  unfold nonZeroHosts
  split
  · exact wellFormed_of_addresses hs
  · split
    · exact wellFormed_of_addresses hs
    · -- Leaving out addresses leaves addresses.
      intro ht
      exact wellFormed_ofDigits_of_isNetworkTuple
        (isNetworkTuple_of_mem_tuples hs (Counter.mem_tuples_of_upcoming ht)) hs.prefixLen_le

/-- The ways to walk over a section. -/
inductive Route where
  | addresses
  | fixing (count : Nat)
  | prefixBlocks (prefixLen : Nat)
  | prefixGroups (prefixLen : Nat)
  | runs
  | nonZeroHosts

/-- The walk that takes a given way. -/
def walk (s : Section) : Route → Walk Section
  | .addresses => s.addresses
  | .fixing count => s.fixing count
  | .prefixBlocks prefixLen => s.prefixBlocks prefixLen
  | .prefixGroups prefixLen => s.prefixGroups prefixLen
  | .runs => s.runs
  | .nonZeroHosts => s.nonZeroHosts

/-- **The items of every walk over a section are sections.** -/
theorem wellFormed_of_mem_walk (hs : s.WellFormed) {route : Route} {calls : List Walk.Call}
    {item : Section} (h : item ∈ (s.walk route).handedOut calls) : item.WellFormed := by
  obtain ⟨t, ht, rfl⟩ := Walk.mem_handedOut h
  cases route with
  | addresses => exact wellFormed_of_addresses hs ht
  | fixing count => exact wellFormed_of_fixing hs ht
  | prefixBlocks prefixLen => exact wellFormed_of_prefixBlocks hs ht
  | prefixGroups prefixLen => exact wellFormed_of_prefixGroups hs ht
  | runs => exact wellFormed_of_fixing hs ht
  | nonZeroHosts => exact wellFormed_of_nonZeroHosts hs ht

end Section

/-- The items of a changed walk are the changed items. -/
theorem Walk.handedOut_map {α β : Type} (f : α → β) (w : Walk α) (calls : List Call) :
    (w.map f).handedOut calls = (w.handedOut calls).map f := by
  induction calls generalizing w with
  | nil => rfl
  | cons call calls ih =>
      cases call with
      | hasNext => exact ih w.hasNext.2
      | take n =>
          have htake : ((w.map f).take n).1 = (w.take n).1.map f := by
            simp [take, Walk.map]
          rw [handedOut, handedOut, List.map_append, htake]
          exact congrArg ((w.take n).1.map f ++ ·) (ih (w.take n).2)

theorem Walk.HandsOut.map {α β : Type} {w : Walk α} {items : List α} (h : w.HandsOut items)
    (f : α → β) : (w.map f).HandsOut (items.map f) := by
  intro calls
  rw [handedOut_map, h calls, List.map_take]

/-! ## Walks over a range -/

namespace AddressRange

variable {r : AddressRange} {p : Nat} {t : Tuple} {calls : List Walk.Call}

theorem length_ends (r : AddressRange) : r.ends.length = r.version.segmentCount := by
  simp [ends]

/-- The ends of every segment are values of the segment. -/
theorem ends_le (r : AddressRange) :
    ∀ b ∈ r.ends, b.lower ≤ r.version.segmentMax ∧ b.upper ≤ r.version.segmentMax := by
  intro b hb
  obtain ⟨index, h, rfl⟩ := List.getElem_of_mem hb
  have hfit := fun x d => r.version.fit_split x d
  simp only [ends, List.getElem_zipWith, Version.le_segmentMax_iff]
  exact ⟨hfit _ _ (List.getElem_mem _), hfit _ _ (List.getElem_mem _)⟩

/-- The wheels of a range begin with the networks of its lowest and end with those of its highest
address. -/
theorem wheelsAt_ends (r : AddressRange) (p : Nat) :
    (wheelsAt r.version p r.ends).map (·.lower) = r.version.networks p r.lower ∧
      (wheelsAt r.version p r.ends).map (·.upper) = r.version.networks p r.upper := by
  unfold Version.networks
  constructor
  · refine List.ext_getElem (by simp [wheelsAt, networkDigits, ends]) fun index h _ => ?_
    simp [wheelsAt, networkDigits, ends, Bounds.networks, Version.hostBits]
  · refine List.ext_getElem (by simp [wheelsAt, networkDigits, ends]) fun index h _ => ?_
    simp [wheelsAt, networkDigits, ends, Bounds.networks, Version.hostBits]

/-- A range of addresses by its digits. -/
theorem value_split_ends (hr : r.WellFormed) :
    Digits.value r.version.segmentBits (r.version.split r.lower) = r.lower ∧
      Digits.value r.version.segmentBits (r.version.split r.upper) = r.upper := by
  have hlower := Version.le_maxValue_iff.1 (Nat.le_trans hr.lower_le_upper hr.upper_le_max)
  have hupper := Version.le_maxValue_iff.1 hr.upper_le_max
  exact ⟨Digits.value_split hlower, Digits.value_split hupper⟩

/-- The wheels of a range begin no later than they end. -/
theorem wheels_le (hr : r.WellFormed) (p : Nat) :
    (wheelsAt r.version p r.ends).map (·.lower) ≤ (wheelsAt r.version p r.ends).map (·.upper) := by
  obtain ⟨hlower, hupper⟩ := r.wheelsAt_ends p
  rw [hlower, hupper]
  exact Version.networks_le hr.upper_le_max hr.lower_le_upper

/-- The tuples of a range are those between the networks of its lowest and of its highest
address. -/
theorem networks_of_mem_tuples (hr : r.WellFormed)
    (ht : t ∈ Counting.interval.tuples (wheelsAt r.version p r.ends)) :
    IsNetworkTuple r.version p t ∧
      (networkDigits r.version.segmentBits p (r.version.split r.lower)).take t.length ≤ t ∧
      t ≤ (networkDigits r.version.segmentBits p (r.version.split r.upper)).take t.length := by
  obtain ⟨hlower, hupper⟩ := r.wheelsAt_ends p
  rw [Counting.mem_tuples_interval (inRange_of_mem_wheelsAt r.ends_le) (wheels_le hr p), hlower,
    hupper] at ht
  obtain ⟨hmax, hbetween⟩ := ht
  have htuple := isNetworkTuple_of_le_max r.length_ends hmax
  rw [Version.networks, Version.networks, ← htuple.length_eq] at hbetween
  exact ⟨htuple, hbetween⟩

theorem wellFormed_of_mem_addresses (hr : r.WellFormed) {a : Address}
    (h : a ∈ r.addresses.handedOut calls) : a.body.WellFormed := by
  obtain ⟨t, ht, rfl⟩ := Walk.mem_handedOut h
  have htuple := (networks_of_mem_tuples hr (Counter.mem_tuples_of_upcoming ht)).1
  exact wellFormed_ofDigits_of_isNetworkTuple htuple (by simp)

theorem wellFormed_of_mem_prefixBlocks (hr : r.WellFormed) {a : Address}
    (h : a ∈ (r.prefixBlocks p).handedOut calls) : a.body.WellFormed := by
  obtain ⟨t, ht, rfl⟩ := Walk.mem_handedOut h
  have htuple := (networks_of_mem_tuples hr (Counter.mem_tuples_of_upcoming ht)).1
  exact wellFormed_blockOf htuple (Nat.min_le_right _ _)

/-- The block of a tuple of a range meets the range. -/
theorem meets_blockOf (hr : r.WellFormed) (hp : p ≤ r.version.bitCount)
    (ht : t ∈ Counting.interval.tuples (wheelsAt r.version p r.ends)) :
    (ofSection (blockOf r.version p t)).Meets r := by
  obtain ⟨htuple, hlower, hupper⟩ := networks_of_mem_tuples hr ht
  obtain ⟨hvalueLower, hvalueUpper⟩ := value_split_ends hr
  have hblock := wellFormed_blockOf htuple hp
  have hlen : ∀ x, t.length ≤ (r.version.split x).length := by
    intro x
    rw [Version.length_split]
    exact htuple.length_le
  have hbegin := boxLower_le_value htuple.within (hlen _) hupper
  have hend := value_le_boxUpper (r.version.fit_split _) (hlen _) hlower
  rw [Version.length_split, ← blockOf_bounds, hvalueUpper] at hbegin
  rw [Version.length_split, ← blockOf_bounds, hvalueLower] at hend
  refine (overlaps_iff (Section.wellFormed_ofSection hblock) hr).1 ?_
  have hversion : (blockOf r.version p t).version = r.version := rfl
  simp only [overlaps, ofSection, Section.lowerValue_eq hblock, Section.upperValue_eq hblock,
    hversion, beq_self_eq_true, Bool.true_and, Bool.and_eq_true, decide_eq_true_eq]
  exact ⟨hbegin, hend⟩

/-- What is cut out of a range along the boundaries of networks is a range. -/
theorem wellFormed_of_mem_prefixPieces (hr : r.WellFormed) {piece : AddressRange}
    (h : piece ∈ (r.prefixPieces p).handedOut calls) : piece.WellFormed := by
  obtain ⟨t, ht, rfl⟩ := Walk.mem_handedOut h
  have ht := Counter.mem_tuples_of_upcoming ht
  have hp : min p r.version.bitCount ≤ r.version.bitCount := Nat.min_le_right _ _
  have hblock := wellFormed_blockOf (networks_of_mem_tuples hr ht).1 hp
  exact wellFormed_clip (Section.wellFormed_ofSection hblock) (meets_blockOf hr hp ht)

end AddressRange

end IpSpace
