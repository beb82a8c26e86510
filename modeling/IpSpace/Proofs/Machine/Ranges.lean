import IpSpace.Proofs.Coalesce
import IpSpace.Proofs.Machine.Building

/-!
# Ranges on the machine

A range on the machine carries its two ends as addresses, and whoever puts one together asserts that
the ends are in order and within the addresses of the version (`fromValues?`). Every operation on
ranges keeps that (`Range.inter?_eq`, `Range.hull?_eq`, `Range.difference?_eq`,
`Range.coalesce?_eq`): where a number next to an end is asked for, there is an address in front of
it or behind it. Whether one range begins right behind another one is asked with a sum that may not
fit into a word, and then no range does (`Range.touches_eq`).
-/

namespace IpSpace

open AddressRange

namespace Machine

/-- The range from `lower` to `upper`. -/
def fromValues? (version : Version) (lower upper : Nat) : Option AddressRange := do
  assert? (lower ≤ upper ∧ upper ≤ version.maxValue)
  let _ ← ofHost? ⟨version, lower⟩
  let _ ← ofHost? ⟨version, upper⟩
  return ⟨version, lower, upper⟩

/-- **The assertion holds for whatever is a range.** -/
theorem fromValues?_eq {r : AddressRange} (hr : r.WellFormed) :
    fromValues? r.version r.lower r.upper = some r := by
  rw [fromValues?, bind_eq (assert?_eq ⟨hr.lower_le_upper, hr.upper_le_max⟩),
    bind_eq (ofHost?_eq ⟨r.version, r.lower⟩), bind_eq (ofHost?_eq ⟨r.version, r.upper⟩)]
  rfl

/-- The highest address of a range fits into the widest word. -/
theorem upper_lt {r : AddressRange} (hr : r.WellFormed) : r.upper < 2 ^ 128 := by
  have hwidth : 2 ^ r.version.bitCount ≤ 2 ^ 128 :=
    Nat.pow_le_pow_right (by decide) (bitCount_le r.version)
  exact Nat.lt_of_le_of_lt hr.upper_le_max
    (Nat.lt_of_lt_of_le (Bits.two_pow_sub_one_lt (Nat.le_refl _)) hwidth)

/-! ## Building -/

namespace Range

/-- Nothing, or the error of ends that make no range. -/
def checkEnds (version : Version) (lower upper : Nat) : Except AddressError Unit :=
  if version.maxValue < upper then .error (.valueTooLarge version upper)
  else if upper < lower then .error (.rangeOrder lower upper)
  else .ok ()

/-- The range between two numbers. -/
def ofValues? (version : Version) (lower upper : Nat) : Option (Except AddressError AddressRange) :=
  after? (checkEnds version lower upper) fun _ => do return .ok (← fromValues? version lower upper)

/-- The range from the lowest to the highest address of a section. -/
def ofSection? (s : Section) : Option AddressRange := do
  fromValues? s.version (← lowerValue? s) (← upperValue? s)

/-- The smallest range that holds both addresses. -/
def ofAddresses? (a b : Address) : Option (Except AddressError AddressRange) :=
  after? (checkSameVersion a.version b.version) fun _ => do
    let lower := min (← lowerValue? a.body) (← lowerValue? b.body)
    let upper := max (← upperValue? a.body) (← upperValue? b.body)
    return .ok (← fromValues? a.version lower upper)

/-- Two numbers that pass the checks are the ends of a range. -/
theorem ofValues?_eq (version : Version) (lower upper : Nat) :
    ofValues? version lower upper = some (AddressRange.ofValues version lower upper) := by
  have hmap : AddressRange.ofValues version lower upper
      = (checkEnds version lower upper).map fun _ => ⟨version, lower, upper⟩ := by
    rw [AddressRange.ofValues, checkEnds]
    split
    · rfl
    · split <;> rfl
  rw [hmap]
  apply after?_eq_map
  intro _ hcheck
  have hbuilt : AddressRange.ofValues version lower upper = .ok ⟨version, lower, upper⟩ := by
    rw [hmap, hcheck]
    rfl
  rw [bind_eq (fromValues?_eq (wellFormed_of_ofValues hbuilt))]
  rfl

/-- The lowest and the highest address of a section are the ends of a range. -/
theorem ofSection?_eq {s : Section} (hs : s.WellFormed) :
    ofSection? s = some (AddressRange.ofSection s) := by
  rw [ofSection?, bind_eq (lowerValue?_eq hs), bind_eq (upperValue?_eq hs)]
  exact fromValues?_eq (Section.wellFormed_ofSection hs)

/-- The lowest and the highest of two addresses of one version are the ends of a range. -/
theorem ofAddresses?_eq {a b : Address} (ha : a.body.WellFormed) (hb : b.body.WellFormed) :
    ofAddresses? a b = some (AddressRange.ofAddresses a b) := by
  apply after?_eq
  intro _ hcheck
  have hwf := wellFormed_of_ofAddresses ha hb (congrArg (· >>= _) hcheck)
  rw [bind_eq (lowerValue?_eq ha), bind_eq (lowerValue?_eq hb), bind_eq (upperValue?_eq ha),
    bind_eq (upperValue?_eq hb)]
  rw [bind_eq (fromValues?_eq hwf)]
  rfl

/-! ## Interval algebra -/

/-- Number of addresses. -/
def count? (r : AddressRange) : Option Nat := do
  return (← sub? r.upper r.lower) + 1

/-- Whether every address of `a` lies in the range. -/
def containsAddress? (r : AddressRange) (a : Address) : Option Bool :=
  both? (some (a.version == r.version)) <|
    both? (do return decide (r.lower ≤ (← lowerValue? a.body)))
      (do return decide ((← upperValue? a.body) ≤ r.upper))

/-- Whether the two ranges overlap, or one begins right behind the other one. A sum that does not
fit into a word is the lower end of no range. -/
def touches (r other : AddressRange) : Bool :=
  if other.version ≠ r.version then false
  else r.overlaps other || add? 128 r.upper 1 == some other.lower ||
    add? 128 other.upper 1 == some r.lower

/-- The common addresses of two ranges. -/
def inter? (r other : AddressRange) : Option (Option AddressRange) := do
  if !r.overlaps other then return none
  if r.contains other then return some other
  if other.contains r then return some r
  return some (← fromValues? r.version (max r.lower other.lower) (min r.upper other.upper))

/-- The smallest range that holds both. -/
def hull? (r other : AddressRange) : Option (Option AddressRange) := do
  if other.version ≠ r.version then return none
  match compare r.lower other.lower, compare r.upper other.upper with
  | .gt, .lt | .eq, .lt => return some other
  | .lt, .gt | .lt, .eq | .eq, .gt | .eq, .eq => return some r
  | .lt, .lt | .gt, .gt | .gt, .eq =>
    return some (← fromValues? r.version (min r.lower other.lower) (max r.upper other.upper))

/-- The union of two ranges, if it is a range. -/
def union? (r other : AddressRange) : Option (Option AddressRange) :=
  if touches r other then hull? r other else some none

/-- A range, where there is something of it. -/
def piece? (p : Prop) [Decidable p] (built : Option AddressRange) : Option (List AddressRange) :=
  if p then do return [← built] else some []

/-- The addresses that are not in `other`. -/
def difference? (r other : AddressRange) : Option (List AddressRange) :=
  if !r.overlaps other then some [r]
  else do
    let front ← piece? (r.lower < other.lower) do
      fromValues? r.version r.lower (← sub? other.lower 1)
    let behind ← piece? (other.upper < r.upper) do
      fromValues? r.version (← add? 128 other.upper 1) r.upper
    return front ++ behind

section Algebra

variable {r other : AddressRange}

/-- The ends of a range are in order, and the number of its addresses is not bounded by a word. -/
theorem count?_eq (hr : r.WellFormed) : count? r = some r.count := by
  rw [count?, bind_eq (sub?_eq hr.lower_le_upper)]
  rfl

/-- The ends of an address are compared with those of the range. -/
theorem containsAddress?_eq (r : AddressRange) {a : Address} (ha : a.body.WellFormed) :
    containsAddress? r a = some (r.contains (AddressRange.ofSection a.body)) := by
  have hlower : (do return decide (r.lower ≤ (← lowerValue? a.body)))
      = some (decide (r.lower ≤ a.body.lowerValue)) := by
    rw [bind_eq (lowerValue?_eq ha)]
    rfl
  have hupper : (do return decide ((← upperValue? a.body) ≤ r.upper))
      = some (decide (a.body.upperValue ≤ r.upper)) := by
    rw [bind_eq (upperValue?_eq ha)]
    rfl
  rw [containsAddress?, both?_eq rfl (both?_eq hlower hupper), ← Bool.and_assoc]
  rfl

/-- A sum that fits into a word is compared as a number, and another one is past every address. -/
theorem add?_beq {a b : Nat} (hb : b < 2 ^ 128) : (add? 128 a 1 == some b) = (a + 1 == b) := by
  rw [add?]
  split
  case isTrue => rfl
  case isFalse hover =>
    have hne : a + 1 ≠ b := by omega
    rw [beq_eq_false_iff_ne.2 hne]
    rfl

/-- **Whether two ranges touch does not depend on sums that overflow.** -/
theorem touches_eq (hr : r.WellFormed) (ho : other.WellFormed) :
    touches r other = r.touches other := by
  have hrlower := Nat.lt_of_le_of_lt hr.lower_le_upper (upper_lt hr)
  have holower := Nat.lt_of_le_of_lt ho.lower_le_upper (upper_lt ho)
  rw [touches, add?_beq holower, add?_beq hrlower, AddressRange.touches]
  by_cases hversion : other.version = r.version
  · rw [if_neg (not_not_intro hversion), hversion, beq_self_eq_true, Bool.true_and, Bool.or_assoc]
  · have hbeq : (other.version == r.version) = false := beq_eq_false_iff_ne.2 hversion
    rw [if_pos hversion, overlaps, hbeq]
    rfl

/-- The common addresses of two ranges that overlap are a range. -/
theorem inter?_eq (hr : r.WellFormed) (ho : other.WellFormed) :
    inter? r other = some (r.inter? other) := by
  rw [inter?, AddressRange.inter?]
  cases hover : r.overlaps other
  · rfl
  · cases r.contains other
    · cases other.contains r
      · have hwf := wellFormed_clip hr ((overlaps_iff hr ho).1 hover)
        exact bind_eq (fromValues?_eq hwf)
      · rfl
    · rfl

/-- The hull of two ranges of one version is a range. -/
theorem hull?_eq (hr : r.WellFormed) (ho : other.WellFormed) :
    hull? r other = some (r.hull? other) := by
  by_cases hversion : other.version = r.version
  · have hwf :
        AddressRange.WellFormed ⟨r.version, min r.lower other.lower, max r.upper other.upper⟩ :=
      wellFormed_of_hull? hr ho (by rw [AddressRange.hull?_eq, if_pos hversion])
    rw [hull?, if_neg (not_not_intro hversion), AddressRange.hull?, if_pos hversion]
    have hbuilt := fromValues?_eq hwf
    -- A range is built unless one of the two holds the other.
    cases compare r.lower other.lower <;> cases compare r.upper other.upper
    case lt.lt => exact bind_eq hbuilt
    case gt.eq => exact bind_eq hbuilt
    case gt.gt => exact bind_eq hbuilt
    case lt.eq | lt.gt | eq.lt | eq.eq | eq.gt | gt.lt => rfl
  · rw [hull?, if_pos hversion, AddressRange.hull?, if_neg hversion]
    rfl

/-- The union of two ranges that touch is their hull. -/
theorem union?_eq (hr : r.WellFormed) (ho : other.WellFormed) :
    union? r other = some (r.union? other) := by
  rw [union?, touches_eq hr ho, AddressRange.union?, hull?_eq hr ho]
  split <;> rfl

/-- A range has to be there only where something is left. -/
theorem piece?_eq {p : Prop} [Decidable p] {built : Option AddressRange} {t : AddressRange}
    (h : p → built = some t) : piece? p built = some (if p then [t] else []) := by
  rw [piece?]
  split
  case isTrue hp => exact bind_eq (h hp)
  case isFalse => rfl

/-- **The difference of two ranges never stops**: where something is left in front of the other
range or behind it, there is an address next to it. -/
theorem difference?_eq (hr : r.WellFormed) : difference? r other = some (r.difference other) := by
  rw [difference?, AddressRange.difference]
  by_cases hover : r.overlaps other = true
  · have hwf := fun t (ht : t ∈ r.difference other) => wellFormed_of_mem_difference hr ht
    simp only [mem_difference_iff hover] at hwf
    -- In front of the other range there is an address of this one, so no difference is below zero.
    have hfront :
        piece? (r.lower < other.lower) (do fromValues? r.version r.lower (← sub? other.lower 1))
          = some (if r.lower < other.lower then [⟨r.version, r.lower, other.lower - 1⟩] else []) :=
      piece?_eq fun hlt => by
        rw [bind_eq (sub?_eq (by omega))]
        exact fromValues?_eq (hwf _ (Or.inl ⟨hlt, rfl⟩))
    -- Behind it there is one as well, so the sum is an address.
    have hbehind : piece? (other.upper < r.upper)
          (do fromValues? r.version (← add? 128 other.upper 1) r.upper)
        = some (if other.upper < r.upper then [⟨r.version, other.upper + 1, r.upper⟩] else []) :=
      piece?_eq fun hlt => by
        rw [bind_eq (add?_eq (Nat.lt_of_le_of_lt hlt (upper_lt hr)))]
        exact fromValues?_eq (hwf _ (Or.inr ⟨hlt, rfl⟩))
    rw [hover, if_pos rfl]
    exact (bind_eq hfront).trans (bind_eq hbehind)
  · rw [Bool.not_eq_true] at hover
    rw [hover]
    rfl

end Algebra

/-! ## Coalescing -/

/-- Joins a range with the last of those before it if it touches that one, and puts it behind them
otherwise. -/
def joinLast? (joined : List AddressRange) (r : AddressRange) : Option (List AddressRange) :=
  match joined.getLast? with
  | none => some (joined ++ [r])
  | some last =>
    if touches last r then
      if last.upper < r.upper then do
        return joined.dropLast ++ [← fromValues? last.version last.lower r.upper]
      else some joined
    else some (joined ++ [r])

/-- The fewest ranges with the same addresses. -/
def coalesce? (ranges : List AddressRange) : Option (List AddressRange) :=
  (ranges.mergeSort fun a b => (compare a b).isLE).foldlM joinLast? []

section Coalescing

variable {current r : AddressRange}

/-- What touches a range makes a longer one with it. -/
theorem wellFormed_absorb (hc : current.WellFormed) (hr : r.WellFormed)
    (htouch : current.touches r = true) :
    AddressRange.WellFormed { current with upper := max current.upper r.upper } := by
  have hversion := ((touches_iff hc.lower_le_upper hr.lower_le_upper).1 htouch).1
  refine ⟨Nat.le_trans hc.lower_le_upper (Nat.le_max_left _ _), Nat.max_le.2 ⟨hc.upper_le_max, ?_⟩⟩
  show r.upper ≤ current.version.maxValue
  rw [← hversion]
  exact hr.upper_le_max

/-- One round of the loop joins the next range with the last one if they touch. -/
theorem joinLast?_eq (done : List AddressRange) (hc : current.WellFormed) (hr : r.WellFormed) :
    joinLast? (done ++ [current]) r = some (done ++ if current.touches r then
      [{ current with upper := max current.upper r.upper }] else [current, r]) := by
  rw [joinLast?, List.getLast?_concat, List.dropLast_concat]
  dsimp only
  rw [touches_eq hc hr]
  by_cases htouch : current.touches r = true
  · rw [if_pos htouch, if_pos htouch]
    have hwf := fromValues?_eq (wellFormed_absorb hc hr htouch)
    by_cases hupper : current.upper < r.upper
    · rw [Nat.max_eq_right (Nat.le_of_lt hupper)] at hwf ⊢
      rw [if_pos hupper]
      exact bind_eq hwf
    · -- The next range ends within the last one, which stays as it is.
      rw [if_neg hupper, Nat.max_eq_left (by omega)]
  · rw [if_neg htouch, if_neg htouch, List.append_assoc]
    rfl

/-- **The loop over the sorted ranges sweeps them.** -/
theorem foldlM_joinLast? {rest : List AddressRange} (done : List AddressRange)
    (hc : current.WellFormed) (hrest : ∀ r ∈ rest, r.WellFormed) :
    rest.foldlM joinLast? (done ++ [current]) = some (done ++ sweep current rest) := by
  induction rest generalizing done current with
  | nil => rfl
  | cons r rest ih =>
      obtain ⟨hr, hrest⟩ := List.forall_mem_cons.1 hrest
      rw [List.foldlM_cons, bind_eq (joinLast?_eq done hc hr), sweep]
      by_cases htouch : current.touches r = true
      · rw [if_pos htouch, if_pos htouch]
        exact ih done (wellFormed_absorb hc hr htouch) hrest
      · rw [if_neg htouch, if_neg htouch]
        have hbehind := ih (done ++ [current]) hr hrest
        rw [List.append_assoc, List.append_assoc] at hbehind
        exact hbehind

/-- **Coalescing never stops.** -/
theorem coalesce?_eq {ranges : List AddressRange} (h : ∀ r ∈ ranges, r.WellFormed) :
    coalesce? ranges = some (coalesce ranges) := by
  have hsorted : ∀ r ∈ ranges.mergeSort (fun a b => (compare a b).isLE), r.WellFormed :=
    fun r hr => h r (List.mem_mergeSort.1 hr)
  rw [coalesce?, coalesce]
  revert hsorted
  rcases ranges.mergeSort (fun a b => (compare a b).isLE) with - | ⟨r, rest⟩
  · exact fun _ => rfl
  · intro hsorted
    obtain ⟨hr, hrest⟩ := List.forall_mem_cons.1 hsorted
    exact foldlM_joinLast? [] hr hrest

end Coalescing

/-! ## Keys and text -/

/-- The flat form of a range. -/
def toKey? (r : AddressRange) : Option RangeKey := do
  let lower ← split? r.version r.lower
  let upper ← split? r.version r.upper
  return ⟨r.version, padKey 0 (lower.map (truncate 16)), padKey 0 (upper.map (truncate 16))⟩

/-- The address value of one end of a key. -/
def ofKeyEnd? (version : Version) (segments : List Nat) : Option (Except AddressError Nat) := do
  let used ← upTo? segments version.segmentCount
  match used.find? (version.segmentMax < ·) with
  | some value => return .error (.keySegment version value)
  | none => return .ok (← join? version used)

/-- The range with the given flat form. -/
def ofKey? (key : RangeKey) : Option (Except AddressError AddressRange) :=
  after? (checkPadding key.version key.lower) fun _ =>
    after? (checkPadding key.version key.upper) fun _ => do
      after? (← ofKeyEnd? key.version key.lower) fun lower => do
        after? (← ofKeyEnd? key.version key.upper) fun upper => ofValues? key.version lower upper

/-- The text of an address. The zone stands in front of the prefix length. -/
def addressChars? (a : Address) : Option (List Char) := do
  let base ← baseChars? a.body
  match a.zone with
  | some zone => return base ++ '%' :: zone.toList ++ a.body.prefixChars
  | none => return base ++ a.body.prefixChars

/-- The text of a range: its two ends. -/
def text? (r : AddressRange) : Option String := do
  return String.ofList ((← addressChars? r.first) ++ " -> ".toList ++ (← addressChars? r.last))

/-- No segment of an end is cut off in the flat form. -/
theorem toKey?_eq (r : AddressRange) : toKey? r = some r.toKey := by
  have hwhole : ∀ x, (r.version.split x).map (truncate 16) = r.version.split x := by
    intro x
    refine (List.map_congr_left fun d hd => ?_).trans (List.map_id _)
    have hmax := Version.le_segmentMax_iff.2 (r.version.fit_split x d hd)
    exact truncate_eq (Nat.lt_of_le_of_lt hmax r.version.segmentMax_lt)
  rw [toKey?, bind_eq (split?_eq _ _), bind_eq (split?_eq _ _), hwhole, hwhole]
  rfl

/-- The eight slots of an end are enough for the segments of either version. -/
theorem ofKeyEnd?_eq {version : Version} {segments : List Nat}
    (hlen : segments.length = keySegmentCount) (hlt : ∀ d ∈ segments, d < 2 ^ 16) :
    ofKeyEnd? version segments = some (ofKeyEnd version segments) := by
  have hcut : version.segmentCount ≤ segments.length := by
    rw [hlen]
    exact version.segmentCount_le
  have hjoin : join? version (segments.take version.segmentCount)
      = some (version.join (segments.take version.segmentCount)) :=
    join?_eq fun d hd => Nat.lt_trans (hlt d (List.mem_of_mem_take hd)) (by decide)
  rw [ofKeyEnd?, bind_eq (upTo?_eq hcut), ofKeyEnd]
  cases (segments.take version.segmentCount).find? (version.segmentMax < ·) with
  | none => exact bind_eq hjoin
  | some value => rfl

/-- A flat form is read end by end, and the ends are checked last. -/
theorem ofKey?_eq {key : RangeKey} (hkey : key.InLayout) :
    ofKey? key = some (AddressRange.ofKey key) := by
  apply after?_eq
  intro _ _
  apply after?_eq
  intro _ _
  rw [bind_eq (ofKeyEnd?_eq hkey.length_lower hkey.lower_lt)]
  apply after?_eq
  intro lower _
  rw [bind_eq (ofKeyEnd?_eq hkey.length_upper hkey.upper_lt)]
  apply after?_eq
  intro upper _
  exact ofValues?_eq key.version lower upper

/-- The text of an address is that of its section with the zone in it. -/
theorem addressChars?_eq {a : Address} (ha : a.body.WellFormed) :
    addressChars? a = some a.chars := by
  rw [addressChars?, bind_eq (baseChars?_eq ha), Address.chars]
  cases a.zone with
  | none => rfl
  | some zone => rfl

/-- Both ends of a range can be written down. -/
theorem text?_eq (r : AddressRange) : text? r = some r.text := by
  have hfirst : addressChars? r.first = some r.first.chars :=
    addressChars?_eq (Section.wellFormed_ofHost _)
  have hlast : addressChars? r.last = some r.last.chars :=
    addressChars?_eq (Section.wellFormed_ofHost _)
  rw [text?, bind_eq hfirst, bind_eq hlast]
  rfl

end Range

end Machine

end IpSpace
