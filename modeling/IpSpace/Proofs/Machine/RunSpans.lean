import IpSpace.Proofs.SequentialSpans
import IpSpace.Proofs.Machine.Sections

/-!
# Sequential sections of a range on the machine

The machine looks for the first segment in which the two ends of a range differ. It splits what
completes the lower end and what leads up to the upper end in the same way, each with its own two
ends, and puts the whole values of that segment between them. Every descent looks at whole addresses
again, and the first segment in which the ends differ lies further behind, so the descents are never
deeper than there are segments (`runsBetween?_eq`). A descent that is deeper would stop the machine.

The library goes through the segments from the front, and leaves those behind that agree. So what a
descent yields is the splitting of the segments from the first difference on, with all segments in
front of it fixed.
-/

namespace IpSpace

open Digits

namespace Machine

/-! ## Splitting at a segment -/

/-- The section that fixes the segments in front of one, gives that one a range and all others any
value. -/
def runAt? (version : Version) (digits : List Nat) (index : Nat) (b : Bounds) : Option Section := do
  let front ← upTo? digits index
  let rest ← sub? (← sub? digits.length index) 1
  fromBounds? version (front.map Bounds.single ++ b :: List.replicate rest ⟨0, version.segmentMax⟩)
    none

/-- The ends of a part: a tuple, and the one with the given value in all segments behind one. -/
def fillBehind? (digits : List Nat) (index value : Nat) : Option (List Nat) := do
  let behind ← add? 64 index 1
  return (← upTo? digits behind) ++ (← from? digits behind).map fun _ => value

/-- What completes the lower end, if the segments behind the given one are not all zero, and the
first value that the segment takes in the middle. -/
def completeLower? (split? : List Nat → List Nat → Option (List Section)) (max : Nat)
    (lower : List Nat) (index : Nat) : Option (List Section × Nat) := do
  let d ← lower[index]?
  let behind ← from? lower (← add? 64 index 1)
  if behind.all (· == 0) then return ([], d)
  return (← split? lower (← fillBehind? lower index max), ← add? 32 d 1)

/-- What leads up to the upper end, if the segments behind the given one are not all as large as
possible, and the last value that the segment takes in the middle. -/
def leadUpTo? (split? : List Nat → List Nat → Option (List Section)) (max : Nat) (upper : List Nat)
    (index : Nat) : Option (List Section × Nat) := do
  let e ← upper[index]?
  let behind ← from? upper (← add? 64 index 1)
  if behind.all (· == max) then return ([], e)
  return (← split? (← fillBehind? upper index 0) upper, ← sub? e 1)

/-- The whole values of a segment. -/
def middleRun? (version : Version) (lower : List Nat) (index first last : Nat) :
    Option (List Section) :=
  if first ≤ last then do return [← runAt? version lower index ⟨first, last⟩] else some []

/-- The fewest sequential sections that make up all tuples between two, with at most `depth`
descents. -/
def runsBetween? (version : Version) : (depth : Nat) → List Nat → List Nat → Option (List Section)
  | 0, _, _ => none
  | depth + 1, lower, upper =>
    match (lower.zip upper).findIdx? fun (d, e) => d != e with
    | none => do return [← fromBounds? version (lower.map Bounds.single) none]
    | some index => do
      let (front, first) ←
        completeLower? (runsBetween? version depth) version.segmentMax lower index
      let (back, last) ← leadUpTo? (runsBetween? version depth) version.segmentMax upper index
      return front ++ (← middleRun? version lower index first last) ++ back

/-! ## Splitting as the library does -/

section Splitting

variable {version : Version} {front ds es : List Nat} {d e value : Nat}

/-- No segment differs from itself. -/
theorem findIdx?_same (digits : List Nat) :
    (digits.zip digits).findIdx? (fun (d, e) => d != e) = none := by
  induction digits with
  | nil => rfl
  | cons d ds ih =>
      rw [List.zip_cons_cons, List.findIdx?_cons, ih]
      exact if_neg (by simp)

/-- The first segment in which two tuples differ. -/
theorem findIdx?_differ (h : d ≠ e) :
    ((front ++ d :: ds).zip (front ++ e :: es)).findIdx? (fun (d, e) => d != e) =
      some front.length := by
  rw [List.zip_append rfl, List.findIdx?_append, findIdx?_same, List.zip_cons_cons,
    List.findIdx?_cons, if_pos (bne_iff_ne.2 h), List.length_zip, Nat.min_self]
  simp

theorem getElem?_front : (front ++ d :: ds)[front.length]? = some d := by
  rw [List.getElem?_append_right (Nat.le_refl _), Nat.sub_self]
  rfl

/-- The slice from behind a segment on is what follows it. -/
theorem from?_behind : from? (front ++ d :: ds) (front.length + 1) = some ds := by
  rw [from?_eq (by simp), List.drop_length_add_append]
  rfl

/-- The slice up to a segment includes it. -/
theorem upTo?_through : upTo? (front ++ d :: ds) (front.length + 1) = some (front ++ [d]) := by
  rw [upTo?_eq (by simp), List.take_length_add_append]
  rfl

/-- The segments behind one are filled, and those up to it are kept. -/
theorem fillBehind?_eq (hfront : front.length + 1 < 2 ^ 64) (value : Nat) :
    fillBehind? (front ++ d :: ds) front.length value
      = some (front ++ [d] ++ List.replicate ds.length value) := by
  rw [fillBehind?, bind_eq (add?_eq hfront), bind_eq upTo?_through, bind_eq from?_behind,
    List.map_const']
  rfl

/-- Splitting the lower end off makes room for the whole values behind its own. -/
theorem completeLower?_eq {split? : List Nat → List Nat → Option (List Section)} {max : Nat}
    {runs : List Section} (hfront : front.length + 1 < 2 ^ 64) (hd : d + 1 < 2 ^ 32)
    (hsplit : split? (front ++ [d] ++ ds) (front ++ [d] ++ List.replicate ds.length max) =
      some runs) :
    completeLower? split? max (front ++ d :: ds) front.length
      = some (if ds.all (· == 0) then [] else runs, if ds.all (· == 0) then d else d + 1) := by
  rw [← List.append_cons] at hsplit
  rw [completeLower?, bind_eq getElem?_front, bind_eq (add?_eq hfront), bind_eq from?_behind]
  cases ds.all (· == 0)
  · exact (bind_eq (fillBehind?_eq hfront max)).trans
      ((bind_eq hsplit).trans (bind_eq (add?_eq hd)))
  · rfl

/-- Splitting the upper end off leaves the whole values in front of its own. -/
theorem leadUpTo?_eq {split? : List Nat → List Nat → Option (List Section)} {max : Nat}
    {runs : List Section} (hfront : front.length + 1 < 2 ^ 64) (he : 0 < e)
    (hsplit : split? (front ++ [e] ++ List.replicate es.length 0) (front ++ [e] ++ es) =
      some runs) :
    leadUpTo? split? max (front ++ e :: es) front.length
      = some (if es.all (· == max) then [] else runs, if es.all (· == max) then e else e - 1) := by
  rw [← List.append_cons front e es] at hsplit
  rw [leadUpTo?, bind_eq getElem?_front, bind_eq (add?_eq hfront), bind_eq from?_behind]
  cases es.all (· == max)
  · exact (bind_eq (fillBehind?_eq hfront 0)).trans ((bind_eq hsplit).trans (bind_eq (sub?_eq he)))
  · rfl

/-- The section with fixed segments in front of some ranges. -/
def behind (version : Version) (front : List Nat) (bounds : List Bounds) : Section :=
  ⟨version, front.map Bounds.single ++ bounds, none⟩

/-- A fixed segment may be counted to the front or to the ranges behind it. -/
theorem map_behind_cons (version : Version) (front : List Nat) (d : Nat)
    (runs : List (List Bounds)) :
    (runs.map (Bounds.single d :: ·)).map (behind version front) =
      runs.map (behind version (front ++ [d])) := by
  rw [List.map_map]
  refine congrArg (runs.map ·) (funext fun bounds => ?_)
  show behind version front (Bounds.single d :: bounds) = behind version (front ++ [d]) bounds
  rw [behind, behind, List.map_append, List.append_assoc]
  rfl

/-- Fixed segments and ranges of the right width make a section if there are enough of them. -/
theorem wellFormed_behind {bounds : List Bounds} (hfront : Fit version.segmentBits front)
    (hbounds : ∀ b ∈ bounds, b.Within version.segmentBits)
    (hcount : front.length + bounds.length = version.segmentCount) :
    (behind version front bounds).WellFormed := by
  refine Section.wellFormed_of_within ?_ ?_ (by simp [behind])
  · show (front.map Bounds.single ++ bounds).length = version.segmentCount
    rw [List.length_append, List.length_map, hcount]
  · refine List.forall_mem_append.2 ⟨List.forall_mem_map.2 fun d hd => ?_, hbounds⟩
    exact Bounds.within_single (hfront d hd)

/-- The whole values of a segment are one run, if there are any. -/
theorem middleRun?_eq {first last : Nat} (hfront : Fit version.segmentBits front)
    (hcount : front.length + (d :: ds).length = version.segmentCount)
    (hlast : last < 2 ^ version.segmentBits) :
    middleRun? version (front ++ d :: ds) front.length first last = some
      ((if first ≤ last then [⟨first, last⟩ :: fullTail version.segmentMax ds] else []).map
        (behind version front)) := by
  rw [middleRun?]
  by_cases hle : first ≤ last
  · have hwf :
        (behind version front (⟨first, last⟩ :: fullTail version.segmentMax ds)).WellFormed := by
      refine wellFormed_behind hfront (List.forall_mem_cons.2 ⟨⟨hle, hlast⟩, ?_⟩)
        (by simpa using hcount)
      rw [fullTail_eq]
      exact fun b hb => List.eq_of_mem_replicate hb ▸ Bounds.within_full _
    have hupTo : upTo? (front ++ d :: ds) front.length = some front := by
      rw [upTo?_eq (by simp), List.take_left]
    have hlen : (front ++ d :: ds).length = front.length + (ds.length + 1) := List.length_append
    have hrest : (front ++ d :: ds).length - front.length - 1 = ds.length := by omega
    have hbuilt := fromBounds?_eq hwf
    rw [fullTail_eq] at hbuilt ⊢
    rw [if_pos hle, if_pos hle, runAt?, bind_eq hupTo, bind_eq (sub?_eq (by omega)),
      bind_eq (sub?_eq (by omega)), hrest]
    exact bind_eq hbuilt
  · rw [if_neg hle, if_neg hle]
    rfl

/-- Where the ends differ, what the two descents yield is put around the whole values. -/
theorem runsBetween?_differ {depth : Nat} (hde : d < e) (hfront : Fit version.segmentBits front)
    (he : e < 2 ^ version.segmentBits)
    (hcount : front.length + (d :: ds).length = version.segmentCount)
    (hlower : runsBetween? version depth (front ++ [d] ++ ds)
      (front ++ [d] ++ List.replicate ds.length version.segmentMax)
        = some ((runsFrom version.segmentMax ds).map (behind version (front ++ [d]))))
    (hupper : runsBetween? version depth (front ++ [e] ++ List.replicate es.length 0)
      (front ++ [e] ++ es)
      = some ((runsUpTo version.segmentMax es).map (behind version (front ++ [e])))) :
    runsBetween? version (depth + 1) (front ++ d :: ds) (front ++ e :: es)
      = some ((runSpans version.segmentMax (d :: ds) (e :: es)).map (behind version front)) := by
  have hsegments := segmentCount_le version
  have hword : 2 ^ version.segmentBits ≤ 2 ^ 16 :=
    Nat.pow_le_pow_right (by decide) (segmentBits_le version)
  have hlast : (if es.all (· == version.segmentMax) then e else e - 1) <
      2 ^ version.segmentBits := by
    split <;> omega
  -- The two descents are one level below, and both are known to succeed.
  rw [runsBetween?, findIdx?_differ (Nat.ne_of_lt hde), runSpans, if_neg (Nat.ne_of_lt hde)]
  refine (bind_eq (completeLower?_eq (by omega) (by omega) hlower)).trans
    ((bind_eq (leadUpTo?_eq (by omega) (by omega) hupper)).trans
      ((bind_eq (middleRun?_eq hfront hcount hlast)).trans ?_))
  cases ds.all (· == 0) <;> cases es.all (· == version.segmentMax)
  all_goals simp only [if_true, if_false, Bool.false_eq_true, List.map_append, map_behind_cons]
  all_goals rfl

/-- A range of tuples that agree in the segments in front: all are segments, and the ends are in
order. -/
structure Part (version : Version) (front ds es : List Nat) : Prop where
  front_fit : Fit version.segmentBits front
  lower_fit : Fit version.segmentBits ds
  upper_fit : Fit version.segmentBits es
  length_eq : es.length = ds.length
  count_eq : front.length + ds.length = version.segmentCount
  value_le : Digits.value version.segmentBits ds ≤ Digits.value version.segmentBits es

namespace Part

/-- One more segment in front, with other ends behind it. -/
theorem extend {ds' es' : List Nat} (h : Part version front (d :: ds) (e :: es)) {c : Nat}
    (hc : c < 2 ^ version.segmentBits)
    (hlower : Fit version.segmentBits ds') (hupper : Fit version.segmentBits es')
    (hlen : es'.length = ds'.length) (hcount : ds'.length = ds.length)
    (hle : Digits.value version.segmentBits ds' ≤ Digits.value version.segmentBits es') :
    Part version (front ++ [c]) ds' es' where
  front_fit := List.forall_mem_append.2 ⟨h.front_fit, List.forall_mem_singleton.2 hc⟩
  lower_fit := hlower
  upper_fit := hupper
  length_eq := hlen
  count_eq := by
    have hwhole := h.count_eq
    rw [List.length_cons] at hwhole
    rw [List.length_append, List.length_singleton, hcount]
    omega
  value_le := hle

/-- What is behind a segment that agrees. -/
theorem behind_same (h : Part version front (d :: ds) (d :: es)) :
    Part version (front ++ [d]) ds es := by
  have hlen : es.length = ds.length := Nat.succ.inj h.length_eq
  have hle := h.value_le
  simp only [Digits.value, hlen] at hle
  obtain ⟨hd, hds⟩ := fit_cons.1 h.lower_fit
  exact h.extend hd hds (fit_cons.1 h.upper_fit).2 hlen rfl (by omega)

/-- What completes the lower end. -/
theorem complete_lower (h : Part version front (d :: ds) (e :: es)) :
    Part version (front ++ [d]) ds (List.replicate ds.length version.segmentMax) := by
  obtain ⟨hd, hds⟩ := fit_cons.1 h.lower_fit
  obtain ⟨hmaxFit, hmaxValue⟩ := value_replicate_max version.segmentBits ds.length
  exact h.extend hd hds hmaxFit List.length_replicate rfl
    (Nat.le_of_lt_succ ((Digits.value_lt hds).trans_eq hmaxValue.symm))

/-- What leads up to the upper end. -/
theorem lead_up (h : Part version front (d :: ds) (e :: es)) :
    Part version (front ++ [e]) (List.replicate es.length 0) es := by
  obtain ⟨he, hes⟩ := fit_cons.1 h.upper_fit
  obtain ⟨hzeroFit, hzeroValue⟩ := value_replicate_zero version.segmentBits es.length
  exact h.extend he hzeroFit hes List.length_replicate.symm
    (List.length_replicate.trans (Nat.succ.inj h.length_eq)) (hzeroValue.le.trans (Nat.zero_le _))

/-- The first difference is in the order of the ends. -/
theorem lt_of_ne (h : Part version front (d :: ds) (e :: es)) (hne : d ≠ e) : d < e := by
  have hlen : es.length = ds.length := Nat.succ.inj h.length_eq
  have hr := Digits.value_lt (fit_cons.1 h.lower_fit).2
  have hq := Digits.value_lt (fit_cons.1 h.upper_fit).2
  have hle := h.value_le
  rw [hlen] at hq
  simp only [Digits.value, hlen] at hle
  rw [Digits.le_cons_iff hr, (Digits.mul_add_div_mod hq).1] at hle
  omega

end Part

/-- Where no segment differs, there is one address. -/
theorem runsBetween?_same {depth : Nat} (h : Part version front [] []) :
    runsBetween? version (depth + 1) front front = some [behind version front []] := by
  have hbuilt := fromBounds?_eq (wellFormed_behind h.front_fit (List.forall_mem_nil _) h.count_eq)
  rw [runsBetween?, findIdx?_same]
  rw [behind, List.append_nil] at hbuilt ⊢
  exact bind_eq hbuilt

/-- **Behind the segments that agree, the machine splits as the library does.** -/
theorem runsBetween?_eq {depth : Nat} (hdepth : ds.length < depth) (h : Part version front ds es) :
    runsBetween? version depth (front ++ ds) (front ++ es)
      = some ((runSpans version.segmentMax ds es).map (behind version front)) := by
  have hmax : 0 < version.segmentMax := by cases version <;> decide
  -- A descent leaves fewer segments behind the first difference, and so does a segment that agrees.
  induction depth generalizing front ds es with
  | zero => exact absurd hdepth (Nat.not_lt_zero _)
  | succ depth ihDepth =>
      induction ds generalizing front es with
      | nil =>
          obtain rfl := List.eq_nil_of_length_eq_zero h.length_eq
          rw [List.append_nil]
          exact runsBetween?_same h
      | cons d ds ihDigits =>
          obtain ⟨e, es, rfl⟩ := List.exists_cons_of_length_eq_add_one h.length_eq
          have hdepth' : ds.length < depth := Nat.lt_of_succ_lt_succ hdepth
          by_cases heq : d = e
          · subst e
            have hrest := ihDigits (Nat.lt_succ_of_lt hdepth') h.behind_same
            rw [← List.append_cons, ← List.append_cons] at hrest
            rw [hrest, runSpans, if_pos rfl, map_behind_cons]
          · have hlower := ihDepth hdepth' h.complete_lower
            have hupper :=
              ihDepth (by rwa [List.length_replicate, Nat.succ.inj h.length_eq]) h.lead_up
            have hds := (fit_cons.1 h.lower_fit).2
            rw [← runsFrom_eq hmax fun x hx => Version.le_segmentMax_iff.2 (hds x hx)] at hlower
            rw [← runsUpTo_eq hmax] at hupper
            exact runsBetween?_differ (h.lt_of_ne heq) h.front_fit
              (fit_cons.1 h.upper_fit).1 h.count_eq hlower hupper

end Splitting

end Machine

end IpSpace
