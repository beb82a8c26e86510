import IpSpace.Version
import Mathlib.Data.List.Forall2

/-!
# Outcomes of operations that may fail

An operation that may fail has an outcome in `Except`. The lemmas here say when a composed one
succeeds, in terms of its parts; a proof about what an operation yields takes it apart with them.
-/

namespace IpSpace

variable {ε α β : Type}

/-- Steps that follow each other succeed when each of them does. -/
theorem bind_eq_ok_iff {x : Except ε α} {f : α → Except ε β} {b : β} :
    (x >>= f) = .ok b ↔ ∃ a, x = .ok a ∧ f a = .ok b := by
  cases x with
  | error e => simp [bind, Except.bind]
  | ok a => simp [bind, Except.bind]

/-- They fail when the first does, or when what follows its success fails. -/
theorem bind_eq_error_iff {x : Except ε α} {f : α → Except ε β} {err : ε} :
    (x >>= f) = .error err ↔ x = .error err ∨ ∃ a, x = .ok a ∧ f a = .error err := by
  cases x with
  | error e => simp [bind, Except.bind]
  | ok a => simp [bind, Except.bind]

/-- A changed outcome is a success when the outcome is. -/
theorem map_eq_ok_iff {x : Except ε α} {f : α → β} {b : β} :
    x.map f = .ok b ↔ ∃ a, x = .ok a ∧ f a = b := by
  cases x with
  | error e => simp [Except.map]
  | ok a => simp [Except.map]

/-- What follows a check succeeds when the check passes and the rest succeeds. -/
theorem check_eq_ok_iff {p : Prop} [Decidable p] {e : ε} {rest : Except ε α} {a : α} :
    (if p then (do throw e; rest) else rest) = .ok a ↔ ¬ p ∧ rest = .ok a := by
  by_cases hp : p
  · simp [hp, throw, throwThe, MonadExceptOf.throw, bind, Except.bind]
  · simp [hp]

/-- A step for every member of a list succeeds when it does for each of them. -/
theorem mapM_eq_ok_iff {f : α → Except ε β} {l : List α} {bs : List β} :
    l.mapM f = .ok bs ↔ List.Forall₂ (fun a b => f a = .ok b) l bs := by
  induction l generalizing bs with
  | nil =>
      rw [List.mapM_nil, List.forall₂_nil_left_iff]
      exact ⟨fun h => (Except.ok.inj h).symm, fun h => congrArg Except.ok h.symm⟩
  | cons a l ih =>
      rw [List.mapM_cons, List.forall₂_cons_left_iff, bind_eq_ok_iff]
      constructor
      · rintro ⟨b, hb, hrest⟩
        obtain ⟨rest, hmap, hcons⟩ := bind_eq_ok_iff.1 hrest
        exact ⟨b, rest, hb, ih.1 hmap, (Except.ok.inj hcons).symm⟩
      · rintro ⟨b, rest, hb, hrest, rfl⟩
        exact ⟨b, hb, bind_eq_ok_iff.2 ⟨rest, ih.2 hrest, rfl⟩⟩

/-- A step that checks each member of a list fails with the error of the first one that does not
pass. -/
theorem mapM_check_each (test : α → Bool) (err : α → ε) (f : α → β) (l : List α) :
    l.mapM (fun a => if test a = true then Except.error (err a) else .ok (f a))
      = match l.find? test with
        | some a => .error (err a)
        | none => .ok (l.map f) := by
  induction l with
  | nil => rfl
  | cons a l ih =>
      rw [List.mapM_cons, ih, List.find?_cons, List.map_cons]
      cases ha : test a with
      | true => rfl
      | false => cases l.find? test <;> rfl

/-- With the same error for all, it fails as soon as one of them does not pass. -/
theorem mapM_check (test : α → Bool) (err : ε) (f : α → β) (l : List α) :
    l.mapM (fun a => if test a = true then Except.error err else .ok (f a))
      = if l.any test = true then .error err else .ok (l.map f) := by
  rw [mapM_check_each]
  cases h : l.find? test with
  | none => rw [List.any_eq_false.2 (List.find?_eq_none.1 h), if_neg Bool.false_ne_true]
  | some a =>
      rw [if_pos (List.any_eq_true.2 ⟨a, List.mem_of_find?_eq_some h, List.find?_some h⟩)]

/-- They fail together only if one of them fails. -/
theorem exists_of_mapM_error {f : α → Except ε β} {l : List α} {err : ε}
    (h : l.mapM f = .error err) :
    ∃ a ∈ l, f a = .error err := by
  induction l with
  | nil => cases h
  | cons a l ih =>
      rw [List.mapM_cons] at h
      rcases bind_eq_error_iff.1 h with ha | ⟨b, -, hrest⟩
      · exact ⟨a, List.mem_cons_self, ha⟩
      · rcases bind_eq_error_iff.1 hrest with hl | ⟨bs, -, hdone⟩
        · obtain ⟨a', ha', hfail⟩ := ih hl
          exact ⟨a', List.mem_cons_of_mem a ha', hfail⟩
        · cases hdone

/-- What a step for every member of a list yields, it yields for some member. -/
theorem exists_of_mem_mapM_ok {f : α → Except ε β} {l : List α} {bs : List β}
    (h : l.mapM f = .ok bs) {b : β} (hb : b ∈ bs) : ∃ a ∈ l, f a = .ok b := by
  have hall := mapM_eq_ok_iff.1 h
  obtain ⟨index, hindex, rfl⟩ := List.getElem_of_mem hb
  have hlt : index < l.length := hall.length_eq ▸ hindex
  exact ⟨l[index], List.getElem_mem hlt, hall.get hlt hindex⟩

/-- Likewise for steps that yield nothing where they fail. -/
theorem exists_of_mem_mapM_some {f : α → Option β} {l : List α} {bs : List β}
    (h : l.mapM f = some bs) {b : β} (hb : b ∈ bs) : ∃ a ∈ l, f a = some b := by
  induction l generalizing bs with
  | nil =>
      cases h
      cases hb
  | cons a l ih =>
      rw [List.mapM_cons] at h
      obtain ⟨c, hc, h⟩ := Option.bind_eq_some_iff.1 h
      obtain ⟨cs, hcs, h⟩ := Option.bind_eq_some_iff.1 h
      cases h
      obtain rfl | hb := List.mem_cons.1 hb
      · exact ⟨a, List.mem_cons_self, hc⟩
      · obtain ⟨a', ha', hf⟩ := ih hcs hb
        exact ⟨a', List.mem_cons_of_mem a ha', hf⟩

/-- They succeed together only if each of them does. -/
theorem exists_of_mapM_some {f : α → Option β} {l : List α} {bs : List β} (h : l.mapM f = some bs)
    {a : α} (ha : a ∈ l) : ∃ b, f a = some b := by
  induction l generalizing bs with
  | nil => cases ha
  | cons a' l ih =>
      rw [List.mapM_cons] at h
      obtain ⟨b, hb, h⟩ := Option.bind_eq_some_iff.1 h
      obtain ⟨rest, hrest, -⟩ := Option.bind_eq_some_iff.1 h
      obtain rfl | ha := List.mem_cons.1 ha
      · exact ⟨b, hb⟩
      · exact ih hrest ha

end IpSpace
