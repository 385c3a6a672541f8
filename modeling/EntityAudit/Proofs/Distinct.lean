/-! # Lists with repetitions left out

Candidates and unions keep each member at its first place only.
-/

namespace EntityAudit.Distinct

variable {α : Type} [BEq α]

theorem eraseDups_sublist : ∀ values : List α, values.eraseDups.Sublist values
  | [] => by simp
  | head :: tail => by
    rw [List.eraseDups_cons]
    exact ((eraseDups_sublist _).trans List.filter_sublist).cons_cons head
termination_by values => values.length
decreasing_by exact Nat.lt_succ_of_le (List.length_filter_le _ _)

theorem nodup_eraseDups [LawfulBEq α] : ∀ values : List α, values.eraseDups.Nodup
  | [] => by simp
  | head :: tail => by
    rw [List.eraseDups_cons, List.nodup_cons]
    constructor
    · intro again
      have kept := (eraseDups_sublist _).subset again
      simp at kept
    · exact nodup_eraseDups _
termination_by values => values.length
decreasing_by exact Nat.lt_succ_of_le (List.length_filter_le _ _)

theorem eraseDups_eq_nil_iff {values : List α} : values.eraseDups = [] ↔ values = [] := by
  cases values with
  | nil => simp
  | cons head tail => simp [List.eraseDups_cons]

theorem eraseDups_append_self [LawfulBEq α] (values : List α) :
    (values ++ values).eraseDups = values.eraseDups := by
  have nothing : values.removeAll values = [] := by simp [List.removeAll]
  rw [List.eraseDups_append, nothing, List.eraseDups_nil, List.append_nil]

theorem eraseDups_concat [LawfulBEq α] [DecidableEq α] (values : List α) (value : α) :
    (values ++ [value]).eraseDups =
      if value ∈ values then values.eraseDups else values.eraseDups ++ [value] := by
  rw [List.eraseDups_append]
  by_cases known : value ∈ values
  · simp [List.removeAll, known]
  · simp [List.removeAll, known, List.eraseDups_cons]

theorem eraseDups_of_nodup [LawfulBEq α] {values : List α} (distinct : values.Nodup) :
    values.eraseDups = values := by
  induction values with
  | nil => rfl
  | cons head tail ih =>
    obtain ⟨absent, distinct⟩ := List.nodup_cons.mp distinct
    have others : tail.filter (fun value => !value == head) = tail := by
      apply List.filter_eq_self.mpr
      intro value inside
      have other : value ≠ head := by
        rintro rfl
        exact absent inside
      simpa using other
    rw [List.eraseDups_cons, others, ih distinct]

theorem eraseDups_filterMap {β : Type} [BEq β] [LawfulBEq β] [LawfulBEq α] {f : α → Option β}
    (apart : ∀ {a b c}, f a = some c → f b = some c → a = b) :
    ∀ values : List α, (values.filterMap f).eraseDups = values.eraseDups.filterMap f
  | [] => rfl
  | head :: tail => by
    have later := eraseDups_filterMap apart (tail.filter fun value => !value == head)
    have others : (tail.filter fun value => !value == head).filterMap f =
        (tail.filterMap f).filter fun image => (f head).all fun own => !image == own := by
      rw [List.filterMap_filter, List.filter_filterMap]
      congr 1
      funext value
      cases image : f value with
      | none => simp
      | some image =>
        rw [Option.filter_some]
        by_cases same : value = head
        · simp [← same, image]
        · cases own : f head <;> grind
    rw [others] at later
    cases own : f head with
    | none =>
      rw [List.filterMap_cons_none own, List.eraseDups_cons, List.filterMap_cons_none own,
        ← later, own]
      exact congrArg List.eraseDups (List.filter_eq_self.mpr fun _ _ => rfl).symm
    | some image =>
      rw [List.filterMap_cons_some own, List.eraseDups_cons, List.eraseDups_cons,
        List.filterMap_cons_some own, ← later, own]
      rfl
termination_by values => values.length
decreasing_by exact Nat.lt_succ_of_le (List.length_filter_le _ _)

theorem eraseDups_filter [LawfulBEq α] (p : α → Bool) (values : List α) :
    (values.filter p).eraseDups = values.eraseDups.filter p := by
  simp only [← List.filterMap_eq_filter]
  apply eraseDups_filterMap
  grind

theorem eraseDups_append_congr [LawfulBEq α] {as as' bs bs' : List α}
    (first : as.eraseDups = as'.eraseDups) (second : bs.eraseDups = bs'.eraseDups) :
    (as ++ bs).eraseDups = (as' ++ bs').eraseDups := by
  have alike (value : α) : as.elem value = as'.elem value := by
    rw [Bool.eq_iff_iff, List.elem_iff, List.elem_iff, ← List.mem_eraseDups, first,
      List.mem_eraseDups]
  have left (cs : List α) : cs.removeAll as = cs.removeAll as' := by
    simp only [List.removeAll, alike]
  rw [List.eraseDups_append, List.eraseDups_append, first, left, List.removeAll, List.removeAll,
    eraseDups_filter, eraseDups_filter, second]

section FlatMap

variable {β : Type} [BEq β] [LawfulBEq β]

omit [BEq α] in
theorem eraseDups_flatMap_congr {values : List α} {f g : α → List β}
    (same : ∀ value ∈ values, (f value).eraseDups = (g value).eraseDups) :
    (values.flatMap f).eraseDups = (values.flatMap g).eraseDups := by
  induction values with
  | nil => rfl
  | cons head tail ih =>
    rw [List.flatMap_cons, List.flatMap_cons]
    exact eraseDups_append_congr (same head (by simp))
      (ih fun value inside => same value (by simp [inside]))

theorem eraseDups_flatMap_eraseDups [LawfulBEq α] (f : α → List β) :
    ∀ values : List α, (values.eraseDups.flatMap f).eraseDups = (values.flatMap f).eraseDups
  | [] => rfl
  | head :: tail => by
    have split (xs ys : List β) : (xs ++ ys).removeAll (f head) =
        xs.removeAll (f head) ++ ys.removeAll (f head) := List.filter_append _ _
    have nothing : (f head).removeAll (f head) = [] := by simp [List.removeAll]
    have known (rest : List α) : ((rest.filter fun value => !value == head).flatMap f).removeAll
        (f head) = (rest.flatMap f).removeAll (f head) := by
      induction rest with
      | nil => rfl
      | cons value rest ih =>
        by_cases again : value = head
        · rw [List.filter_cons_of_neg (by simpa using again), ih, List.flatMap_cons, split,
            again, nothing, List.nil_append]
        · rw [List.filter_cons_of_pos (by simpa using again), List.flatMap_cons,
            List.flatMap_cons, split, split, ih]
    have later := eraseDups_flatMap_eraseDups f (tail.filter fun value => !value == head)
    rw [List.eraseDups_cons, List.flatMap_cons, List.flatMap_cons]
    calc (f head ++ (tail.filter fun value => !value == head).eraseDups.flatMap f).eraseDups
      _ = (f head ++ (tail.filter fun value => !value == head).flatMap f).eraseDups :=
          eraseDups_append_congr rfl later
      _ = (f head ++ tail.flatMap f).eraseDups := by
          rw [List.eraseDups_append, List.eraseDups_append, known]
termination_by values => values.length
decreasing_by exact Nat.lt_succ_of_le (List.length_filter_le _ _)

end FlatMap

end EntityAudit.Distinct
