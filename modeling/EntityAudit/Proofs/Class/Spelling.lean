import EntityAudit.Proofs.Class.Bindings
import EntityAudit.Proofs.Ty.Spelling
import Mathlib.Data.List.Forall2

/-! # Spelling of class names in hierarchies

A table with all names in lower case has the same hierarchy. Searches through the two tables go in
step, and a relation between generic arguments that binding keeps holds between the arguments that
they come by.
-/

namespace EntityAudit

variable {name' name : String}

theorem Dict.mapValues_remove {α β : Type} (f : α → β) (d : Dict α) (key : String) :
    (d.remove key).mapValues f = (d.mapValues f).remove key := by
  rw [Dict.remove, Dict.remove, Dict.mapValues, Dict.mapValues, List.filter_map]
  rfl

def ClassType.foldNames (c : ClassType) : ClassType :=
  ⟨Text.foldCase c.name, c.args.map Ty.foldNames⟩

def ClassInfo.foldNames (info : ClassInfo) : ClassInfo :=
  { info with name := Text.foldCase info.name, parents := info.parents.map ClassType.foldNames }

def ClassTable.foldNames (table : ClassTable) : ClassTable :=
  ⟨table.classes.mapValues ClassInfo.foldNames⟩

/-- No parent of a class is given arguments in which a union lists `mixed`. -/
def ClassTable.KeepsMixedApart (table : ClassTable) : Prop :=
  ∀ entry ∈ table.classes, ∀ parent ∈ entry.2.parents, ∀ t ∈ parent.args,
    t.everyPart Ty.keepsMixedApart = true

instance (table : ClassTable) : Decidable table.KeepsMixedApart :=
  inferInstanceAs (Decidable (∀ entry ∈ table.classes, ∀ parent ∈ entry.2.parents,
    ∀ t ∈ parent.args, t.everyPart Ty.keepsMixedApart = true))

namespace ClassTable

theorem keepsMixedApart_foldNames (table : ClassTable) :
    table.foldNames.KeepsMixedApart ↔ table.KeepsMixedApart := by
  have folded (t : Ty) := Ty.everyPart_foldNames Ty.keepsMixedApart_foldNames t
  simp only [KeepsMixedApart, foldNames, Dict.mapValues, List.forall_mem_map, ClassInfo.foldNames,
    ClassType.foldNames, folded]

theorem foldNames_register (table : ClassTable) (c : ClassInfo) :
    (table.register c).foldNames = table.foldNames.register c.foldNames := by
  rw [register, register, foldNames, Dict.mapValues_put]
  exact congrArg (fun key => ClassTable.mk (Dict.put _ key _)) (Text.foldCase_foldCase c.name).symm

theorem foldNames_foldl_register (table : ClassTable) (classes : List ClassInfo) :
    (classes.foldl register table).foldNames =
      (classes.map ClassInfo.foldNames).foldl register table.foldNames := by
  induction classes generalizing table with
  | nil => rfl
  | cons c classes ih =>
    rw [List.foldl_cons, ih, foldNames_register, List.map_cons, List.foldl_cons]

variable {table : ClassTable}

theorem find?_foldNames (same : Text.foldCase name = Text.foldCase name') :
    table.foldNames.find? name' = (table.find? name).map ClassInfo.foldNames := by
  rw [find?, find?, ← same]
  exact Dict.get?_mapValues _ _ _

/-- Two searches run alike if what they look at matches, step by step. -/
theorem search_rel {β γ : Type} {expand expand' : ClassType → ClassInfo → List ClassType}
    {hit : ClassType → Option β} {hit' : ClassType → Option γ}
    {rel : ClassType → ClassType → Prop} {out : β → γ → Prop} {f : ClassInfo → ClassInfo}
    (named : ∀ c c', rel c c' → Text.foldCase c.name = Text.foldCase c'.name)
    (hits : ∀ c c', rel c c' → Option.Rel out (hit c) (hit' c'))
    (expands : ∀ c c' info, rel c c' → table.find? c.name = some info →
      List.Forall₂ rel (expand c info) (expand' c' (f info)))
    {unopened : Dict ClassInfo}
    (known : ∀ key info, unopened.get? key = some info → table.classes.get? key = some info)
    {pending pending' : List ClassType} (start : List.Forall₂ rel pending pending') :
    Option.Rel out (search expand hit unopened pending)
      (search expand' hit' (unopened.mapValues f) pending') := by
  fun_induction search expand hit unopened pending generalizing pending' with
  | case1 =>
    cases start
    rw [search]
    exact .none
  | case2 unopened c pending answer here =>
    obtain ⟨c', pending', first, later, rfl⟩ := List.forall₂_cons_left_iff.mp start
    have both := hits c c' first
    rw [here] at both
    rw [search_cons]
    generalize hit' c' = there at both
    cases both with
    | some same => exact .some same
  | case3 unopened c pending miss unknown ih =>
    obtain ⟨c', pending', first, later, rfl⟩ := List.forall₂_cons_left_iff.mp start
    have both := hits c c' first
    rw [miss] at both
    rw [search_cons]
    generalize hit' c' = there at both
    cases both with
    | none =>
      rw [← named c c' first, Dict.get?_mapValues, unknown]
      exact ih known later
  | case4 unopened c pending miss info opened ih =>
    obtain ⟨c', pending', first, later, rfl⟩ := List.forall₂_cons_left_iff.mp start
    have both := hits c c' first
    rw [miss] at both
    rw [search_cons]
    generalize hit' c' = there at both
    cases both with
    | none =>
      rw [← named c c' first, Dict.get?_mapValues, opened, ← Dict.mapValues_remove]
      refine ih (fun key other own => known key other (Dict.get?_of_remove own)) ?_
      exact List.rel_append (expands c c' info first (known _ info opened)) later

end ClassTable

/-- The same class up to the case of its name, with arguments in the relation `R`. -/
structure ClassType.Matches (R : Ty → Ty → Prop) (c c' : ClassType) : Prop where
  name : Text.foldCase c.name = Text.foldCase c'.name
  args : List.Forall₂ R c.args c'.args

/-- A relation between types that is not lost where parameters are bound in a declared type and in
    the same type with its names in lower case. -/
structure KeptByFolding (R : Ty → Ty → Prop) : Prop where
  mixed : R .mixed .mixed
  substitute : ∀ {binding binding' : Dict Ty},
    (∀ name, Option.Rel R (binding.get? name) (binding'.get? name)) →
    ∀ {t : Ty}, t.everyPart Ty.keepsMixedApart = true →
      R (t.substitute binding) (t.foldNames.substitute binding')

section

variable {R : Ty → Ty → Prop}

theorem ClassInfo.bindFrom_rel (mixed : R .mixed .mixed) {names args args'}
    (each : List.Forall₂ R args args') {d d'}
    (bound : ∀ name, Option.Rel R (d.get? name) (d'.get? name)) (name : String) :
    Option.Rel R ((bindFrom d names args).get? name) ((bindFrom d' names args').get? name) := by
  have write {t t' : Ty} (here : R t t') {d d' : Dict Ty}
      (bound : ∀ name, Option.Rel R (d.get? name) (d'.get? name)) (key name : String) :
      Option.Rel R ((d.put key t).get? name) ((d'.put key t').get? name) := by
    rw [Dict.get?_put, Dict.get?_put]
    split
    · exact .some here
    · exact bound name
  induction names generalizing args args' d d' with
  | nil => exact bound name
  | cons key names ih =>
    cases each with
    | nil => exact ih .nil (write mixed bound key)
    | cons first later => exact ih later (write first bound key)

namespace ClassTable

variable {table : ClassTable}
variable {c c' : ClassType}

theorem parentsOf_matches (kept : KeptByFolding R) {info}
    (apart : ∀ parent ∈ info.parents, ∀ t ∈ parent.args, t.everyPart Ty.keepsMixedApart = true)
    (matching : c.Matches R c') :
    List.Forall₂ (ClassType.Matches R) (parentsOf c info) (parentsOf c' info.foldNames) := by
  have bound : ∀ name, Option.Rel R ((info.binding c.args).get? name)
      ((info.binding c'.args).get? name) :=
    ClassInfo.bindFrom_rel kept.mixed matching.args fun _ => .none
  change List.Forall₂ _ (info.parents.map _) ((info.parents.map ClassType.foldNames).map _)
  rw [List.map_map, List.forall₂_map_left_iff, List.forall₂_map_right_iff]
  refine List.forall₂_same.mpr fun parent declared => ⟨(Text.foldCase_foldCase _).symm, ?_⟩
  change List.Forall₂ R (parent.args.map _) ((parent.args.map Ty.foldNames).map _)
  rw [List.map_map, List.forall₂_map_left_iff, List.forall₂_map_right_iff]
  exact List.forall₂_same.mpr fun t inside => kept.substitute bound (apart parent declared t inside)

theorem ancestor?_matches (apart : table.KeepsMixedApart) (kept : KeptByFolding R)
    (matching : c.Matches R c') {ancestor ancestor'}
    (same : Text.foldCase ancestor = Text.foldCase ancestor') :
    Option.Rel (ClassType.Matches R) (table.ancestor? c ancestor)
      (table.foldNames.ancestor? c' ancestor') := by
  refine search_rel (fun c c' both => both.name) (fun c c' both => ?_)
    (fun c c' info both found => ?_) (fun _ _ own => own) (.cons matching .nil)
  · rw [Text.sameFold, Text.sameFold, both.name, same]
    split
    · exact .some both
    · exact .none
  · exact parentsOf_matches kept (apart _ (Dict.mem_of_get? found)) both

theorem has_foldNames (same : Text.foldCase name = Text.foldCase name') :
    table.foldNames.has name' = table.has name := by
  rw [has, has, find?_foldNames same, Option.isSome_map]

theorem descends_foldNames (apart : table.KeepsMixedApart)
    (matching : c.Matches (fun _ _ => True) c') {ancestor ancestor'}
    (same : Text.foldCase ancestor = Text.foldCase ancestor') :
    table.foldNames.descends c' ancestor' = table.descends c ancestor := by
  have found := ancestor?_matches apart ⟨trivial, fun _ _ _ => trivial⟩ matching same
  rw [descends, descends]
  generalize table.ancestor? c ancestor = seen at found
  generalize table.foldNames.ancestor? c' ancestor' = seen' at found
  cases found <;> rfl

theorem unrelated_foldNames (apart : table.KeepsMixedApart) {other other'}
    (same : Text.foldCase name = Text.foldCase name')
    (sameOther : Text.foldCase other = Text.foldCase other') :
    table.foldNames.unrelated name' other' = table.unrelated name other := by
  have raw : (ClassType.raw name).Matches (fun _ _ => True) (.raw name') := ⟨same, .nil⟩
  rw [unrelated, unrelated, descends_foldNames apart raw sameOther, find?_foldNames same,
    find?_foldNames sameOther]
  cases table.find? name with
  | none => rfl
  | some info =>
    cases table.find? other with
    | none => rfl
    | some info' => rfl

theorem acceptsClass_foldNames (apart : table.KeepsMixedApart) (kept : KeptByFolding R)
    (same : Text.foldCase name = Text.foldCase name') {byArgs byArgs'}
    (judged : ∀ args args', List.Forall₂ R args args' → byArgs args = byArgs' args')
    (matching : c.Matches R c') :
    table.acceptsClass name byArgs c = table.foldNames.acceptsClass name' byArgs' c' := by
  have found := ancestor?_matches apart kept matching same
  rw [acceptsClass, acceptsClass]
  generalize table.ancestor? c name = seen at found
  generalize table.foldNames.ancestor? c' name' = seen' at found
  cases found with
  | none => exact (unrelated_foldNames apart same matching.name).symm
  | some both => exact judged _ _ both.args

end ClassTable

end

end EntityAudit
