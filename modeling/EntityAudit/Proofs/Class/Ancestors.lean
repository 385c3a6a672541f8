import EntityAudit.Class.Hierarchy

/-! # Ancestors of classes

`ClassTable.Descends` says what an ancestor is, without a search. The search finds the ancestors in
this sense and nothing else, also where hierarchies have cycles or end in unknown classes.
-/

namespace EntityAudit

/-- A class has another one as itself or among its ancestors. -/
inductive ClassTable.Descends (table : ClassTable) : String → String → Prop
  | same {name other} : Text.sameFold name other = true → table.Descends name other
  | parent {name ancestor info parent} :
      table.find? name = some info → parent ∈ info.parents →
        table.Descends parent.name ancestor → table.Descends name ancestor

/-- Whether no declared parent has generic arguments. -/
def ClassTable.hasPlainParents (table : ClassTable) : Bool :=
  table.classes.values.all fun info => info.parents.all (·.args.isEmpty)

namespace ClassTable

variable {table : ClassTable}

variable {expand : ClassType → ClassInfo → List ClassType}
variable {pending : List ClassType} {ancestor : String} {d : Dict ClassInfo}

theorem find?_of_sameFold {name other} (folded : Text.sameFold name other = true) :
    table.find? name = table.find? other := by
  rw [find?, find?, Text.sameFold_iff.mp folded]

theorem Descends.trans {a b c} (first : table.Descends a b) (second : table.Descends b c) :
    table.Descends a c := by
  induction first with
  | parent found inside _ ih => exact .parent found inside (ih second)
  | same folded =>
    cases second with
    | same other =>
      rw [Text.sameFold_iff] at folded other
      exact .same (Text.sameFold_iff.mpr (folded.trans other))
    | parent found inside rest => exact .parent ((find?_of_sameFold folded).trans found) inside rest

/-- What a search finds, it finds at a class type that the pending ones lead to. -/
theorem search_eq_some {β : Type} {hit : ClassType → Option β} {reached : ClassType → Prop}
    (step : ∀ c info, reached c → table.find? c.name = some info → ∀ next ∈ expand c info,
      reached next) {unopened : Dict ClassInfo}
    (known : ∀ key info, unopened.get? key = some info → table.classes.get? key = some info)
    (start : ∀ c ∈ pending, reached c) {answer : β}
    (found : search expand hit unopened pending = some answer) :
    ∃ c, reached c ∧ hit c = some answer := by
  fun_induction search expand hit unopened pending with
  | case1 => simp at found
  | case2 unopened c pending other here =>
    exact ⟨c, start c (by simp), here.trans found⟩
  | case3 unopened c pending miss unknown ih =>
    exact ih known (fun d inside => start d (by simp [inside])) found
  | case4 unopened c pending miss info opened ih =>
    refine ih (fun key other own => known key other (Dict.get?_of_remove own))
      (fun d inside => ?_) found
    rcases List.mem_append.mp inside with next | later
    · exact step c info (start c (by simp)) (known _ info opened) d next
    · exact start d (by simp [later])

theorem ancestor?_eq_some (plain : table.hasPlainParents = true) {name seen}
    (found : table.ancestor? ⟨name, []⟩ ancestor = some seen) :
    table.Descends name ancestor ∧ seen.args = [] := by
  let reached (c : ClassType) : Prop := table.Descends name c.name ∧ c.args = []
  have step : ∀ c info, reached c → table.find? c.name = some info →
      ∀ next ∈ parentsOf c info, reached next := by
    intro c info here opened next inside
    obtain ⟨parent, declared, rfl⟩ := List.mem_map.mp inside
    have bare : parent.args = [] := by
      simp only [hasPlainParents, Dict.values, List.all_map, List.all_eq_true, Function.comp_apply,
        List.isEmpty_iff] at plain
      exact plain (_, info) (Dict.mem_of_get? opened) parent declared
    refine ⟨here.1.trans (.parent opened declared (.same (Text.sameFold_refl _))), ?_⟩
    simp [ClassType.substitute, bare]
  have start : ∀ c ∈ [(⟨name, []⟩ : ClassType)], reached c := by
    intro c inside
    rw [List.mem_singleton.mp inside]
    exact ⟨.same (Text.sameFold_refl name), rfl⟩
  obtain ⟨c, ⟨descends, bare⟩, hit⟩ :=
    search_eq_some step (fun _ _ own => own) start found
  split at hit
  · rename_i folded
    cases hit
    exact ⟨descends.trans (.same folded), bare⟩
  · contradiction

/-! ## Nothing is missed

The search opens a class once and forgets it, so later it follows only what descends without going
through that class. Whatever else descends from it is found through the parents it left behind.
-/

theorem Descends.remove {key info} (opened : d.get? key = some info) {name}
    (reached : Descends ⟨d⟩ name ancestor) :
    Descends ⟨d.remove key⟩ name ancestor ∨
      ∃ parent ∈ info.parents, Descends ⟨d.remove key⟩ parent.name ancestor := by
  induction reached with
  | same folded => exact .inl (.same folded)
  | @parent name ancestor own parent found inside _ ih =>
    rcases ih with above | around
    · by_cases here : Text.foldCase name = key
      · have known : d.get? key = some own := here ▸ found
        obtain rfl := Option.some.inj (opened.symm.trans known)
        exact .inr ⟨parent, inside, above⟩
      · refine .inl (.parent ?_ inside above)
        rw [find?, Dict.get?_remove, if_neg (Ne.symm here)]
        exact found
    · exact .inr around

theorem search_isSome {β : Type} {hit : ClassType → Option β} {target}
    (hits : ∀ c, Text.sameFold c.name target = true → (hit c).isSome)
    (follows : ∀ c info, ∀ parent ∈ info.parents, ∃ next ∈ expand c info, next.name = parent.name)
    {unopened} (reached : ∃ c ∈ pending, Descends ⟨unopened⟩ c.name target) :
    (search expand hit unopened pending).isSome := by
  fun_induction search expand hit unopened pending with
  | case1 => simp at reached
  | case2 unopened c pending answer here => rfl
  | case3 unopened c pending miss unknown ih =>
    obtain ⟨d, inside, descends⟩ := reached
    rcases List.mem_cons.mp inside with rfl | later
    · cases descends with
      | same folded =>
        have found := hits d folded
        simp [miss] at found
      | parent found _ _ => simp [find?, unknown] at found
    · exact ih ⟨d, later, descends⟩
  | case4 unopened c pending miss info opened ih =>
    apply ih
    have through {parent : ClassType} (inside : parent ∈ info.parents)
        (above : Descends ⟨unopened.remove (Text.foldCase c.name)⟩ parent.name target) :
        ∃ d ∈ expand c info ++ pending,
          Descends ⟨unopened.remove (Text.foldCase c.name)⟩ d.name target := by
      obtain ⟨next, among, named⟩ := follows c info parent inside
      exact ⟨next, List.mem_append_left _ among, named ▸ above⟩
    obtain ⟨d, inside, descends⟩ := reached
    rcases List.mem_cons.mp inside with rfl | later
    · cases descends with
      | same folded =>
        have found := hits d folded
        simp [miss] at found
      | @parent _ _ own parent found declared above =>
        obtain rfl : info = own := Option.some.inj (opened.symm.trans found)
        rcases above.remove opened with above | ⟨other, among, above⟩
        · exact through declared above
        · exact through among above
    · rcases descends.remove opened with above | ⟨other, among, above⟩
      · exact ⟨d, List.mem_append_right _ later, above⟩
      · exact through among above

/-- A search goes on from a class to all its parents and to nothing else, in whatever order and with
    whatever arguments. -/
def Follows (expand : ClassType → ClassInfo → List ClassType) : Prop :=
  ∀ c info name, name ∈ (expand c info).map (·.name) ↔ name ∈ info.parents.map (·.name)

theorem follows_parentsOf : Follows parentsOf := by
  intro c info name
  rw [parentsOf, List.map_map]
  rfl

theorem follows_reverse : Follows fun _ info => info.parents.reverse := by
  intro c info name
  rw [List.map_reverse, List.mem_reverse]

/-- A search that aims at classes by their names finds one exactly where one can be reached. -/
theorem search_isSome_iff {β : Type} {hit : ClassType → Option β} (follows : Follows expand)
    (target : String → Prop) (hits : ∀ c, (hit c).isSome ↔ target (Text.foldCase c.name)) :
    (search expand hit d pending).isSome ↔
      ∃ c ∈ pending, ∃ other, Descends ⟨d⟩ c.name other ∧ target (Text.foldCase other) := by
  constructor
  · intro found
    obtain ⟨answer, found⟩ := Option.isSome_iff_exists.mp found
    have step : ∀ c info, (∃ start ∈ pending, Descends ⟨d⟩ start.name c.name) →
        find? ⟨d⟩ c.name = some info →
          ∀ next ∈ expand c info, ∃ start ∈ pending, Descends ⟨d⟩ start.name next.name := by
      rintro c info ⟨start, among, above⟩ opened next inside
      obtain ⟨parent, declared, same⟩ :=
        List.mem_map.mp ((follows c info _).mp (List.mem_map_of_mem inside))
      refine ⟨start, among, above.trans (.parent opened declared ?_)⟩
      rw [same]
      exact .same (Text.sameFold_refl _)
    obtain ⟨c, ⟨start, among, above⟩, here⟩ := search_eq_some step (fun _ _ own => own)
      (fun c inside => ⟨c, inside, .same (Text.sameFold_refl _)⟩) found
    refine ⟨start, among, c.name, above, (hits c).mp ?_⟩
    rw [here]
    rfl
  · rintro ⟨c, among, other, above, aimed⟩
    refine search_isSome (fun d folded => ?_) (fun d info parent inside => ?_) ⟨c, among, above⟩
    · rw [hits, Text.sameFold_iff.mp folded]
      exact aimed
    · exact List.mem_map.mp ((follows d info _).mpr (List.mem_map_of_mem inside))

theorem search_single_isSome_iff {β : Type} {hit : ClassType → Option β} (follows : Follows expand)
    (target : String → Prop) (hits : ∀ c, (hit c).isSome ↔ target (Text.foldCase c.name)) {c} :
    (search expand hit d [c]).isSome ↔
      ∃ other, Descends ⟨d⟩ c.name other ∧ target (Text.foldCase other) := by
  rw [search_isSome_iff follows target hits]
  simp

/-- The search finds an ancestor exactly where there is one, whatever the generic arguments. -/
theorem descends_iff {c} : table.descends c ancestor = true ↔ table.Descends c.name ancestor := by
  have hits (d : ClassType) : (if Text.sameFold d.name ancestor then some d else none).isSome ↔
      Text.foldCase d.name = Text.foldCase ancestor := by
    rw [← Text.sameFold_iff]
    split <;> simp [*]
  refine (search_single_isSome_iff follows_parentsOf (· = _) hits).trans ⟨?_, fun above => ?_⟩
  · rintro ⟨other, above, same⟩
    exact above.trans (.same (Text.sameFold_iff.mpr same))
  · exact ⟨ancestor, above, rfl⟩

end ClassTable

end EntityAudit
