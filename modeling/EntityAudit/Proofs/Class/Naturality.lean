import EntityAudit.Proofs.Ty.Binding

/-! # Ancestors of generic classes

What is found for a class with its parameters left open answers for every choice of generic
arguments: they only have to be bound in the answer. A search compares names of classes, which
arguments do not change, so both searches open the same classes in the same order.
-/

namespace EntityAudit

namespace ClassTable

variable {table : ClassTable}

/-- Two searches run alike if the class types of the one are those of the other under a map that
    keeps names. -/
theorem search_map {β : Type} {expand : ClassType → ClassInfo → List ClassType}
    {hit : ClassType → Option β} {f : ClassType → ClassType} {g : β → β} {good : ClassType → Prop}
    (named : ∀ c, (f c).name = c.name) (hits : ∀ c, good c → hit (f c) = (hit c).map g)
    (expands : ∀ c info, good c → table.find? c.name = some info →
      expand (f c) info = (expand c info).map f ∧ ∀ next ∈ expand c info, good next)
    {unopened : Dict ClassInfo}
    (known : ∀ key info, unopened.get? key = some info → table.classes.get? key = some info)
    {pending : List ClassType} (start : ∀ c ∈ pending, good c) :
    search expand hit unopened (pending.map f) = (search expand hit unopened pending).map g := by
  fun_induction search expand hit unopened pending with
  | case1 =>
    rw [List.map_nil, search]
    rfl
  | case2 unopened c pending answer here =>
    rw [List.map_cons, search_cons, hits c (start c (by simp)), here]
    rfl
  | case3 unopened c pending miss unknown ih =>
    have later := ih known fun d inside => start d (by simp [inside])
    rw [List.map_cons, search_cons, hits c (start c (by simp)), miss, named, unknown]
    exact later
  | case4 unopened c pending miss info opened ih =>
    obtain ⟨next, stays⟩ := expands c info (start c (by simp)) (known _ info opened)
    rw [List.map_cons, search_cons, hits c (start c (by simp)), miss, named, opened]
    dsimp only [Option.map_none]
    rw [next, ← List.map_append]
    apply ih
    · intro key other own
      exact known key other (Dict.get?_of_remove own)
    · intro d inside
      rcases List.mem_append.mp inside with above | waiting
      · exact stays d above
      · exact start d (by simp [waiting])

variable {binding : Dict Ty}
variable {c : ClassType}

theorem binding_substitute (info : ClassInfo) (args : List Ty) :
    info.binding (args.map (Ty.substitute binding)) =
      (info.binding args).mapValues (Ty.substitute binding) :=
  info.binding_map rfl args

theorem substitute_binding (bound : Ty.AreBuilt binding) (info : ClassInfo)
    (built : ∀ t ∈ c.args, t.IsBuilt) {t : Ty} (whole : t.IsBuilt) :
    t.substitute (info.binding (c.substitute binding).args) =
      (t.substitute (info.binding c.args)).substitute binding := by
  have inner : Ty.AreBuilt (info.binding c.args) := info.forall_binding .mixed built
  rw [Ty.substitute_substitute inner bound whole]
  exact congrArg (t.substitute ·) (binding_substitute info c.args)

theorem parentsOf_substitute (bound : Ty.AreBuilt binding) {info} (known : info.Declares Ty.IsBuilt)
    (built : ∀ t ∈ c.args, t.IsBuilt) :
    parentsOf (c.substitute binding) info =
      (parentsOf c info).map (ClassType.substitute binding) := by
  rw [parentsOf, parentsOf, List.map_map]
  apply List.map_congr_left
  intro parent declared
  have args : parent.args.map (Ty.substitute (info.binding (c.substitute binding).args)) =
      (parent.args.map (Ty.substitute (info.binding c.args))).map (Ty.substitute binding) := by
    rw [List.map_map]
    apply List.map_congr_left
    intro t inside
    exact substitute_binding bound info built (known.parents parent declared t inside)
  rw [Function.comp_apply, ClassType.substitute, args]
  rfl

theorem keptByBinding_built : KeptByBinding Ty.IsBuilt where
  mixed := .mixed
  substitute bound built := built.substitute bound

theorem search_substitute (built : table.Declares Ty.IsBuilt) (bound : Ty.AreBuilt binding)
    {β : Type} {hit : ClassType → Option β} {g : β → β}
    (hits : ∀ c : ClassType, (∀ t ∈ c.args, t.IsBuilt) → hit (c.substitute binding) = (hit c).map g)
    (whole : ∀ t ∈ c.args, t.IsBuilt) :
    search parentsOf hit table.classes [c.substitute binding] =
      (search parentsOf hit table.classes [c]).map g := by
  have expands : ∀ d info, (∀ t ∈ ClassType.args d, t.IsBuilt) → table.find? d.name = some info →
      parentsOf (d.substitute binding) info =
        (parentsOf d info).map (ClassType.substitute binding) ∧
      ∀ next ∈ parentsOf d info, ∀ t ∈ next.args, t.IsBuilt := by
    intro d info here found
    exact ⟨parentsOf_substitute bound (built.find? found) here,
      forall_parentsOf keptByBinding_built (built.find? found) here⟩
  exact search_map (f := ClassType.substitute binding) (fun _ => rfl) hits expands
    (fun _ _ own => own) (List.forall_mem_singleton.mpr whole)

theorem ancestor?_substitute (built : table.Declares Ty.IsBuilt) (bound : Ty.AreBuilt binding)
    (whole : ∀ t ∈ c.args, t.IsBuilt) (ancestor : String) :
    table.ancestor? (c.substitute binding) ancestor =
      (table.ancestor? c ancestor).map (ClassType.substitute binding) := by
  apply search_substitute built bound _ whole
  intro d _
  change (if Text.sameFold d.name ancestor then _ else _) = _
  split <;> rfl

theorem methodType?_substitute (built : table.Declares Ty.IsBuilt) (bound : Ty.AreBuilt binding)
    (whole : ∀ t ∈ c.args, t.IsBuilt) (method : String) :
    table.methodType? (c.substitute binding) method =
      (table.methodType? c method).map (Ty.substitute binding) := by
  apply search_substitute built bound _ whole
  intro d here
  change (table.find? d.name).bind _ = ((table.find? d.name).bind _).map _
  cases found : table.find? d.name with
  | none => rfl
  | some info =>
    change (info.method? method).bind _ = ((info.method? method).bind _).map _
    cases own : info.method? method with
    | none => rfl
    | some declared =>
      have returns := (built.find? found).methods _ (Dict.mem_of_get? own)
      exact congrArg some (substitute_binding bound info here returns)

theorem map_substitute_zip : ∀ {names : List String} {args : List Ty}, names.Nodup →
    args.length = names.length →
      (names.map Ty.template).map (Ty.substitute (names.zip args)) = args
  | [], [], _, _ => rfl
  | [], _ :: _, _, fits => by cases fits
  | _ :: _, [], _, fits => by cases fits
  | name :: names, arg :: args, distinct, fits => by
    obtain ⟨absent, distinct⟩ := List.nodup_cons.mp distinct
    have later := map_substitute_zip distinct (Nat.succ.inj fits)
    have others : (names.map Ty.template).map (Ty.substitute ((name, arg) :: names.zip args)) =
        (names.map Ty.template).map (Ty.substitute (names.zip args)) := by
      apply List.map_congr_left
      intro t inside
      obtain ⟨other, among, rfl⟩ := List.mem_map.mp inside
      have differs : name ≠ other := by
        rintro rfl
        exact absent among
      rw [Ty.substitute, Ty.substitute, Dict.get?, if_neg differs]
    have first : Ty.substitute ((name, arg) :: names.zip args) (.template name) = arg := by
      rw [Ty.substitute, Dict.get?, if_pos rfl]
      rfl
    rw [List.zip_cons_cons, List.map_cons, List.map_cons, first, others, later]

/-- Ancestors, and the results of methods, are natural in the generic arguments of a class: they are
    those of the class with distinct parameters for arguments, such as its own, with the parameters
    bound to the arguments. Behind this, binding twice is binding once. -/
theorem ancestor?_natural (built : table.Declares Ty.IsBuilt) (name : String) {params : List String}
    (distinct : params.Nodup) {args : List Ty} (fits : args.length = params.length)
    (whole : ∀ t ∈ args, t.IsBuilt) :
    (∀ ancestor, table.ancestor? ⟨name, args⟩ ancestor =
      (table.ancestor? ⟨name, params.map .template⟩ ancestor).map
        (ClassType.substitute (params.zip args))) ∧
    (∀ method, table.methodType? ⟨name, args⟩ method =
      (table.methodType? ⟨name, params.map .template⟩ method).map
        (Ty.substitute (params.zip args))) ∧
    ∀ (t : Ty) (first second : Dict Ty), t.IsBuilt → Ty.AreBuilt first → Ty.AreBuilt second →
      (t.substitute first).substitute second =
        t.substitute (first.mapValues (Ty.substitute second)) := by
  have bound : Ty.AreBuilt (params.zip args) := by
    intro entry inside
    exact whole entry.2 (List.of_mem_zip inside).2
  have closed : (⟨name, args⟩ : ClassType) =
      ClassType.substitute (params.zip args) ⟨name, params.map .template⟩ := by
    rw [ClassType.substitute, map_substitute_zip distinct fits]
  have plain : ∀ t ∈ params.map Ty.template, t.IsBuilt := by
    intro t inside
    obtain ⟨template, -, rfl⟩ := List.mem_map.mp inside
    exact .template template
  rw [closed]
  exact ⟨ancestor?_substitute built bound plain, methodType?_substitute built bound plain,
    fun t first second whole once again => Ty.substitute_substitute once again whole⟩

/-- Boxes are pairs of what they hold, with null allowed, and of lists of that; pairs are boxes of
    pairs, and bags of either half. -/
def boxes : ClassTable :=
  [ { name := "Box", templates := ["T"],
      parents := [⟨"Pair", [.unite [.template "T", .null], .iterable .int (.template "T")]⟩,
        ⟨"Bag", [.template "T"]⟩] },
    { name := "Pair", templates := ["A", "B"],
      parents := [⟨"Box", [.object "Pair" [.template "B"]]⟩,
        ⟨"Bag", [.unite [.template "A", .template "B"]]⟩] },
    ({ name := "Bag", templates := ["E"] : ClassInfo }
      |>.withMethod "first" (.unite [.template "E", .null])) ].foldl register {}

theorem ancestor?_natural_boxes :
    boxes.Declares Ty.IsBuilt ∧ (boxes.find? "Box").map (·.templates) = some ["T"] ∧
      boxes.ancestor? ⟨"Box", [.unite [.int, .null]]⟩ "Bag" =
        (boxes.ancestor? ⟨"Box", [.template "T"]⟩ "Bag").map
          (ClassType.substitute [("T", .unite [.int, .null])]) ∧
      boxes.methodType? ⟨"Box", [.unite [.int, .null]]⟩ "first" =
        (boxes.methodType? ⟨"Box", [.template "T"]⟩ "first").map
          (Ty.substitute [("T", .unite [.int, .null])]) := by
  have built : boxes.Declares Ty.IsBuilt := by decide +kernel
  have distinct : ["T"].Nodup := by decide
  have whole : ∀ t ∈ [Ty.unite [.int, .null]], t.IsBuilt := by decide
  have natural := ancestor?_natural built "Box" distinct rfl whole
  exact ⟨built, rfl, natural.1 "Bag", natural.2.1 "first"⟩

end ClassTable

end EntityAudit
