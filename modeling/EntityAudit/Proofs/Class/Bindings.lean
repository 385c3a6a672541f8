import EntityAudit.Proofs.Class.Ancestors

/-! # Declared types and bound parameters

What holds of generic arguments and of `mixed` holds of all that parameters are bound to, and a
change made to every argument that leaves `mixed` alone shows as the same change to every bound
type. So a property that binding keeps goes from declared types to all that a search comes by.
-/

namespace EntityAudit

namespace Dict

variable {α β : Type}

theorem forall_put {P : α → Prop} {d : Dict α} {value : α} (all : ∀ entry ∈ d, P entry.2)
    (here : P value) (key : String) : ∀ entry ∈ d.put key value, P entry.2 := by
  induction d with
  | nil => exact List.forall_mem_singleton.mpr here
  | cons first d ih =>
    obtain ⟨k, v⟩ := first
    obtain ⟨own, later⟩ := List.forall_mem_cons.mp all
    rw [put]
    split
    · exact List.forall_mem_cons.mpr ⟨here, later⟩
    · exact List.forall_mem_cons.mpr ⟨own, ih later⟩

def mapValues (f : α → β) (d : Dict α) : Dict β :=
  d.map fun entry => (entry.1, f entry.2)

theorem mapValues_cons (f : α → β) (k : String) (v : α) (d : Dict α) :
    mapValues f ((k, v) :: d) = (k, f v) :: mapValues f d := rfl

theorem get?_mapValues (f : α → β) (d : Dict α) (key : String) :
    (d.mapValues f).get? key = (d.get? key).map f := by
  induction d with
  | nil => rfl
  | cons entry d ih =>
    obtain ⟨k, v⟩ := entry
    rw [mapValues_cons, get?, get?, ih]
    split <;> rfl

theorem mapValues_put (f : α → β) (d : Dict α) (key : String) (value : α) :
    (d.put key value).mapValues f = (d.mapValues f).put key (f value) := by
  induction d with
  | nil => rfl
  | cons entry d ih =>
    obtain ⟨k, v⟩ := entry
    rw [mapValues_cons, put, put, ← ih]
    split <;> rfl

end Dict

namespace ClassInfo

theorem forall_bindFrom {P : Ty → Prop} (mixed : P .mixed) {binding : Dict Ty}
    (bound : ∀ entry ∈ binding, P entry.2) {names : List String} {args : List Ty}
    (each : ∀ t ∈ args, P t) : ∀ entry ∈ bindFrom binding names args, P entry.2 := by
  fun_induction bindFrom binding names args with
  | case1 => exact bound
  | case2 binding name names ih => exact ih (Dict.forall_put bound mixed name) each
  | case3 binding name names arg args ih =>
    obtain ⟨here, later⟩ := List.forall_mem_cons.mp each
    exact ih (Dict.forall_put bound here name) later

theorem forall_binding {P : Ty → Prop} (mixed : P .mixed) (info : ClassInfo) {args}
    (each : ∀ t ∈ args, P t) : ∀ entry ∈ info.binding args, P entry.2 :=
  forall_bindFrom mixed (by simp) each

theorem bindFrom_map {f} (mixed : f .mixed = .mixed) (binding : Dict Ty) (names : List String)
    (args : List Ty) :
    bindFrom (binding.mapValues f) names (args.map f) =
      (bindFrom binding names args).mapValues f := by
  fun_induction bindFrom binding names args with
  | case1 => rw [bindFrom]
  | case2 binding name names ih =>
    rw [List.map_nil] at ih ⊢
    rw [bindFrom, ← ih, Dict.mapValues_put, mixed]
  | case3 binding name names arg args ih =>
    rw [List.map_cons, bindFrom, ← ih, Dict.mapValues_put]

theorem binding_map (info : ClassInfo) {f} (mixed : f .mixed = .mixed) (args : List Ty) :
    info.binding (args.map f) = (info.binding args).mapValues f :=
  bindFrom_map mixed [] info.templates args

end ClassInfo

/-- Every type that a class declares has the property `P`. -/
structure ClassInfo.Declares (P : Ty → Prop) (info : ClassInfo) : Prop where
  parents : ∀ parent ∈ info.parents, ∀ t ∈ parent.args, P t
  properties : ∀ entry ∈ info.properties, P entry.2.readable ∧ P entry.2.writable
  methods : ∀ entry ∈ info.methods, P entry.2.returns

instance {P} [DecidablePred P] (info : ClassInfo) : Decidable (info.Declares P) :=
  decidable_of_iff ((∀ parent ∈ info.parents, ∀ t ∈ parent.args, P t) ∧
      (∀ entry ∈ info.properties, P entry.2.readable ∧ P entry.2.writable) ∧
      ∀ entry ∈ info.methods, P entry.2.returns)
    ⟨fun all => ⟨all.1, all.2.1, all.2.2⟩,
      fun declared => ⟨declared.parents, declared.properties, declared.methods⟩⟩

def ClassTable.Declares (P : Ty → Prop) (table : ClassTable) : Prop :=
  ∀ entry ∈ table.classes, entry.2.Declares P

instance {P} [DecidablePred P] (table : ClassTable) : Decidable (table.Declares P) :=
  inferInstanceAs (Decidable (∀ entry ∈ table.classes, entry.2.Declares P))

/-- A property of types that is not lost where parameters are bound to types that have it. -/
structure KeptByBinding (P : Ty → Prop) : Prop where
  mixed : P .mixed
  substitute : ∀ {binding : Dict Ty} {t : Ty}, (∀ entry ∈ binding, P entry.2) → P t →
    P (t.substitute binding)

namespace ClassTable

variable {P : Ty → Prop} {table : ClassTable}

theorem Declares.find? (declares : table.Declares P) {name info}
    (found : table.find? name = some info) : info.Declares P :=
  declares _ (Dict.mem_of_get? found)

theorem forall_parentsOf (kept : KeptByBinding P) {info} (declares : info.Declares P) {c}
    (args : ∀ t ∈ c.args, P t) : ∀ next ∈ parentsOf c info, ∀ t ∈ next.args, P t := by
  intro next inside u replaced
  obtain ⟨parent, declared, rfl⟩ := List.mem_map.mp inside
  obtain ⟨t, arg, rfl⟩ := List.mem_map.mp replaced
  exact kept.substitute (info.forall_binding kept.mixed args)
    (declares.parents parent declared t arg)

theorem Declares.methodType? (declares : table.Declares P) (kept : KeptByBinding P) {c}
    (args : ∀ t ∈ c.args, P t) {method t} (found : table.methodType? c method = some t) : P t := by
  have step : ∀ d info, (∀ t ∈ ClassType.args d, P t) → table.find? d.name = some info →
      ∀ next ∈ parentsOf d info, ∀ t ∈ next.args, P t :=
    fun d info here opened => forall_parentsOf kept (declares.find? opened) here
  obtain ⟨d, here, hit⟩ := search_eq_some step (fun _ _ own => own)
    (List.forall_mem_singleton.mpr args) found
  obtain ⟨info, opened, hit⟩ := Option.bind_eq_some_iff.mp hit
  obtain ⟨own, named, hit⟩ := Option.bind_eq_some_iff.mp hit
  cases hit
  exact kept.substitute (info.forall_binding kept.mixed here)
    ((declares.find? opened).methods _ (Dict.mem_of_get? named))

theorem Declares.propertyType? (declares : table.Declares P) {className property t}
    (found : table.propertyType? className property = some t) : P t := by
  have anywhere : ∀ c ∈ [ClassType.raw className], True := fun _ _ => trivial
  obtain ⟨d, -, hit⟩ :=
    search_eq_some (fun _ _ _ _ _ _ => trivial) (fun _ _ own => own) anywhere found
  obtain ⟨info, opened, hit⟩ := Option.bind_eq_some_iff.mp hit
  obtain ⟨own, named, hit⟩ := Option.bind_eq_some_iff.mp hit
  cases hit
  exact ((declares.find? opened).properties _ (Dict.mem_of_get? named)).1

end ClassTable

end EntityAudit
