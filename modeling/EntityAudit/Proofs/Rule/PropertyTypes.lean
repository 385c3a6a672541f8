import EntityAudit.Proofs.Mapping.Growth
import EntityAudit.Proofs.Mapping.Registration
import EntityAudit.Proofs.Mapping.Stateless
import EntityAudit.Rule.PropertyTypes

/-! # One rule for each property

The rules for associations and for columns look a property up on their own. They do not both
complain about one property, since no catalog has a record that declares a property twice, and they
answer the same in every order in which they are asked.
-/

namespace EntityAudit

/-- What a rule for properties finds when the catalog is asked directly. -/
def Catalog.complaints (c : Catalog) (storedType? : EntityRecord → String → Option Ty) (node : Node)
    (scope : Scope) : List Complaint :=
  (node.declared? scope).elim [] fun found =>
    ((c.mappingOf found.1.name).record?.bind (storedType? · found.2.1)).elim []
      (typeMismatches scope.table found.1.name found.2.1 found.2.2)

theorem Catalog.complaints_of_declared (c : Catalog)
    (storedType? : EntityRecord → String → Option Ty) {node scope owner name property}
    (declared : node.declared? scope = some (owner, name, property)) :
    c.complaints storedType? node scope =
      ((c.mappingOf owner.name).record?.bind (storedType? · name)).elim []
        (typeMismatches scope.table owner.name name property) := by
  rw [complaints, declared]
  rfl

section

variable {b : Backing} {c : Catalog} (stored : b.outcome = some (.ok c.toSource))
include stored

theorem Backing.ignoresCase_of_catalog : b.IgnoresCase := by
  intro source behind
  rw [stored] at behind
  cases behind
  exact c.toSource_ignoresCase

theorem Backing.record?_of_catalog (name : String) :
    b.record? name = .ok (c.mappingOf name).record? := by
  rw [Backing.record?, Backing.mapping?, Backing.source?_eq_some.mpr stored]
  change (Gateway.resolve c.toSource name >>= _) >>= _ = _
  rw [Gateway.resolve_toSource]
  rfl

theorem simulates_ownerRecord (owner : ClassInfo) :
    b.Simulates Eq (Lookup.ownerRecord? owner) (.ok (c.mappingOf owner.name).record?) := by
  intro g serves
  have found := simulates_record (b.ignoresCase_of_catalog stored) owner.name g serves
  rw [b.record?_of_catalog stored] at found
  rw [Lookup.ownerRecord?, Lookup.orNothing]
  generalize Gateway.record? owner.name g = result at found
  cases found with
  | ok serves' same => exact .ok serves' same

theorem simulates_checkProperty (storedType? : EntityRecord → String → Option Ty) (node : Node)
    (scope : Scope) :
    b.Simulates Eq (checkProperty storedType? node scope)
      (.ok (c.complaints storedType? node scope)) := by
  unfold checkProperty Catalog.complaints
  cases node.declared? scope with
  | none => exact .pure rfl
  | some declared =>
    obtain ⟨owner, name, property⟩ := declared
    change b.Simulates Eq _ (Except.ok (c.mappingOf owner.name).record? >>= fun record =>
      .ok ((record.bind (storedType? · name)).elim []
        (typeMismatches scope.table owner.name name property)))
    refine (simulates_ownerRecord stored owner).bind ?_
    rintro found _ - rfl
    cases found with
    | none => exact .pure rfl
    | some record =>
      dsimp only
      rw [Option.bind_some]
      cases storedType? record name with
      | none => exact .pure rfl
      | some storage => exact .pure rfl

end

theorem EntityRecord.field?_eq_none {record : EntityRecord} (distinct : record.propertyNames.Nodup)
    {name association} (found : record.association? name = some association) :
    record.field? name = none := by
  have named : association.name = name := by simpa using List.find?_some found
  refine List.find?_eq_none.mpr fun field inside same => ?_
  have first : name ∈ record.fields.map (·.name) :=
    List.mem_map.mpr ⟨field, inside, by simpa using same⟩
  have second : name ∈ record.associations.map (·.name) :=
    List.mem_map.mpr ⟨association, List.mem_of_find?_eq_some found, named⟩
  exact (List.nodup_append.mp distinct).2.2 name first name second rfl

/-- Why a property of a class is not compared with anything that is stored. -/
inductive Catalog.Skips (c : Catalog) (className name : String) : Prop
  | transient (unmapped : c.mappingOf className = .transient)
  | foreign {driver : String} (elsewhere : c.mappingOf className = .foreign driver)
  | undeclared {record : EntityRecord} (mapped : c.mappingOf className = .orm record)
      (noField : record.field? name = none) (noAssociation : record.association? name = none)
  | unknownColumn {record : EntityRecord} {field : Field}
      (mapped : c.mappingOf className = .orm record) (found : record.field? name = some field)
      (unknown : columnBase? field.columnType = none)

/-- What is found about one property: at most one complaint about what the property is written with,
    and after it at most one about what it is read with. -/
def Complaint.InOrder (node : Node) (scope : Scope) (found : List Complaint) : Prop :=
  found = [] ∨ ∃ owner name property storage, node.declared? scope = some (owner, name, property) ∧
    found.Sublist [.databaseWider owner.name name storage property.writable,
      .propertyWider owner.name name storage property.readable]

theorem typeMismatches_sublist (table : ClassTable) (className name : String)
    (property : PropertyInfo) (storage : Ty) :
    (typeMismatches table className name property storage).Sublist
      [.databaseWider className name storage property.writable,
        .propertyWider className name storage property.readable] := by
  unfold typeMismatches
  split <;> split <;> simp

theorem Catalog.complaints_inOrder (c : Catalog) (storedType? : EntityRecord → String → Option Ty)
    (node : Node) (scope : Scope) :
    Complaint.InOrder node scope (c.complaints storedType? node scope) := by
  cases declared : node.declared? scope with
  | none =>
    rw [complaints, declared]
    exact .inl rfl
  | some found =>
    obtain ⟨owner, name, property⟩ := found
    rw [c.complaints_of_declared storedType? declared]
    cases (c.mappingOf owner.name).record?.bind (storedType? · name) with
    | none => exact .inl rfl
    | some storage =>
      exact .inr ⟨owner, name, property, storage, declared, typeMismatches_sublist _ _ _ _ _⟩

def EntityRecord.linkedType? (record : EntityRecord) (name : String) : Option Ty :=
  (record.association? name).map (·.storedType)

def EntityRecord.columnType? (record : EntityRecord) (name : String) : Option Ty :=
  (record.field? name).bind (·.storedType?)

theorem EntityRecord.linkedType?_or_columnType? {record : EntityRecord}
    (distinct : record.propertyNames.Nodup) (name : String) :
    record.linkedType? name = none ∨ record.columnType? name = none := by
  cases found : record.association? name with
  | none => exact .inl (by rw [linkedType?, found, Option.map_none])
  | some association =>
    exact .inr (by rw [columnType?, field?_eq_none distinct found, Option.bind_none])

section

variable {c : Catalog} (kept : c.WellKept)
include kept

theorem Catalog.WellKept.nodup_of_mapped {className record}
    (mapped : c.mappingOf className = .orm record) : record.propertyNames.Nodup :=
  kept.distinct record
    (List.mem_map.mpr ⟨_, Dict.mem_of_get? (Catalog.mappingOf_eq_orm.mp mapped), rfl⟩)

theorem Catalog.Skips.storedType?_eq_none {className name} (skips : c.Skips className name) {record}
    (mapped : c.mappingOf className = .orm record) :
    record.linkedType? name = none ∧ record.columnType? name = none := by
  cases skips with
  | transient unmapped => cases unmapped.symm.trans mapped
  | foreign elsewhere => cases elsewhere.symm.trans mapped
  | undeclared own noField noAssociation =>
    cases own.symm.trans mapped
    simp [EntityRecord.linkedType?, EntityRecord.columnType?, noField, noAssociation]
  | unknownColumn own found unknown =>
    cases own.symm.trans mapped
    constructor
    · cases linked : record.association? name with
      | none => rw [EntityRecord.linkedType?, linked, Option.map_none]
      | some association =>
        rw [EntityRecord.field?_eq_none (kept.nodup_of_mapped mapped) linked] at found
        cases found
    · simp [EntityRecord.columnType?, found, Field.storedType?, unknown]

theorem Catalog.complaints_exclusive (node : Node) (scope : Scope) :
    c.complaints EntityRecord.linkedType? node scope = [] ∨
      c.complaints EntityRecord.columnType? node scope = [] := by
  cases declared : node.declared? scope with
  | none => exact .inl (by rw [complaints, declared, Option.elim_none])
  | some found =>
    obtain ⟨owner, name, property⟩ := found
    rw [c.complaints_of_declared _ declared, c.complaints_of_declared _ declared]
    cases mapped : c.mappingOf owner.name with
    | transient | foreign => exact .inl rfl
    | orm record =>
      have distinct := kept.nodup_of_mapped mapped
      rcases record.linkedType?_or_columnType? distinct name with none | none
      · exact .inl (by simp [ClassMapping.record?, none])
      · exact .inr (by simp [ClassMapping.record?, none])

theorem Catalog.Skips.complaints_eq_nil {owner name property node scope}
    (declared : node.declared? scope = some (owner, name, property))
    (skips : c.Skips owner.name name) :
    c.complaints EntityRecord.linkedType? node scope = [] ∧
      c.complaints EntityRecord.columnType? node scope = [] := by
  rw [c.complaints_of_declared _ declared, c.complaints_of_declared _ declared]
  cases mapped : c.mappingOf owner.name with
  | transient | foreign => exact ⟨rfl, rfl⟩
  | orm record =>
    obtain ⟨linked, column⟩ := skips.storedType?_eq_none kept mapped
    simp [ClassMapping.record?, linked, column]

end

/-- Of the rules for associations and for columns at most one complains about a property, with at
    most one complaint about writing and after it one about reading. Neither complains about a
    property of a class that is not mapped or that another driver maps, about one that is neither a
    field nor an association of its record, or about a field with a column of unknown type. This is
    so for every catalog that changes can lead to, whether the gateway was given it or loads it, and
    whatever the gateway was asked before. A class that has a record counts as mapped by it, also if
    another driver maps it as well. -/
theorem one_rule_complains (changes : List Change) (b : Backing)
    (stored : b.outcome = some
      (.ok (changes.foldl (fun c change => c.after change.make) ({} : Catalog)).toSource))
    (node : Node) (scope : Scope) :
    let c : Catalog := changes.foldl (fun c change => c.after change.make) {}
    let relation := c.complaints EntityRecord.linkedType? node scope
    let column := c.complaints EntityRecord.columnType? node scope
    b.Simulates Eq (checkRelation node scope) (.ok relation) ∧
      b.Simulates Eq (checkColumn node scope) (.ok column) ∧
      (relation = [] ∨ column = []) ∧
      Complaint.InOrder node scope relation ∧ Complaint.InOrder node scope column ∧
      ∀ owner name property, node.declared? scope = some (owner, name, property) →
        c.Skips owner.name name → relation = [] ∧ column = [] := by
  intro c relation column
  have kept : c.WellKept := Change.wellKept_run (.of_records_nil rfl) changes
  exact ⟨simulates_checkProperty stored _ node scope, simulates_checkProperty stored _ node scope,
    c.complaints_exclusive kept node scope, c.complaints_inOrder _ node scope,
    c.complaints_inOrder _ node scope,
    fun owner name property declared skips => skips.complaints_eq_nil kept declared⟩

/-- The identifier of a post is a text in code and a number in the database. The rule for columns
    complains twice, so that for associations does not, even if another driver maps posts too. -/
theorem one_rule_complains_post :
    let post : EntityRecord :=
      { className := "Post", table := "post",
        fields := [{ name := "id", column := "id", columnType := "integer" }],
        associations := [.toOne "author" "User"] }
    let changes : List Change :=
      [.register (.mapped post), .register (.foreign "post" "document")]
    let c : Catalog := changes.foldl (fun c change => c.after change.make) {}
    let owner := ({ name := "Post" : ClassInfo }).withProperty "id" .string .string
    let scope : Scope := { table := {}, owner := some owner }
    (c.complaints EntityRecord.columnType? (.property "id") scope).length = 2 ∧
      (Backing.store c.toSource).Simulates Eq (checkRelation (.property "id") scope) (.ok []) := by
  intro post changes c owner scope
  have column : (c.complaints EntityRecord.columnType? (.property "id") scope).length = 2 := by
    decide
  obtain ⟨relation, -, either, -⟩ := one_rule_complains changes (.store c.toSource) rfl
    (.property "id") scope
  refine ⟨column, ?_⟩
  rcases either with none | none
  · rwa [none] at relation
  · rw [none] at column
    cases column

end EntityAudit
