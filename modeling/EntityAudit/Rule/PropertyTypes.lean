import EntityAudit.Mapping.Storage
import EntityAudit.Rule.Basic
import EntityAudit.Ty.Accepts

/-! # Types of mapped properties

The type of a mapped property must agree with what is stored: whatever the database holds must fit
into the property, and whatever the property holds must fit into the database.
-/

namespace EntityAudit

/-- The complaints about a property whose stored values are of type `storage`. -/
def typeMismatches (table : ClassTable) (className name : String) (property : PropertyInfo)
    (storage : Ty) : List Complaint :=
  (if property.writable.accepts table storage = .yes then []
    else [.databaseWider className name storage property.writable]) ++
  (if storage.accepts table property.readable = .yes then []
    else [.propertyWider className name storage property.readable])

/-- The complaints about a declared property, given the type that its mapping says is stored. -/
def checkProperty (storedType? : EntityRecord → String → Option Ty) (node : Node) (scope : Scope) :
    Lookup (List Complaint) := do
  let some (owner, name, property) := node.declared? scope | return []
  let some record ← Lookup.ownerRecord? owner | return []
  match storedType? record name with
  | some storage => return typeMismatches scope.table owner.name name property storage
  | none => return []

/-- Complain about properties that disagree with the association mapped on them. -/
def checkRelation : Node → Scope → Lookup (List Complaint) :=
  checkProperty fun record name => (record.association? name).map (·.storedType)

/-- Complain about properties that disagree with the column mapped on them. -/
def checkColumn : Node → Scope → Lookup (List Complaint) :=
  checkProperty fun record name => (record.field? name).bind (·.storedType?)

end EntityAudit
