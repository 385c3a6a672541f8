import EntityAudit.Class.Builtin
import EntityAudit.Mapping.Record

/-! # Types of stored values

What the relational mapper hands back for a column and for an association.
-/

namespace EntityAudit

/-- The type that a column type converts to; column types ignore ASCII case. -/
def columnBase? (columnType : String) : Option Ty :=
  match Text.foldCase columnType with
  | "string" | "text" | "guid" | "decimal" | "bigint" => some .string
  | "integer" | "smallint" => some .int
  | "boolean" => some .bool
  | "float" => some .float
  | "date" | "time" | "datetime" | "datetimetz" => some (.ofClass ClassName.dateTime)
  | "date_immutable" | "time_immutable" | "datetime_immutable" | "datetimetz_immutable" =>
    some (.ofClass ClassName.dateTimeImmutable)
  | "json" | "array" | "simple_array" => some (.array .mixed .mixed)
  | _ => none

def Field.storedType? (field : Field) : Option Ty :=
  (columnBase? field.columnType).map fun base => if field.nullable then base.addNull else base

/-- The type of the value of an association: the target, or a collection of targets. -/
def Association.storedType (association : Association) : Ty :=
  let target := Ty.ofClass association.target
  match association.cardinality with
  | .toOne => if association.isNullable then target.addNull else target
  | .toMany => .meet [.ofClass ClassName.collection, .iterable .mixed target]

end EntityAudit
