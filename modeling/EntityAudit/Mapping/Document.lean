import EntityAudit.Json.Value
import EntityAudit.Mapping.Record

/-! # Records as JSON

How the mapping of a class is shown: every member is present, null where nothing is given.
-/

namespace EntityAudit

def Json.ofOption : Option String → Json
  | some value => .string value
  | none => .null

def Field.toJson (f : Field) : Json :=
  .object [("name", .string f.name), ("column", .string f.column),
    ("column_type", .string f.columnType), ("nullable", .bool f.nullable), ("id", .bool f.isId)]

def JoinColumn.toJson (c : JoinColumn) : Json :=
  .object [("name", .string c.name), ("referenced_column", .string c.referenced),
    ("nullable", (c.nullable.map Json.bool).getD .null)]

def JoinTable.toJson (t : JoinTable) : Json :=
  .object [("name", .string t.name), ("join_columns", .array (t.joinColumns.map (·.toJson))),
    ("inverse_join_columns", .array (t.inverseColumns.map (·.toJson)))]

def Cardinality.word : Cardinality → String
  | .toOne => "to_one"
  | .toMany => "to_many"

def Association.toJson (a : Association) : Json :=
  .object [("name", .string a.name), ("kind", .string a.cardinality.word),
    ("target", .string a.target), ("join_columns", .array (a.joinColumns.map (·.toJson))),
    ("mapped_by", .ofOption a.mappedBy), ("inversed_by", .ofOption a.inversedBy),
    ("join_table", (a.joinTable.map (·.toJson)).getD .null)]

def EntityRecord.toJson (r : EntityRecord) : Json :=
  .object [("class_name", .string r.className), ("table", .string r.table),
    ("repository_class", .ofOption r.repositoryClass),
    ("fields", .array (r.fields.map (·.toJson))),
    ("associations", .array (r.associations.map (·.toJson)))]

end EntityAudit
