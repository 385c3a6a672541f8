import EntityAudit.Failure

/-! # Mapping records

How one class is stored: a table, columns for its fields, and associations to other classes.
-/

namespace EntityAudit

structure Field where
  name : String
  column : String
  columnType : String
  nullable : Bool := false
  isId : Bool := false
  deriving DecidableEq

inductive Cardinality where
  | toOne
  | toMany
  deriving DecidableEq

/-- A column that refers to a column of another table. -/
structure JoinColumn where
  name : String
  referenced : String
  /-- Whether the referring column may hold null, where the mapping says so. -/
  nullable : Option Bool := none
  deriving DecidableEq

structure JoinTable where
  name : String
  /-- Its columns that refer to the owner. -/
  joinColumns : List JoinColumn
  /-- Its columns that refer to the target. -/
  inverseColumns : List JoinColumn
  deriving DecidableEq

/-- A property that leads to objects of another class. -/
structure Association where
  name : String
  cardinality : Cardinality
  target : String
  /-- Columns of the owner that refer to the target. -/
  joinColumns : List JoinColumn := []
  /-- The association of the target that holds the mapping. -/
  mappedBy : Option String := none
  /-- The association of the target that leads back. -/
  inversedBy : Option String := none
  joinTable : Option JoinTable := none
  deriving DecidableEq

namespace Association

def toOne (name target : String) : Association :=
  { name, cardinality := .toOne, target,
    joinColumns := [{ name := name ++ "_id", referenced := "id" }] }

def toMany (name target : String) : Association :=
  { name, cardinality := .toMany, target }

def withNullableColumns (a : Association) (nullable : Bool) : Association :=
  { a with joinColumns := a.joinColumns.map ({ · with nullable := some nullable }) }

def withJoinColumns (a : Association) (columns : List JoinColumn) : Association :=
  { a with joinColumns := columns }

def withMappedBy (a : Association) (field : String) : Association :=
  { a with mappedBy := some field, joinColumns := [] }

def withJoinTable (a : Association) (table : JoinTable) : Association :=
  { a with joinTable := some table }

/-- Whether null may be found in place of a target. A collection is never null; a single target may
    be unless there are join columns and all of them are declared not nullable. -/
def isNullable (a : Association) : Bool :=
  match a.cardinality with
  | .toMany => false
  | .toOne => a.joinColumns.isEmpty || a.joinColumns.any fun c => c.nullable.getD true

end Association

structure EntityRecord where
  className : String
  table : String
  repositoryClass : Option String := none
  fields : List Field := []
  associations : List Association := []
  deriving DecidableEq

namespace EntityRecord

def field? (r : EntityRecord) (name : String) : Option Field :=
  r.fields.find? (·.name == name)

def association? (r : EntityRecord) (name : String) : Option Association :=
  r.associations.find? (·.name == name)

def hasField (r : EntityRecord) (name : String) : Bool :=
  (r.field? name).isSome

def hasAssociation (r : EntityRecord) (name : String) : Bool :=
  (r.association? name).isSome

def identifier (r : EntityRecord) : List Field :=
  r.fields.filter (·.isId)

/-- The names of all fields, then of all associations. -/
def propertyNames (r : EntityRecord) : List String :=
  r.fields.map (·.name) ++ r.associations.map (·.name)

/-- The first of `names` that stands among those before it, or among `seen`. -/
def firstRepeat? (seen : List String) : List String → Option String
  | [] => none
  | name :: names =>
    if seen.contains name then some name else firstRepeat? (name :: seen) names

/-- The record, provided that no property is declared twice. -/
def validate (r : EntityRecord) : Except MappingFault EntityRecord :=
  match firstRepeat? [] r.propertyNames with
  | some name => .error (.repeatedProperty name r.className)
  | none => .ok r

end EntityRecord

end EntityAudit
