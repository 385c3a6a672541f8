import EntityAudit.Json.Decode
import EntityAudit.Mapping.Gateway

/-! # Schema files

A schema file is a JSON document that lists the mapped entities of an application and the classes
that a document mapper takes care of. What an entry leaves out is filled in by convention.
-/

namespace EntityAudit

open Json

structure FieldEntry where
  name : String
  column : Option String := none
  columnType : String := "string"
  nullable : Bool := false
  isId : Bool := false
  deriving DecidableEq

inductive AssociationShape where
  | oneToOne
  | manyToOne
  | oneToMany
  | manyToMany
  deriving DecidableEq

def AssociationShape.cardinality : AssociationShape → Cardinality
  | .oneToOne | .manyToOne => .toOne
  | .oneToMany | .manyToMany => .toMany

structure AssociationEntry where
  name : String
  shape : AssociationShape
  target : String
  /-- Columns of the owner that refer to the target, where listed. -/
  joinColumns : Option (List JoinColumn) := none
  mappedBy : Option String := none
  inversedBy : Option String := none
  joinTable : Option JoinTable := none
  deriving DecidableEq

structure EntityEntry where
  className : String
  table : Option String := none
  repositoryClass : Option String := none
  fields : List FieldEntry := []
  associations : List AssociationEntry := []
  deriving DecidableEq

structure SchemaFile where
  manager : ManagerKind := .orm
  entities : List EntityEntry := []
  documents : List String := []
  deriving DecidableEq

namespace SchemaFile

def fieldEntry : Decoder FieldEntry := fun value => do
  let given ← fieldsOf ["name", "column", "type", "nullable", "id"] value
  return {
    name := ← given.required "name" Decoder.text
    column := ← given.withDefault "column" (Decoder.nullable Decoder.text) none
    columnType := ← given.withDefault "type" Decoder.text "string"
    nullable := ← given.withDefault "nullable" Decoder.flag false
    isId := ← given.withDefault "id" Decoder.flag false }

def joinColumn : Decoder JoinColumn := fun value => do
  let given ← fieldsOf ["name", "referenced_column", "nullable"] value
  return {
    name := ← given.required "name" Decoder.text
    referenced := ← given.withDefault "referenced_column" Decoder.text "id"
    nullable := ← given.withDefault "nullable" (Decoder.nullable Decoder.flag) none }

def joinTable : Decoder JoinTable := fun value => do
  let given ← fieldsOf ["name", "join_columns", "inverse_join_columns"] value
  return {
    name := ← given.required "name" Decoder.text
    joinColumns := ← given.withDefault "join_columns" (Decoder.list joinColumn) []
    inverseColumns := ← given.withDefault "inverse_join_columns" (Decoder.list joinColumn) [] }

def shape : Decoder AssociationShape :=
  Decoder.variant [("one_to_one", .oneToOne), ("many_to_one", .manyToOne),
    ("one_to_many", .oneToMany), ("many_to_many", .manyToMany)]

def associationEntry : Decoder AssociationEntry := fun value => do
  let given ← fieldsOf
    ["name", "type", "target", "join_columns", "mapped_by", "inversed_by", "join_table"] value
  return {
    name := ← given.required "name" Decoder.text
    shape := ← given.required "type" shape
    target := ← given.required "target" Decoder.text
    joinColumns :=
      ← given.withDefault "join_columns" (Decoder.nullable (Decoder.list joinColumn)) none
    mappedBy := ← given.withDefault "mapped_by" (Decoder.nullable Decoder.text) none
    inversedBy := ← given.withDefault "inversed_by" (Decoder.nullable Decoder.text) none
    joinTable := ← given.withDefault "join_table" (Decoder.nullable joinTable) none }

def entityEntry : Decoder EntityEntry := fun value => do
  let given ← fieldsOf ["class", "table", "repository_class", "fields", "associations"] value
  return {
    className := ← given.required "class" Decoder.text
    table := ← given.withDefault "table" (Decoder.nullable Decoder.text) none
    repositoryClass := ← given.withDefault "repository_class" (Decoder.nullable Decoder.text) none
    fields := ← given.withDefault "fields" (Decoder.list fieldEntry) []
    associations := ← given.withDefault "associations" (Decoder.list associationEntry) [] }

def managerKind : Decoder ManagerKind :=
  Decoder.variant [("orm", .orm), ("document", .document)]

def decoder : Decoder SchemaFile := fun value => do
  let given ← fieldsOf ["manager", "entities", "documents"] value
  return {
    manager := ← given.withDefault "manager" managerKind .orm
    entities := ← given.withDefault "entities" (Decoder.list entityEntry) []
    documents := ← given.withDefault "documents" (Decoder.list Decoder.text) [] }

def ofText (text : String) : Except Failure SchemaFile :=
  (decodeText decoder text).mapError fun fault => .serialization (.notAMapping fault.message)

end SchemaFile

def shortName (className : String) : List Char :=
  (className.toList.reverse.takeWhile (· != '\\')).reverse

/-- Capitals in lower case, each with an underscore before it. -/
def snakeCase (cs : List Char) : List Char :=
  cs.flatMap fun c => if c.isUpper then ['_', c.toLower] else [c]

/-- The table a class is stored in by convention: its short name, words divided by underscores. -/
def conventionalTable (className : String) : String :=
  String.ofList <| match shortName className with
    | [] => []
    | c :: cs => c.toLower :: snakeCase cs

/-- The field, with its column named after the property unless given. -/
def FieldEntry.toField (e : FieldEntry) : Field where
  name := e.name
  column := e.column.getD e.name
  columnType := e.columnType
  nullable := e.nullable
  isId := e.isId

/-- The association's join columns: those listed, else the conventional one for the owning side of a
    single-valued association. -/
def AssociationEntry.columns (e : AssociationEntry) : List JoinColumn :=
  match e.joinColumns with
  | some columns => columns
  | none =>
    if e.shape.cardinality = .toOne ∧ e.mappedBy = none then
      [{ name := e.name ++ "_id", referenced := "id" }]
    else
      []

def AssociationEntry.toAssociation (e : AssociationEntry) : Association where
  name := e.name
  cardinality := e.shape.cardinality
  target := e.target
  joinColumns := e.columns
  mappedBy := e.mappedBy
  inversedBy := e.inversedBy
  joinTable := e.joinTable

def EntityEntry.toRecord (e : EntityEntry) : EntityRecord where
  className := e.className
  table := e.table.getD (conventionalTable e.className)
  repositoryClass := e.repositoryClass
  fields := e.fields.map (·.toField)
  associations := e.associations.map (·.toAssociation)

/-- The catalog a schema file describes; its entities are added in order, then the classes of the
    document mapper. -/
def SchemaFile.toCatalog (file : SchemaFile) : Except MappingFault Catalog := do
  let catalog ← file.entities.foldlM (fun c e => c.add e.toRecord)
    (Catalog.withKind {} file.manager)
  return file.documents.foldl (fun c name => c.addForeign name "document") catalog

def SchemaFile.catalogOfText (text : String) : Except Failure Catalog := do
  let file ← ofText text
  file.toCatalog.mapError .metadata

end EntityAudit
