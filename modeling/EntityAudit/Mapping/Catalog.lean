import EntityAudit.Dict
import EntityAudit.Mapping.Record

/-! # Catalogs

A catalog holds the mapping records of a schema and the classes that another driver maps. Classes
are known by name up to ASCII case.
-/

namespace EntityAudit

inductive ManagerKind where
  | orm
  | document
  deriving DecidableEq

inductive ClassMapping where
  | transient
  | orm (record : EntityRecord)
  | foreign (driver : String)
  deriving DecidableEq

def ClassMapping.isTransient : ClassMapping → Bool
  | .transient => true
  | _ => false

def ClassMapping.record? : ClassMapping → Option EntityRecord
  | .orm record => some record
  | _ => none

/-- The mappings of a schema, by class name in lower case. -/
structure Catalog where
  kind : ManagerKind := .orm
  records : Dict EntityRecord := []
  foreign : Dict String := []
  deriving DecidableEq

namespace Catalog

def withKind (c : Catalog) (kind : ManagerKind) : Catalog :=
  { c with kind }

/-- Insert a record. It must be valid in itself, and its class must not be known yet. -/
def insert (record : EntityRecord) : EStateM MappingFault Catalog PUnit := do
  let record ← MonadExcept.ofExcept record.validate
  let key := Text.foldCase record.className
  let c ← get
  if c.records.has key || c.foreign.has key then
    throw (.repeatedClass record.className)
  set { c with records := c.records.put key record }

/-- The catalog with one record more. -/
def add (c : Catalog) (record : EntityRecord) : Except MappingFault Catalog :=
  match insert record c with
  | .ok _ c => .ok c
  | .error fault _ => .error fault

def addForeign (c : Catalog) (name driver : String) : Catalog :=
  { c with foreign := c.foreign.put (Text.foldCase name) driver }

def isTransient (c : Catalog) (name : String) : Bool :=
  let key := Text.foldCase name
  !c.records.has key && !c.foreign.has key

/-- How the class `name` is mapped; a relational mapping comes before any other. -/
def mappingOf (c : Catalog) (name : String) : ClassMapping :=
  let key := Text.foldCase name
  match c.records.get? key with
  | some record => .orm record
  | none =>
    match c.foreign.get? key with
    | some driver => .foreign driver
    | none => .transient

end Catalog

end EntityAudit
