import EntityAudit.Ty.Substitute

/-! # Classes

What the checks know about a class. Classes and methods are known by name up to ASCII case,
properties by their exact name.
-/

namespace EntityAudit

/-- A class with generic arguments, as a parent or a receiver is written. -/
structure ClassType where
  name : String
  /-- Its generic arguments; none means "any". -/
  args : List Ty
  deriving DecidableEq

namespace ClassType

def raw (name : String) : ClassType :=
  ⟨name, []⟩

def toTy (c : ClassType) : Ty :=
  .object c.name c.args

def substitute (binding : Dict Ty) (c : ClassType) : ClassType :=
  ⟨c.name, c.args.map (Ty.substitute binding)⟩

end ClassType

/-- The types a property is read and written with. -/
structure PropertyInfo where
  readable : Ty
  writable : Ty

structure MethodInfo where
  name : String
  /-- Type of its result, possibly mentioning generic parameters of the class. -/
  returns : Ty

structure ClassInfo where
  name : String
  isInterface : Bool := false
  isFinal : Bool := false
  templates : List String := []
  parents : List ClassType := []
  properties : Dict PropertyInfo := []
  /-- Own methods by name in lower case. -/
  methods : Dict MethodInfo := []

namespace ClassInfo

def withProperty (c : ClassInfo) (name : String) (readable writable : Ty) : ClassInfo :=
  { c with properties := c.properties.put name ⟨readable, writable⟩ }

def withMethod (c : ClassInfo) (name : String) (returns : Ty) : ClassInfo :=
  { c with methods := c.methods.put (Text.foldCase name) ⟨name, returns⟩ }

def property? (c : ClassInfo) (name : String) : Option PropertyInfo :=
  c.properties.get? name

def method? (c : ClassInfo) (name : String) : Option MethodInfo :=
  c.methods.get? (Text.foldCase name)

/-- Bind the generic parameters to `args` in order; a parameter without an argument is `mixed`, and
    of two parameters with one name the later counts. -/
def bindFrom (binding : Dict Ty) : List String → List Ty → Dict Ty
  | [], _ => binding
  | name :: names, [] => bindFrom (binding.put name .mixed) names []
  | name :: names, arg :: args => bindFrom (binding.put name arg) names args

/-- What the generic parameters stand for when the class is given `args`. -/
def binding (c : ClassInfo) (args : List Ty) : Dict Ty :=
  bindFrom [] c.templates args

end ClassInfo

/-- The known classes, by name in lower case. -/
structure ClassTable where
  classes : Dict ClassInfo := []

namespace ClassTable

def register (table : ClassTable) (c : ClassInfo) : ClassTable :=
  ⟨table.classes.put (Text.foldCase c.name) c⟩

def find? (table : ClassTable) (name : String) : Option ClassInfo :=
  table.classes.get? (Text.foldCase name)

def has (table : ClassTable) (name : String) : Bool :=
  (table.find? name).isSome

def size (table : ClassTable) : Nat :=
  table.classes.length

end ClassTable

end EntityAudit
