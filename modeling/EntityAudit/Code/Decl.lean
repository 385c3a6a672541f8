import EntityAudit.Class.Basic
import EntityAudit.Code.Expr

/-! # Declarations in code

Statements, methods, properties and classes as a source file declares them.
-/

namespace EntityAudit

/-- A statement and the line it stands on. -/
inductive Stmt where
  | expr (value : Expr) (line : Nat)
  | assign (name : String) (value : Expr) (line : Nat)
  /-- A condition with what happens when it holds and when it does not. -/
  | branch (condition : Expr) (holds fails : List Stmt) (line : Nat)
  | ret (value : Option Expr) (line : Nat)
  deriving Inhabited

structure ParamDecl where
  name : String
  type : Ty

structure MethodDecl where
  name : String
  params : List ParamDecl := []
  returns : Ty := .mixed
  body : List Stmt := []
  line : Nat := 0

structure PropertyDecl where
  name : String
  readable : Ty
  writable : Ty
  line : Nat := 0

structure ClassDecl where
  name : String
  isInterface : Bool := false
  isFinal : Bool := false
  templates : List String := []
  parents : List ClassType := []
  properties : List PropertyDecl := []
  methods : List MethodDecl := []

/-- What is known about the class outside of it. Of members declared twice the later one counts. -/
def ClassDecl.toInfo (c : ClassDecl) : ClassInfo :=
  let bare : ClassInfo :=
    { name := c.name, isInterface := c.isInterface, isFinal := c.isFinal,
      templates := c.templates, parents := c.parents }
  let withProperties := c.properties.foldl
    (fun info p => info.withProperty p.name p.readable p.writable) bare
  c.methods.foldl (fun info m => info.withMethod m.name m.returns) withProperties

structure SourceFile where
  path : String
  classes : List ClassDecl

def ClassTable.registerFile (table : ClassTable) (file : SourceFile) : ClassTable :=
  file.classes.foldl (fun table c => table.register c.toInfo) table

end EntityAudit
