import EntityAudit.Code.Scope

/-! # Visits

Rules look at one node of the code at a time, in the scope at that point: the properties of a class,
then the method calls of its methods in the order of evaluation. Code after a return is not visited,
and where branches meet only those count that do not return.
-/

namespace EntityAudit

/-- What a rule looks at. -/
inductive Node where
  | property (name : String)
  | call (call : MethodCall)
  | breakdown (cause : Breakdown)

structure Visit where
  node : Node
  line : Nat
  /-- The scope before the statement it is part of. -/
  scope : Scope

namespace Scope

def visitCalls (s : Scope) (e : Expr) (line : Nat) : List Visit :=
  e.methodCalls.map fun call => ⟨.call call, line, s⟩

def visitBreakdown (s : Scope) (stmt : Stmt) (line : Nat) : List Visit :=
  match s.apply stmt with
  | .error (.breakdown cause) => [⟨.breakdown cause, line, s⟩]
  | _ => []

/-- The scope after a statement, unchanged when it fails. -/
def pass (s : Scope) (stmt : Stmt) : Scope :=
  match s.apply stmt with
  | .ok after => after
  | .error _ => s

/-- The scope after two branches, none for a branch that returns. -/
def meet : Option Scope → Option Scope → Option Scope
  | some a, some b => some (a.merge b)
  | some a, none => some a
  | none, other => other

mutual
/-- The visits to a statement and the scope after it, none when it returns on every path. -/
def walk (s : Scope) : Stmt → List Visit × Option Scope
  | .expr value line =>
    (s.visitCalls value line ++ s.visitBreakdown (.expr value line) line,
      some (s.pass (.expr value line)))
  | .assign name value line =>
    (s.visitCalls value line ++ s.visitBreakdown (.assign name value line) line,
      some (s.pass (.assign name value line)))
  | .branch condition holds fails line =>
    let broken := s.visitBreakdown (.branch condition holds fails line) line
    let inner := s.pass (.branch condition holds fails line)
    let (holdsVisits, holdsEnd) := walkAll inner holds
    let (failsVisits, failsEnd) := walkAll inner fails
    (s.visitCalls condition line ++ broken ++ holdsVisits ++ failsVisits, meet holdsEnd failsEnd)
  | .ret (some value) line => (s.visitCalls value line, none)
  | .ret none _ => ([], none)

/-- The visits to several statements and the scope after them, none when they return on every
    path. -/
def walkAll (s : Scope) : List Stmt → List Visit × Option Scope
  | [] => ([], some s)
  | stmt :: stmts =>
    match walk s stmt with
    | (visits, none) => (visits, none)
    | (visits, some after) =>
      let (later, final) := walkAll after stmts
      (visits ++ later, final)
end

end Scope

def ClassDecl.visits (table : ClassTable) (c : ClassDecl) : List Visit :=
  let owner := table.find? c.name
  let properties := c.properties.map fun p => ⟨.property p.name, p.line, { table, owner }⟩
  let calls := c.methods.flatMap fun m => ((Scope.ofMethod table owner m.params).walkAll m.body).1
  properties ++ calls

end EntityAudit
