import EntityAudit.Code.Visit
import EntityAudit.Rule.Complaint

/-! # Rules

A rule looks at nodes of one kind and answers with complaints. Of the failures of look-ups only
those that are fatal concern a rule, any other means that there is nothing to check.
-/

namespace EntityAudit

/-- A look-up whose failure means that there is nothing to check, unless it is fatal. What the
    gateway learnt is kept either way. -/
def Lookup.orNothing {α : Type} (lookup : Lookup (Option α)) : Lookup (Option α) :=
  fun gateway =>
    match lookup gateway with
    | .error failure gateway =>
      if failure.isFatal then .error failure gateway else .ok none gateway
    | done => done

/-- What inference comes to for a rule. Where it breaks down, so does the rule. -/
def Lookup.ofInference {α : Type} : Except Fault α → Lookup (Except BuilderFault α)
  | .ok a => return .ok a
  | .error (.rejected fault) => return .error fault
  | .error (.breakdown cause) => throw (.breakdown cause)

def Lookup.ownerRecord? (owner : ClassInfo) : Lookup (Option EntityRecord) :=
  Lookup.orNothing (Gateway.record? owner.name)

def Node.declared? (node : Node) (scope : Scope) : Option (ClassInfo × String × PropertyInfo) :=
  match node with
  | .call _ | .breakdown _ => none
  | .property name => do
    let owner ← scope.owner
    let property ← owner.property? name
    return (owner, name, property)

end EntityAudit
