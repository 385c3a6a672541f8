import EntityAudit.Rule.Basic

/-! # Criteria of repository finders

The keys of a criteria array passed to a repository must be fields or associations of its entity.
-/

namespace EntityAudit

/-- The finders that take a criteria array first. Their names must match exactly. -/
def criteriaMethods : List String :=
  ["findBy", "findOneBy", "count"]

structure FinderCall where
  repository : ClassType
  method : String
  entity : ClassInfo
  keys : List Ty

/-- The class that a repository holds the objects of. -/
def ClassTable.repositoryClass? (table : ClassTable) (repository : ClassType) : Option ClassInfo := do
  table.find? (← (← table.repositoryEntity? repository).className?)

def MethodCall.finder? (call : MethodCall) (scope : Scope) : Except Fault (Option FinderCall) := do
  let some method := call.method | return none
  unless criteriaMethods.contains method do
    return none
  let criteria :: _ := call.args | return none
  let .constArray (entry :: entries) ← scope.typeOf criteria | return none
  let .object name args ← scope.typeOf call.receiver | return none
  let repository : ClassType := ⟨name, args⟩
  let some entity := scope.table.repositoryClass? repository | return none
  return some { repository, method, entity, keys := (entry :: entries).map (·.1) }

def FinderCall.complaints (call : FinderCall) (record : EntityRecord) : List Complaint :=
  call.keys.filterMap fun
    | .constString field =>
      if record.hasField field || record.hasAssociation field then none
      else some (.unknownField call.repository.toTy call.method call.entity.name field)
    | _ => none

def checkFinderCriteria (node : Node) (scope : Scope) : Lookup (List Complaint) := do
  let .call call := node | return []
  let .ok (some finder) ← Lookup.ofInference (call.finder? scope) | return []
  let some record ← Lookup.orNothing (Gateway.record? finder.entity.name) | return []
  return finder.complaints record

end EntityAudit
