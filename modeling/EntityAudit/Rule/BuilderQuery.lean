import EntityAudit.Rule.Basic
import EntityAudit.Ty.Accepts

/-! # Queries of query builders

Every text that a query builder may produce must compile. Where the texts are not known, a rule may
be asked to say so.
-/

namespace EntityAudit

/-- Whether a type consists of one or more builders with known calls. -/
def Ty.isKnownBuilder (t : Ty) : Bool :=
  !t.members.isEmpty && t.members.all fun
    | .builder _ => true
    | _ => false

def rejection? (text : String) : Lookup (Option Query.Rejection) :=
  fun gateway =>
    match Query.compile text gateway with
    | .ok _ gateway => .ok none gateway
    | .error rejection gateway => .ok (some rejection) gateway

/-- The complaints about query texts. There is nothing to check against unless the relational mapper
    is behind the gateway, and something must be. -/
def checkQueries (texts : List String) : Lookup (List Complaint) := do
  unless (← get).isConfigured do
    throw (.configuration .mappingRequired)
  if (← Gateway.managerKind?) != some .orm then
    return []
  let complaints ← texts.mapM fun text => do
    return (← rejection? text).map (Complaint.rejectedQuery text)
  return complaints.filterMap id

/-- Whether a method name asks for the finished query; method names ignore ASCII case. -/
def asksForQuery (method : String) : Bool :=
  Text.sameFold method "getQuery"

/-- Complain about builders whose texts do not compile when the query is asked for; about those
    whose texts are not known only if `reportDynamic`. -/
def checkBuilderQuery (reportDynamic : Bool) (node : Node) (scope : Scope) :
    Lookup (List Complaint) := do
  let .call call := node | return []
  unless (call.method.map asksForQuery).getD false do
    return []
  match ← Lookup.ofInference (scope.typeOf call.receiver) with
  | .error fault => return [.rejectedCall fault]
  | .ok receiver =>
    if receiver.isKnownBuilder then
      match ← Lookup.ofInference (scope.typeOf (.call call.receiver "getDQL" [])) with
      | .error fault => return [.rejectedCall fault]
      | .ok text =>
        match text.texts with
        | [] => return if reportDynamic then [.dynamicArguments] else []
        | texts => checkQueries texts
    else
      let isBuilder := (Ty.ofClass ClassName.queryBuilder).accepts scope.table receiver = .yes
      return if reportDynamic && isBuilder then [.unknownBeginning] else []

end EntityAudit
