import EntityAudit.Builder.Candidates
import EntityAudit.Class.Builtin
import EntityAudit.Code.Decl

/-! # Types of expressions

A scope knows the classes of the program, the class whose method is looked at, and the types of the
variables at one point. Query builders are objects with state, so a call made on a builder in a
variable changes the type of that variable, whether or not its result is used.
-/

namespace EntityAudit

/-- What is known at one point of a method. -/
structure Scope where
  table : ClassTable
  owner : Option ClassInfo := none
  locals : Dict Ty := []

def digits? : Ty → Option String
  | .constInt value => some (toString value.toInt)
  | _ => none

/-- The literals a type consists of, as texts: all texts or all integers in decimal form. Empty for
    other types. -/
def literalTexts (t : Ty) : List String :=
  (t.members.mapM digits?).getD t.texts

/-- The type of two texts run together; literal as long as there are not too many of them. -/
def concatType (left right : Ty) : Ty :=
  let lefts := literalTexts left
  let rights := literalTexts right
  if lefts.isEmpty || rights.isEmpty || lefts.length * rights.length > maxCandidates then
    .string
  else
    .unite (lefts.flatMap fun l => rights.map fun r => .constString (l ++ r))

/-- The entries of an array with one more, or with the value of an earlier entry replaced. -/
def putEntry : List (Ty × Ty) → Ty → Ty → List (Ty × Ty)
  | [], key, value => [(key, value)]
  | (k, v) :: entries, key, value =>
    if k = key then (k, value) :: entries else (k, v) :: putEntry entries key value

structure ArrayDraft where
  entries : List (Ty × Ty) := []
  next : Int64 := 0
  isLiteral : Bool := true

namespace ArrayDraft

/-- Take note of the key of an item. The next free index is behind all keys that are integers, and
    behind the greatest integer there is none. -/
def note (draft : ArrayDraft) : Ty → Except Fault ArrayDraft
  | .constInt index =>
    if index = Int64.maxValue then .error (.breakdown .overflow)
    else .ok { draft with next := max draft.next (index + 1) }
  | .constString _ => .ok draft
  | _ => .ok { draft with isLiteral := false }

def put (draft : ArrayDraft) (key value : Ty) : ArrayDraft :=
  { draft with entries := putEntry draft.entries key value }

def toTy (draft : ArrayDraft) : Ty :=
  if draft.isLiteral then .constArray draft.entries
  else .array (.unite (draft.entries.map (·.1))) (.unite (draft.entries.map (·.2)))

end ArrayDraft

/-- The result of a method called on a builder that has had `calls` made on it. -/
def builderCallType (calls : List (BuilderCall Ty)) (method : String) (args : List Ty) :
    Except Fault Ty :=
  match BuilderMethod.ofName? method with
  | some builderMethod => .ok (.builder (calls ++ [⟨builderMethod, args⟩]))
  | none =>
    match Text.foldCase method with
    | "getdql" => do
      match ← queryCandidates calls with
      | some texts => return .unite (texts.map .constString)
      | none => return .string
    | "getquery" => .ok (.ofClass ClassName.query)
    | "expr" => .ok (.ofClass ClassName.conditionFactory)
    | "getentitymanager" => .ok (.ofClass ClassName.entityManagerInterface)
    | "getrootalias" => .ok .string
    | _ => .ok .mixed

/-- The result of a method called on a builder whose earlier calls are not known. -/
def unknownBuilderCallType (method : String) : Ty :=
  match Text.foldCase method with
  | "getdql" => .string
  | "getquery" => .ofClass ClassName.query
  | "expr" => .ofClass ClassName.conditionFactory
  | _ => if (BuilderMethod.ofName? method).isSome then .ofClass ClassName.queryBuilder else .mixed

namespace ClassTable

/-- The builder a repository hands out: it selects the entities of the repository under the alias
    given first, indexed by what is given second. -/
def repositoryBuilder (table : ClassTable) (repository : ClassType) (args : List Ty) : Ty :=
  match (table.repositoryEntity? repository).bind (·.className?), args with
  | some entity, aliasName :: rest =>
    .builder [⟨.select, [aliasName]⟩, ⟨.from, .constString entity :: aliasName :: rest.take 1⟩]
  | _, _ => .ofClass ClassName.queryBuilder

def objectCallType (table : ClassTable) (object : ClassType) (method : String) (args : List Ty) :
    Ty :=
  let createsBuilder := Text.foldCase method == "createquerybuilder"
  let isManager := table.descends object ClassName.objectManager
  if table.descends object ClassName.queryBuilder then unknownBuilderCallType method
  else if isManager && createsBuilder then .builder []
  else
    match if isManager then managerMethodType? method args else none with
    | some result => result
    | none =>
      if createsBuilder && table.descends object ClassName.entityRepository then
        table.repositoryBuilder object args
      else
        (table.methodType? object method).getD .mixed

/-- The result of a method called on a value of a type that is no union. -/
def callOn (table : ClassTable) (receiver : Ty) (method : String) (args : List Ty) :
    Except Fault Ty :=
  match receiver with
  | .builder calls => builderCallType calls method args
  | .object name objectArgs => .ok (table.objectCallType ⟨name, objectArgs⟩ method args)
  | _ => .ok .mixed

/-- The result of a method called on a value; on a union, any of its members may be called. -/
def callType (table : ClassTable) (receiver : Ty) (method : String) (args : List Ty) :
    Except Fault Ty :=
  match receiver with
  | .union members => do
    return .unite (← members.mapM fun member => table.callOn member method args)
  | single => table.callOn single method args

end ClassTable

namespace Scope

def ofMethod (table : ClassTable) (owner : Option ClassInfo) (params : List ParamDecl) : Scope :=
  { table, owner, locals := params.foldl (fun vars p => vars.put p.name p.type) [] }

def assign (s : Scope) (name : String) (type : Ty) : Scope :=
  { s with locals := s.locals.put name type }

def varType? (s : Scope) (name : String) : Option Ty :=
  s.locals.get? name

def propertyType (s : Scope) (object : Ty) (name : String) : Ty :=
  (object.className?.bind fun c => s.table.propertyType? c name).getD .mixed

mutual
def typeOf (s : Scope) : Expr → Except Fault Ty
  | .null => .ok .null
  | .bool value => .ok (.constBool value)
  | .int value => .ok (.constInt value)
  | .text value => .ok (.constString value)
  | .classConst name => .ok (.constString name)
  | .array items => do return (← addItems s {} items).toTy
  | .var name => .ok ((s.varType? name).getD .mixed)
  | .this => .ok ((s.owner.map fun c => Ty.ofClass c.name).getD .mixed)
  | .new name _ => .ok (.ofClass name)
  | .property object name => do return s.propertyType (← typeOf s object) name
  | .call receiver method args => do
    s.table.callType (← typeOf s receiver) method (← typesOf s args)
  | .dynamicCall _ _ _ => .ok .mixed
  | .concat left right => do return concatType (← typeOf s left) (← typeOf s right)
  | .function _ _ => .ok .mixed

def typesOf (s : Scope) : List Expr → Except Fault (List Ty)
  | [] => .ok []
  | e :: es => do return (← typeOf s e) :: (← typesOf s es)

/-- Items are added one after the other, each with its key before its value; without a key it goes
    to the next free index. -/
def addItems (s : Scope) (draft : ArrayDraft) :
    List (Option Expr × Expr) → Except Fault ArrayDraft
  | [] => .ok draft
  | (none, value) :: items => do
    let key := Ty.constInt draft.next
    let noted ← draft.note key
    addItems s (noted.put key (← typeOf s value)) items
  | (some key, value) :: items => do
    let key ← typeOf s key
    let noted ← draft.note key
    addItems s (noted.put key (← typeOf s value)) items
end

end Scope

/-- A chain of method calls that starts at a variable. -/
structure Chain where
  root : String
  /-- The longest beginning of the chain that has builder methods only; none when its first call is
      of another method. -/
  built : Option Expr := none
  isUnbroken : Bool := true

def Expr.chain? : Expr → Option Chain
  | .var name => some { root := name }
  | .call receiver method args =>
    receiver.chain?.map fun chain =>
      if chain.isUnbroken && (BuilderMethod.ofName? method).isSome then
        { chain with built := some (.call receiver method args) }
      else
        { chain with isUnbroken := false }
  | .dynamicCall receiver _ _ => receiver.chain?.map ({ · with isUnbroken := false })
  | _ => none

mutual
/-- Whether all values of a type are builders with known calls. -/
def Ty.isBuilder : Ty → Bool
  | .builder _ => true
  | .union members => Ty.areBuilders members
  | _ => false

def Ty.areBuilders : List Ty → Bool
  | [] => true
  | t :: ts => t.isBuilder && Ty.areBuilders ts
end

namespace Scope

/-- The scope after evaluating an expression: a builder in a variable at the root of a chain has had
    the builder calls of the chain made on it. -/
def advance (s : Scope) (e : Expr) : Except Fault Scope :=
  match e.chain? with
  | some { root, built := some built, .. } =>
    if ((s.varType? root).map (·.isBuilder)).getD false then do
      let advanced ← s.typeOf built
      return if advanced.isBuilder then s.assign root advanced else s
    else
      .ok s
  | _ => .ok s

/-- The scope after a statement. Of a branch only the condition is evaluated. -/
def apply (s : Scope) : Stmt → Except Fault Scope
  | .expr value _ => s.advance value
  | .assign name value _ => do
    let type ← s.typeOf value
    return (← s.advance value).assign name type
  | .branch condition _ _ _ => s.advance condition
  | .ret (some value) _ => s.advance value
  | .ret none _ => .ok s

def merge (s other : Scope) : Scope :=
  { s with locals := other.locals.foldl join s.locals }
where
  /-- One more variable of the other branch. -/
  join (locals : Dict Ty) (entry : String × Ty) : Dict Ty :=
    match locals.get? entry.1 with
    | some known => locals.put entry.1 (.unite [known, entry.2])
    | none => locals.put entry.1 entry.2

end Scope

end EntityAudit
