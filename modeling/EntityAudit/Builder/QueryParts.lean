import EntityAudit.Builder.Condition
import EntityAudit.Builder.Literal
import EntityAudit.Dict
import EntityAudit.Failure
import EntityAudit.Text.Upper

/-! # Parts of a query under construction

A query builder collects the parts of a query and writes them out on demand. `QueryParts.apply` is
the effect of one call, `QueryParts.render?` the text.
-/

namespace EntityAudit

inductive QueryKind where
  | select
  | delete
  | update
  deriving DecidableEq

structure RootPart where
  entity : String
  aliasName : Option String := none
  /-- What its objects are indexed by. -/
  index : Option String := none
  deriving DecidableEq

def clauseText (words : String) : Option String → String
  | some text => words ++ text
  | none => ""

/-- Texts divided by commas after some words, or nothing when there are none. -/
def clauseList (words : String) : List String → String
  | [] => ""
  | texts => words ++ ", ".intercalate texts

def RootPart.render (root : RootPart) : String :=
  root.entity ++ clauseText " " root.aliasName ++ clauseText " INDEX BY " root.index

structure JoinPart where
  /-- Whether unmatched roots are kept. -/
  isLeft : Bool
  path : String
  aliasName : String
  /-- The word before the condition. -/
  conditionWord : Option String := none
  condition : Option String := none
  index : Option String := none
  deriving DecidableEq

def JoinPart.render (join : JoinPart) : String :=
  (if join.isLeft then "LEFT" else "INNER") ++ " JOIN " ++ join.path ++ " " ++ join.aliasName ++
    clauseText " INDEX BY " join.index ++
    clauseText (" " ++ Text.upper (join.conditionWord.getD "ON") ++ " ") join.condition

structure QueryParts where
  kind : QueryKind := .select
  isDistinct : Bool := false
  items : List String := []
  roots : List RootPart := []
  /-- The joins, by alias of the root entity they hang off. -/
  joins : Dict (List JoinPart) := []
  /-- The joined aliases with the root alias each hangs off. -/
  joinRoots : List (String × String) := []
  assignments : List String := []
  filter : Option Condition := none
  groups : List String := []
  groupFilter : Option Condition := none
  orders : List String := []
  /-- Whether a condition was added as an object, so that its text is not known. -/
  hasCriteria : Bool := false

namespace QueryParts

def rootAliases (parts : QueryParts) : List String :=
  parts.roots.filterMap (·.aliasName)

/-- The root alias that a join from `parent` hangs off: `parent` itself, the root that `parent`
    hangs off, or else the first root. -/
def rootOf (parts : QueryParts) (parent : String) : Except BuilderFault String :=
  if parts.rootAliases.contains parent then .ok parent
  else
    match parts.joinRoots.lookup parent, parts.rootAliases with
    | some root, _ => .ok root
    | none, first :: _ => .ok first
    | none, [] => .error .noRoot

/-- The part of a join path before its first dot; empty without a dot. -/
def parentAlias (path : String) : String :=
  if path.toList.contains '.' then String.ofList (path.toList.takeWhile (· != '.')) else ""

def addJoin (parts : QueryParts) (join : JoinPart) : Except BuilderFault QueryParts := do
  let root ← parts.rootOf (parentAlias join.path)
  return { parts with
    joins := parts.joins.put root ((parts.joins.get? root).getD [] ++ [join])
    joinRoots := parts.joinRoots ++ [(join.aliasName, root)] }

/-- Set the index of the first of `roots` that is called `aliasName`. -/
def setIndex (aliasName index : String) : List RootPart → Option (List RootPart)
  | [] => none
  | root :: roots =>
    if root.aliasName = some aliasName then some ({ root with index := some index } :: roots)
    else (setIndex aliasName index roots).map (root :: ·)

def partNames : List String :=
  ["distinct", "select", "from", "join", "set", "where", "groupBy", "having", "orderBy"]

/-- Clear the part called `name`; other names are ignored. -/
def reset (parts : QueryParts) (name : String) : QueryParts :=
  match name with
  | "distinct" => { parts with isDistinct := false }
  | "select" => { parts with items := [] }
  | "from" => { parts with roots := [] }
  | "join" => { parts with joins := [] }
  | "set" => { parts with assignments := [] }
  | "where" => { parts with filter := none }
  | "groupBy" => { parts with groups := [] }
  | "having" => { parts with groupFilter := none }
  | "orderBy" => { parts with orders := [] }
  | _ => parts

def allTexts (args : List Literal) : List String :=
  args.flatMap (·.texts)

def textAt (args : List Literal) (index : Nat) : String :=
  String.join ((args[index]?.map (·.texts)).getD [])

def textAt? (args : List Literal) (index : Nat) : Option String :=
  args[index]?.bind (·.text?)

/-- The entries of a select list: the items of a list in first place, else the texts of all
    arguments. -/
def selection : List Literal → List String
  | .list items :: _ => items
  | args => allTexts args

def conditions (args : List Literal) : List Condition :=
  (allTexts args).map .text

def selectAfter (parts : QueryParts) (before : List String) (args : List Literal) : QueryParts :=
  match selection args with
  | [] => { parts with kind := .select }
  | items => { parts with kind := .select, items := before ++ [", ".intercalate items] }

/-- Turn the query into one that changes the entity in first place, if one is given. -/
def change (parts : QueryParts) (kind : QueryKind) (args : List Literal) : QueryParts :=
  match textAt? args 0 with
  | some entity => { parts with kind, roots := [{ entity, aliasName := textAt? args 1 }] }
  | none => { parts with kind }

def joinPart (isLeft : Bool) (args : List Literal) : JoinPart :=
  { isLeft, path := textAt args 0, aliasName := textAt args 1, conditionWord := textAt? args 2,
    condition := textAt? args 3, index := textAt? args 4 }

def orderText (args : List Literal) : String :=
  textAt args 0 ++ clauseText " " (textAt? args 1)

def apply (parts : QueryParts) (method : BuilderMethod) (args : List Literal) :
    Except BuilderFault QueryParts :=
  match method with
  | .select => .ok (parts.selectAfter [] args)
  | .addSelect => .ok (parts.selectAfter parts.items args)
  | .distinct => .ok { parts with isDistinct := (args.head?.map (·.isTruthy)).getD true }
  | .delete => .ok (parts.change .delete args)
  | .update => .ok (parts.change .update args)
  | .set =>
    .ok { parts with
      assignments := parts.assignments ++ [textAt args 0 ++ " = " ++ textAt args 1] }
  | .from =>
    .ok { parts with roots := parts.roots ++
      [{ entity := textAt args 0, aliasName := some (textAt args 1), index := textAt? args 2 }] }
  | .join | .innerJoin => parts.addJoin (joinPart false args)
  | .leftJoin => parts.addJoin (joinPart true args)
  | .indexBy =>
    match setIndex (textAt args 0) (textAt args 1) parts.roots with
    | some roots => .ok { parts with roots }
    | none => .error (.unknownRoot (textAt args 0))
  | .where => .ok { parts with filter := some (.ofParts .and (conditions args)) }
  | .andWhere => .ok { parts with filter := some (.extend .and parts.filter (conditions args)) }
  | .orWhere => .ok { parts with filter := some (.extend .or parts.filter (conditions args)) }
  | .groupBy => .ok { parts with groups := [", ".intercalate (allTexts args)] }
  | .addGroupBy => .ok { parts with groups := parts.groups ++ [", ".intercalate (allTexts args)] }
  | .having => .ok { parts with groupFilter := some (.ofParts .and (conditions args)) }
  | .andHaving =>
    .ok { parts with groupFilter := some (.extend .and parts.groupFilter (conditions args)) }
  | .orHaving =>
    .ok { parts with groupFilter := some (.extend .or parts.groupFilter (conditions args)) }
  | .orderBy => .ok { parts with orders := [orderText args] }
  | .addOrderBy => .ok { parts with orders := parts.orders ++ [orderText args] }
  | .resetPart => .ok (parts.reset (textAt args 0))
  | .resetParts =>
    let names := match args with
      | .list items :: _ => items
      | _ => partNames
    .ok (names.foldl reset parts)
  | .addCriteria => .ok { parts with hasCriteria := true }
  | .setParameter | .setParameters | .setFirstResult | .setMaxResults | .setCacheable
  | .setCacheRegion | .setLifetime | .setCacheMode => .ok parts

def renderRoot (parts : QueryParts) (root : RootPart) : String :=
  let joins := (root.aliasName.bind parts.joins.get?).getD []
  String.join (root.render :: joins.map (" " ++ ·.render))

def renderHead (parts : QueryParts) : String :=
  match parts.kind with
  | .select =>
    "SELECT" ++ (if parts.isDistinct then " DISTINCT" else "") ++ clauseList " " parts.items ++
      clauseList " FROM " (parts.roots.map parts.renderRoot)
  | .delete => "DELETE" ++ clauseList " " (parts.roots.map (·.render))
  | .update =>
    "UPDATE" ++ clauseList " " (parts.roots.map (·.render)) ++
      clauseList " SET " parts.assignments

/-- The grouping and the condition on groups, which only a selection has. -/
def renderGroups (parts : QueryParts) : String :=
  match parts.kind with
  | .select =>
    clauseList " GROUP BY " parts.groups ++
      clauseText " HAVING " (parts.groupFilter.map (·.render))
  | _ => ""

def render? (parts : QueryParts) : Option String :=
  if parts.hasCriteria then none
  else some (parts.renderHead ++ clauseText " WHERE " (parts.filter.map (·.render)) ++
    parts.renderGroups ++ clauseList " ORDER BY " parts.orders)

end QueryParts

end EntityAudit
