import EntityAudit.Proofs.Query.NameUse
import EntityAudit.Query.Sql

/-! # Scopes

A select statement is in scope of some outer names if each alias it uses is one of them or declared
by itself; subselects see the names of the statements around them. The same for SQL, with table
aliases and the columns they qualify.
-/

namespace EntityAudit.Query

variable {scope : List String}

def Range.names {ε : Type} (range : Range ε) : List String :=
  range.aliasName :: range.joins.map (·.aliasName)

/-- Whether the property that results are indexed by is one of an alias in scope. -/
def indexInScope (index : Option PropertyPath) (scope : List String) : Bool :=
  index.all fun path => scope.contains path.aliasName

def JoinTarget.inScope (scope : List String) : JoinTarget → Bool
  | .association path => scope.contains path.aliasName
  | .entity _ => true

mutual
def pieceInScope : Piece → (scope : List String) → Bool
  | .path path, scope => scope.contains path.aliasName
  | .variable aliasName, scope => scope.contains aliasName
  | .partialObject aliasName _, scope => scope.contains aliasName
  | .subselect query, scope => selectInScope query scope
  | _, _ => true

def piecesInScope : List Piece → (scope : List String) → Bool
  | [], _ => true
  | piece :: rest, scope => pieceInScope piece scope && piecesInScope rest scope

def selectInScope : SelectOf (List Piece) → (outer : List String) → Bool
  | ⟨_, items, ranges, filter, groups, groupFilter, orders⟩, outer =>
    let scope := items.filterMap (·.aliasName) ++ ranges.flatMap Range.names ++ outer
    itemsInScope items scope && rangesInScope ranges scope && optionalInScope filter scope &&
      listedInScope groups scope && optionalInScope groupFilter scope &&
      ordersInScope orders scope

def itemsInScope : List (SelectItem (List Piece)) → (scope : List String) → Bool
  | [], _ => true
  | ⟨expr, _⟩ :: rest, scope => piecesInScope expr scope && itemsInScope rest scope

def rangesInScope : List (Range (List Piece)) → (scope : List String) → Bool
  | [], _ => true
  | ⟨_, _, index, joins⟩ :: rest, scope =>
    indexInScope index scope && joinsInScope joins scope && rangesInScope rest scope

def joinsInScope : List (Join (List Piece)) → (scope : List String) → Bool
  | [], _ => true
  | ⟨_, target, _, index, condition⟩ :: rest, scope =>
    target.inScope scope && indexInScope index scope && optionalInScope condition scope &&
      joinsInScope rest scope

def optionalInScope : Option (List Piece) → (scope : List String) → Bool
  | none, _ => true
  | some expr, scope => piecesInScope expr scope

def listedInScope : List (List Piece) → (scope : List String) → Bool
  | [], _ => true
  | expr :: rest, scope => piecesInScope expr scope && listedInScope rest scope

def ordersInScope : List (OrderItem (List Piece)) → (scope : List String) → Bool
  | [], _ => true
  | ⟨expr, _⟩ :: rest, scope => piecesInScope expr scope && ordersInScope rest scope
end

def Assignment.inScope (scope : List String) (a : Assignment) : Bool :=
  scope.contains a.target.aliasName && piecesInScope a.value scope

/-- Whether every alias a statement uses is among the `outer` ones or declared where it is used or
    around it. Updates and deletions declare one alias; they have no joins. -/
def Statement.inScope (outer : List String) : Statement → Bool
  | .select query => selectInScope query outer
  | .update range assignments filter =>
    let scope := range.aliasName :: outer
    rangesInScope [range] scope && assignments.all (·.inScope scope) &&
      optionalInScope filter scope
  | .delete range filter =>
    let scope := range.aliasName :: outer
    rangesInScope [range] scope && optionalInScope filter scope

namespace Sql

def Join.aliases {ε : Type} (join : Join ε) : List String :=
  match join.body with
  | .table _ aliasName _ => [aliasName]
  | .hops hops _ => hops.map (·.aliasName)

def Range.aliases {ε : Type} (range : Range ε) : List String :=
  range.aliasName :: range.joins.flatMap Join.aliases

def Equality.inScope (scope : List String) (e : Equality) : Bool :=
  scope.contains e.left.table && scope.contains e.right.table

mutual
def termInScope : Term → (scope : List String) → Bool
  | .column column, scope => scope.contains column.table
  | .subselect query, scope => selectInScope query scope
  | _, _ => true

def termsInScope : List Term → (scope : List String) → Bool
  | [], _ => true
  | term :: rest, scope => termInScope term scope && termsInScope rest scope

/-- Whether the columns of a select statement are of its own tables or of those around it. -/
def selectInScope : SelectOf (List Term) → (outer : List String) → Bool
  | ⟨_, items, ranges, filter, groups, groupFilter, orders⟩, outer =>
    let scope := ranges.flatMap Range.aliases ++ outer
    itemsInScope items scope && rangesInScope ranges scope && optionalInScope filter scope &&
      listedInScope groups scope && optionalInScope groupFilter scope &&
      ordersInScope orders scope

def itemsInScope : List (Item (List Term)) → (scope : List String) → Bool
  | [], _ => true
  | .column column _ :: rest, scope => scope.contains column.table && itemsInScope rest scope
  | .value expr _ :: rest, scope => termsInScope expr scope && itemsInScope rest scope

def rangesInScope : List (Range (List Term)) → (scope : List String) → Bool
  | [], _ => true
  | ⟨_, _, joins⟩ :: rest, scope => joinsInScope joins scope && rangesInScope rest scope

def joinsInScope : List (Join (List Term)) → (scope : List String) → Bool
  | [], _ => true
  | ⟨_, .table _ _ condition⟩ :: rest, scope =>
    optionalInScope condition scope && joinsInScope rest scope
  | ⟨_, .hops hops condition⟩ :: rest, scope =>
    (hops.flatMap (·.equalities)).all (·.inScope scope) && optionalInScope condition scope &&
      joinsInScope rest scope

def optionalInScope : Option (List Term) → (scope : List String) → Bool
  | none, _ => true
  | some expr, scope => termsInScope expr scope

def listedInScope : List (List Term) → (scope : List String) → Bool
  | [], _ => true
  | expr :: rest, scope => termsInScope expr scope && listedInScope rest scope

def ordersInScope : List (OrderItem (List Term)) → (scope : List String) → Bool
  | [], _ => true
  | ⟨expr, _⟩ :: rest, scope => termsInScope expr scope && ordersInScope rest scope
end

mutual
def termTables : Term → List String
  | .subselect query => selectTables query
  | _ => []

def termsTables : List Term → List String
  | [] => []
  | term :: rest => termTables term ++ termsTables rest

/-- The table aliases that a select statement introduces, its own and those of its subselects. -/
def selectTables : SelectOf (List Term) → List String
  | ⟨_, items, ranges, filter, groups, groupFilter, orders⟩ =>
    ranges.flatMap Range.aliases ++ itemTables items ++ rangeTables ranges ++
      optionalTables filter ++ listedTables groups ++ optionalTables groupFilter ++
      orderTables orders

def itemTables : List (Item (List Term)) → List String
  | [] => []
  | .column _ _ :: rest => itemTables rest
  | .value expr _ :: rest => termsTables expr ++ itemTables rest

def rangeTables : List (Range (List Term)) → List String
  | [] => []
  | ⟨_, _, joins⟩ :: rest => joinTables joins ++ rangeTables rest

def joinTables : List (Join (List Term)) → List String
  | [] => []
  | ⟨_, .table _ _ condition⟩ :: rest => optionalTables condition ++ joinTables rest
  | ⟨_, .hops _ condition⟩ :: rest => optionalTables condition ++ joinTables rest

def optionalTables : Option (List Term) → List String
  | none => []
  | some expr => termsTables expr

def listedTables : List (List Term) → List String
  | [] => []
  | expr :: rest => termsTables expr ++ listedTables rest

def orderTables : List (OrderItem (List Term)) → List String
  | [] => []
  | ⟨expr, _⟩ :: rest => termsTables expr ++ orderTables rest
end

/-- Whether every column is of a table that the same statement introduces or one around it, or of
    one of the `outer` tables. -/
def Statement.inScope (outer : List String) : Statement → Bool
  | .select query => selectInScope query outer
  | .update _ aliasName assignments filter =>
    assignments.all (fun a => termsInScope a.value (aliasName :: outer)) &&
      optionalInScope filter (aliasName :: outer)
  | .delete _ aliasName filter => optionalInScope filter (aliasName :: outer)

/-- The table aliases that a statement introduces, at every depth. -/
def Statement.tables : Statement → List String
  | .select query => selectTables query
  | .update _ aliasName assignments filter =>
    aliasName :: assignments.flatMap (fun a => termsTables a.value) ++ optionalTables filter
  | .delete _ aliasName filter => aliasName :: optionalTables filter

end Sql

/-- The alias that a use refers to. -/
def NameUse.refersTo? : NameUse → Option String
  | .variable aliasName => some aliasName
  | .path p _ _ | .property p | .join p _ => some p.aliasName
  | .range _ _ | .result _ => none

/-- The uses refer to names of `scope` only. -/
def ReferWithin (scope : List String) (uses : List NameUse) : Prop :=
  ∀ use ∈ uses, ∀ aliasName, use.refersTo? = some aliasName → aliasName ∈ scope

theorem ReferWithin.mono {wider uses} (within : ReferWithin scope uses)
    (more : ∀ name ∈ scope, name ∈ wider) : ReferWithin wider uses :=
  fun use inside aliasName same => more aliasName (within use inside aliasName same)

/-- The aliases that a statement declares itself, not in its subselects. -/
def Statement.ownNames : Statement → List String
  | .select query => query.items.filterMap (·.aliasName) ++ query.ranges.flatMap Range.names
  | .update range _ _ | .delete range _ => [range.aliasName]

@[simp]
def Part.inScope (scope : List String) : Part → Bool
  | .name use => use.refersTo?.all scope.contains
  | .expression e => piecesInScope e scope

section

variable (scope : List String)

theorem piecesInScope_eq (pieces : List Piece) :
    piecesInScope pieces scope = pieces.all (pieceInScope · scope) := by
  induction pieces <;> simp_all [piecesInScope]

theorem indexInScope_eq (index : Option PropertyPath) :
    indexInScope index scope = ((indexUses index).map .name).all (Part.inScope scope) := by
  cases index <;> simp [indexInScope, indexUses, NameUse.refersTo?]

theorem optionalInScope_eq (clause : Option Expression) :
    optionalInScope clause scope = (clauseParts clause).all (Part.inScope scope) := by
  cases clause <;> simp [optionalInScope, clauseParts]

theorem itemsInScope_eq (items : List (SelectItem Expression)) :
    itemsInScope items scope = (items.flatMap SelectItem.parts).all (Part.inScope scope) := by
  induction items with
  | nil => rfl
  | cons item rest ih =>
    cases named : item.aliasName <;>
      simp_all [itemsInScope, SelectItem.parts, NameUse.refersTo?]

theorem joinsInScope_eq (joins : List (Join Expression)) :
    joinsInScope joins scope = (joins.flatMap Join.parts).all (Part.inScope scope) := by
  induction joins with
  | nil => rfl
  | cons join rest ih =>
    cases target : join.target <;> simp_all [joinsInScope, Join.parts, JoinTarget.uses,
      JoinTarget.inScope, indexInScope_eq, optionalInScope_eq, NameUse.refersTo?, Bool.and_assoc]

theorem rangesInScope_eq (ranges : List (Range Expression)) :
    rangesInScope ranges scope = (ranges.flatMap Range.parts).all (Part.inScope scope) := by
  induction ranges <;> simp_all [rangesInScope, Range.parts, indexInScope_eq, joinsInScope_eq,
    NameUse.refersTo?, Bool.and_assoc]

theorem listedInScope_eq (exprs : List Expression) :
    listedInScope exprs scope = (exprs.map .expression).all (Part.inScope scope) := by
  induction exprs <;> simp_all [listedInScope]

theorem ordersInScope_eq (orders : List (OrderItem Expression)) :
    ordersInScope orders scope = (orders.map OrderItem.part).all (Part.inScope scope) := by
  induction orders <;> simp_all [ordersInScope, OrderItem.part]

theorem Statement.inScope_eq (s : Statement) :
    s.inScope scope = s.parts.all (Part.inScope (s.ownNames ++ scope)) := by
  cases s with
  | select query =>
    cases query
    simp only [inScope, selectInScope, parts, SelectOf.parts, List.all_append, itemsInScope_eq,
      rangesInScope_eq, optionalInScope_eq, listedInScope_eq, ordersInScope_eq, ownNames]
  | update range assignments filter =>
    have assigned : assignments.all (·.inScope (range.aliasName :: scope)) =
        (assignments.flatMap Assignment.parts).all (Part.inScope (range.aliasName :: scope)) := by
      induction assignments <;>
        simp_all [Assignment.inScope, Assignment.parts, NameUse.refersTo?, Bool.and_assoc]
    simp [inScope, parts, ownNames, assigned, rangesInScope_eq, optionalInScope_eq, Bool.and_assoc]
  | delete => simp [inScope, parts, ownNames, rangesInScope_eq, optionalInScope_eq]

end

theorem all_inScope_of_uses {parts : List Part}
    (inner : ∀ e, .expression e ∈ parts → ∀ scope, ReferWithin scope (Expression.uses e) →
      piecesInScope e scope = true) (within : ReferWithin scope (parts.flatMap Part.uses)) :
    parts.all (Part.inScope scope) = true := by
  refine List.all_eq_true.mpr fun part among => ?_
  have own : ReferWithin scope part.uses :=
    fun use used => within use (List.mem_flatMap.mpr ⟨part, among, used⟩)
  cases part with
  | name use =>
    cases refers : use.refersTo? with
    | none => simp [refers]
    | some aliasName => simpa [refers] using own use List.mem_cons_self aliasName refers
  | expression e => exact inner e among scope own

theorem piecesInScope_of_uses (e : Expression) : ∀ scope, ReferWithin scope (Expression.uses e) →
    piecesInScope e scope = true := by
  induction e using expression_induction with
  | step e ih =>
    intro scope within
    rw [piecesInScope_eq, List.all_eq_true]
    intro piece among
    obtain ⟨before, after, parts⟩ := List.append_of_mem among
    have own : ReferWithin scope (pieceUses piece before after) :=
      fun use used => within use (Expression.mem_uses parts used)
    cases piece with
    | path path => exact List.contains_iff_mem.mpr (own _ List.mem_cons_self path.aliasName rfl)
    | «variable» aliasName | partialObject aliasName =>
      exact List.contains_iff_mem.mpr (own _ List.mem_cons_self aliasName rfl)
    | subselect query =>
      rw [pieceUses, selectUses_eq] at own
      refine (Statement.inScope_eq scope (.select query)).trans ?_
      exact all_inScope_of_uses (ih query among) (own.mono fun name => List.mem_append_right _)
    | _ => rfl

theorem Statement.inScope_of_uses {s : Statement}
    (within : ReferWithin (s.ownNames ++ scope) s.uses) : s.inScope scope = true := by
  rw [s.uses_eq] at within
  rw [s.inScope_eq]
  exact all_inScope_of_uses (fun e _ => piecesInScope_of_uses e) within

end EntityAudit.Query
