/-! # Relational statements

The SQL that a query statement stands for, as a tree and as text. Tables are referred to by aliases
that are never quoted; names of tables and columns are always quoted.
-/

namespace EntityAudit.Query.Sql

/-- A column of an aliased table. -/
structure ColumnRef where
  table : String
  column : String
  deriving DecidableEq

structure Equality where
  left : ColumnRef
  right : ColumnRef
  deriving DecidableEq

/-- A table reached through equalities of columns. -/
structure Hop where
  table : String
  aliasName : String
  equalities : List Equality
  deriving DecidableEq

/-- What a join brings in, with conditions of the form `ε`. -/
inductive JoinBody (ε : Type) where
  /-- One table, on a condition or on none. -/
  | table (name aliasName : String) (condition : Option ε)
  /-- One table after another, the last of them on a further condition or on none. -/
  | hops (hops : List Hop) (condition : Option ε)

structure Join (ε : Type) where
  isLeft : Bool
  body : JoinBody ε

structure Range (ε : Type) where
  table : String
  aliasName : String
  joins : List (Join ε)

inductive Item (ε : Type) where
  | column (column : ColumnRef) (label : String)
  /-- A value, with its label or with none. -/
  | value (expr : ε) (label : Option String)

/-- One entry of an ordering, with the word for its direction. -/
structure OrderItem (ε : Type) where
  expr : ε
  direction : Option String

structure SelectOf (ε : Type) where
  isDistinct : Bool
  items : List (Item ε)
  ranges : List (Range ε)
  filter : Option ε
  groups : List ε
  groupFilter : Option ε
  orders : List (OrderItem ε)

inductive Term where
  /-- A word or sign, written as it is. -/
  | word (text : String)
  | text (value : String)
  /-- A parameter by its place, counted from one. -/
  | parameter (index : Nat)
  | column (column : ColumnRef)
  /-- A value of the select list by its label. -/
  | label (name : String)
  | subselect (query : SelectOf (List Term))

abbrev Expression := List Term

abbrev Select := SelectOf Expression

structure Assignment where
  column : String
  value : Expression

inductive Statement where
  | select (query : Select)
  | update (table aliasName : String) (assignments : List Assignment) (filter : Option Expression)
  | delete (table aliasName : String) (filter : Option Expression)

def doubled (mark : Char) (cs : List Char) : List Char :=
  cs.flatMap fun c => if c == mark then [c, c] else [c]

def quoteName (name : String) : String :=
  "\"" ++ String.ofList (doubled '"' name.toList) ++ "\""

def quoteText (value : String) : String :=
  "'" ++ String.ofList (doubled '\'' value.toList) ++ "'"

def ColumnRef.render (c : ColumnRef) : String :=
  c.table ++ "." ++ quoteName c.column

def Equality.render (e : Equality) : String :=
  e.left.render ++ " = " ++ e.right.render

def Hop.render (h : Hop) : String :=
  quoteName h.table ++ " " ++ h.aliasName ++ " ON " ++
    " AND ".intercalate (h.equalities.map (·.render))

def joinWords (isLeft : Bool) : String :=
  if isLeft then "LEFT JOIN" else "INNER JOIN"

/-- The text of a clause that is left out when it has no entries. -/
def listClause (words : String) : List String → String
  | [] => ""
  | entries => words ++ ", ".intercalate entries

mutual
def renderTerm : Term → String
  | .word text => text
  | .text value => quoteText value
  | .parameter index => "$" ++ toString index
  | .column column => column.render
  | .label name => name
  | .subselect query => "(" ++ renderSelect query ++ ")"

def renderTerms : List Term → List String
  | [] => []
  | term :: rest => renderTerm term :: renderTerms rest

def renderSelect : SelectOf (List Term) → String
  | ⟨isDistinct, items, ranges, filter, groups, groupFilter, orders⟩ =>
    "SELECT " ++ (if isDistinct then "DISTINCT " else "") ++
      ", ".intercalate (renderItems items) ++ " FROM " ++
      ", ".intercalate (renderRanges ranges) ++ renderClause " WHERE " filter ++
      listClause " GROUP BY " (renderList groups) ++ renderClause " HAVING " groupFilter ++
      listClause " ORDER BY " (renderOrders orders)

def renderItems : List (Item (List Term)) → List String
  | [] => []
  | .column column label :: rest => (column.render ++ " AS " ++ label) :: renderItems rest
  | .value expr (some label) :: rest =>
    (" ".intercalate (renderTerms expr) ++ " AS " ++ label) :: renderItems rest
  | .value expr none :: rest => " ".intercalate (renderTerms expr) :: renderItems rest

def renderRanges : List (Range (List Term)) → List String
  | [] => []
  | ⟨table, aliasName, joins⟩ :: rest =>
    (quoteName table ++ " " ++ aliasName ++ renderJoins joins) :: renderRanges rest

def renderJoins : List (Join (List Term)) → String
  | [] => ""
  | ⟨isLeft, .table name aliasName none⟩ :: rest =>
    " " ++ joinWords isLeft ++ " " ++ quoteName name ++ " " ++ aliasName ++ " ON TRUE" ++
      renderJoins rest
  | ⟨isLeft, .table name aliasName (some condition)⟩ :: rest =>
    " " ++ joinWords isLeft ++ " " ++ quoteName name ++ " " ++ aliasName ++ " ON " ++
      " ".intercalate (renderTerms condition) ++ renderJoins rest
  | ⟨isLeft, .hops hops none⟩ :: rest =>
    String.join (hops.map fun hop => " " ++ joinWords isLeft ++ " " ++ hop.render) ++
      renderJoins rest
  | ⟨isLeft, .hops hops (some condition)⟩ :: rest =>
    String.join (hops.map fun hop => " " ++ joinWords isLeft ++ " " ++ hop.render) ++
      " AND (" ++ " ".intercalate (renderTerms condition) ++ ")" ++ renderJoins rest

def renderClause (words : String) : Option (List Term) → String
  | none => ""
  | some expr => words ++ " ".intercalate (renderTerms expr)

def renderList : List (List Term) → List String
  | [] => []
  | expr :: rest => " ".intercalate (renderTerms expr) :: renderList rest

def renderOrders : List (OrderItem (List Term)) → List String
  | [] => []
  | ⟨expr, some direction⟩ :: rest =>
    (" ".intercalate (renderTerms expr) ++ " " ++ direction) :: renderOrders rest
  | ⟨expr, none⟩ :: rest => " ".intercalate (renderTerms expr) :: renderOrders rest
end

def renderExpression (expr : Expression) : String :=
  " ".intercalate (renderTerms expr)

def Statement.render : Statement → String
  | .select query => renderSelect query
  | .update table aliasName assignments filter =>
    "UPDATE " ++ quoteName table ++ " " ++ aliasName ++ " SET " ++
      ", ".intercalate
        (assignments.map fun a => quoteName a.column ++ " = " ++ renderExpression a.value) ++
      renderClause " WHERE " filter
  | .delete table aliasName filter =>
    "DELETE FROM " ++ quoteName table ++ " " ++ aliasName ++ renderClause " WHERE " filter

end EntityAudit.Query.Sql
