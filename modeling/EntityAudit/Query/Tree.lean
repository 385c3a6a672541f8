/-! # Query statements

An expression is kept as the flat sequence of its pieces; only paths, variables and subselects among
them refer to names. Nothing in a tree tells where in the text it came from.
-/

namespace EntityAudit.Query

/-- A property reached from an alias, `alias.field`. -/
structure PropertyPath where
  aliasName : String
  /-- The property, with points in it for embedded ones. -/
  field : String
  deriving DecidableEq

structure SelectItem (ε : Type) where
  expr : ε
  aliasName : Option String

/-- What a join leads to. -/
inductive JoinTarget where
  | association (path : PropertyPath)
  | entity (className : String)
  deriving DecidableEq

structure Join (ε : Type) where
  isLeft : Bool
  target : JoinTarget
  aliasName : String
  index : Option PropertyPath
  condition : Option ε

/-- An entity that a statement ranges over, with what is joined to it. -/
structure Range (ε : Type) where
  className : String
  aliasName : String
  index : Option PropertyPath
  joins : List (Join ε)

inductive Direction where
  | ascending
  | descending
  deriving DecidableEq

structure OrderItem (ε : Type) where
  expr : ε
  direction : Option Direction

structure SelectOf (ε : Type) where
  isDistinct : Bool
  items : List (SelectItem ε)
  ranges : List (Range ε)
  filter : Option ε
  groups : List ε
  groupFilter : Option ε
  orders : List (OrderItem ε)

inductive Piece where
  /-- A reserved word, in upper case. -/
  | keyword (word : String)
  /-- The name of a class, after `NEW` or `INSTANCE OF`. -/
  | className (name : String)
  | function (name : String)
  | number (digits : String)
  | text (value : String)
  | parameter (name : String)
  | operator (symbol : String)
  | comma
  | opening
  | closing
  | path (path : PropertyPath)
  | variable (aliasName : String)
  /-- An alias of which only some fields are loaded. -/
  | partialObject (aliasName : String) (fields : List String)
  | subselect (query : SelectOf (List Piece))

abbrev Expression := List Piece

abbrev Select := SelectOf Expression

structure Assignment where
  target : PropertyPath
  value : Expression

inductive Statement where
  | select (query : Select)
  | update (range : Range Expression) (assignments : List Assignment) (filter : Option Expression)
  | delete (range : Range Expression) (filter : Option Expression)

def Piece.isWord (word : String) : Piece → Bool
  | .keyword w => w == word
  | _ => false

/-- Functions that the relational backend has no equivalent for, in upper case. -/
def unsupportedFunctions : List String :=
  ["SIZE", "IDENTITY", "DATE_ADD", "DATE_SUB", "DATE_DIFF", "LOCATE", "BIT_AND", "BIT_OR"]

end EntityAudit.Query
