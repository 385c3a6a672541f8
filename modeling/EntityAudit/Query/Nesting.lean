import EntityAudit.Query.Tree
import EntityAudit.Text.Fold

/-! # Expressions at every depth

`Statement.expressions` lists every expression of a statement, those of subselects at any depth
included. A statement has a relational form unless one of them uses a construct that the relational
backend lacks.
-/

namespace EntityAudit.Query

mutual
/-- The expressions of the subselect that a piece is, if it is one. -/
def pieceExpressions : Piece → List Expression
  | .subselect query => selectExpressions query
  | _ => []

/-- The expressions of the subselects in an expression, at every depth. -/
def nestedExpressions : List Piece → List Expression
  | [] => []
  | piece :: rest => pieceExpressions piece ++ nestedExpressions rest

def selectExpressions : SelectOf (List Piece) → List Expression
  | ⟨_, items, ranges, filter, groups, groupFilter, orders⟩ =>
    itemExpressions items ++ rangeExpressions ranges ++ optionalExpression filter ++
      listedExpressions groups ++ optionalExpression groupFilter ++ orderExpressions orders

def itemExpressions : List (SelectItem (List Piece)) → List Expression
  | [] => []
  | ⟨expr, _⟩ :: rest => expr :: nestedExpressions expr ++ itemExpressions rest

def rangeExpressions : List (Range (List Piece)) → List Expression
  | [] => []
  | ⟨_, _, _, joins⟩ :: rest => joinExpressions joins ++ rangeExpressions rest

def joinExpressions : List (Join (List Piece)) → List Expression
  | [] => []
  | ⟨_, _, _, _, condition⟩ :: rest => optionalExpression condition ++ joinExpressions rest

def optionalExpression : Option (List Piece) → List Expression
  | none => []
  | some expr => expr :: nestedExpressions expr

def listedExpressions : List (List Piece) → List Expression
  | [] => []
  | expr :: rest => expr :: nestedExpressions expr ++ listedExpressions rest

def orderExpressions : List (OrderItem (List Piece)) → List Expression
  | [] => []
  | ⟨expr, _⟩ :: rest => expr :: nestedExpressions expr ++ orderExpressions rest
end

theorem nestedExpressions_append (first second : Expression) :
    nestedExpressions (first ++ second) = nestedExpressions first ++ nestedExpressions second := by
  induction first with
  | nil => rfl
  | cons piece rest ih => rw [List.cons_append, nestedExpressions, ih, nestedExpressions,
      List.append_assoc]

def Statement.expressions : Statement → List Expression
  | .select query => selectExpressions query
  | .update range assignments filter =>
    rangeExpressions [range] ++ listedExpressions (assignments.map (·.value)) ++
      optionalExpression filter
  | .delete range filter => rangeExpressions [range] ++ optionalExpression filter

/-- Whether a piece, standing after the word `INSTANCE` or not, has a relational form by itself. -/
def Piece.isRelational (afterInstance : Bool) : Piece → Bool
  | .keyword word =>
    !(["MEMBER", "EMPTY", "NEW"].contains word) && !(afterInstance && word == "OF")
  | .function name => !unsupportedFunctions.contains (Text.raiseCase name)
  | .partialObject _ _ => false
  | _ => true

/-- Whether every piece, subselects aside, has a relational form. -/
def relationalFrom (afterInstance : Bool) : Expression → Bool
  | [] => true
  | piece :: rest =>
    piece.isRelational afterInstance && relationalFrom (piece.isWord "INSTANCE") rest

/-- Whether no expression of the statement uses a construct without a relational form. -/
def Statement.isRelational (s : Statement) : Bool :=
  s.expressions.all (relationalFrom false)

end EntityAudit.Query
