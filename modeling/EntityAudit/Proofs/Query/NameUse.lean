import EntityAudit.Query.Nesting

/-! # Uses of names

`Statement.uses` lists what a statement does with names, in the order of its text and at every
depth. A property in an expression is listed with the pieces around it, since only some places may
lead to a collection.
-/

namespace EntityAudit.Query

variable {after before e : Expression}

/-- Something a statement does with names. -/
inductive NameUse where
  /-- An alias is given to the objects of a class. -/
  | range (className aliasName : String)
  /-- An alias is given to the targets of an association of another alias. -/
  | join (path : PropertyPath) (aliasName : String)
  | result (aliasName : String)
  | variable (aliasName : String)
  /-- A property is used in an expression, between other pieces. -/
  | path (path : PropertyPath) (before after : Expression)
  /-- A property is used outside expressions. -/
  | property (path : PropertyPath)

/-- The alias that is declared. -/
def NameUse.declares? : NameUse → Option String
  | .range _ aliasName | .join _ aliasName | .result aliasName => some aliasName
  | .variable _ | .path _ _ _ | .property _ => none

/-- Words by which the text makes the use. -/
def NameUse.words : NameUse → List String
  | .range className aliasName => [className, aliasName]
  | .join p aliasName => [p.aliasName, p.field, aliasName]
  | .result aliasName | .variable aliasName => [aliasName]
  | .path p _ _ => [p.aliasName]
  | .property p => [p.field]

/-- The aliases that are declared, in order. -/
def declared (uses : List NameUse) : List String :=
  uses.filterMap NameUse.declares?

/-- A path between `before` and `after` may lead to a collection: directly after `OF`, as the first
    argument of `SIZE`, or directly before `IS EMPTY` or `IS NOT EMPTY`. -/
def IsCollectionPlace (before after : Expression) : Prop :=
  [.keyword "OF"] <:+ before ∨
    (∃ name, Text.raiseCase name = "SIZE" ∧ [.function name, .opening] <:+ before) ∨
    [.keyword "IS", .keyword "EMPTY"] <+: after ∨
    [.keyword "IS", .keyword "NOT", .keyword "EMPTY"] <+: after

/-- The property by which results are indexed, as a use. -/
def indexUses (index : Option PropertyPath) : List NameUse :=
  index.toList.map .property

def JoinTarget.uses (aliasName : String) (index : Option PropertyPath) :
    JoinTarget → List NameUse
  | .association path => .join path aliasName :: indexUses index
  | .entity className => .range className aliasName :: indexUses index

mutual
def pieceUses : Piece → (before after : Expression) → List NameUse
  | .path path, before, after => [.path path before after]
  | .variable aliasName, _, _ => [.variable aliasName]
  | .partialObject aliasName fields, _, _ =>
    .variable aliasName :: fields.map fun field => .property ⟨aliasName, field⟩
  | .subselect query, _, _ => selectUses query
  | _, _, _ => []

def piecesUses : List Piece → (before : Expression) → List NameUse
  | [], _ => []
  | piece :: rest, before => pieceUses piece before rest ++ piecesUses rest (before ++ [piece])

def selectUses : SelectOf (List Piece) → List NameUse
  | ⟨_, items, ranges, filter, groups, groupFilter, orders⟩ =>
    itemUses items ++ rangeUses ranges ++ optionalUses filter ++ listedUses groups ++
      optionalUses groupFilter ++ orderUses orders

def itemUses : List (SelectItem (List Piece)) → List NameUse
  | [] => []
  | ⟨expr, aliasName⟩ :: rest =>
    piecesUses expr [] ++ aliasName.toList.map .result ++ itemUses rest

def rangeUses : List (Range (List Piece)) → List NameUse
  | [] => []
  | ⟨className, aliasName, index, joins⟩ :: rest =>
    .range className aliasName :: indexUses index ++ joinUses joins ++ rangeUses rest

def joinUses : List (Join (List Piece)) → List NameUse
  | [] => []
  | ⟨_, target, aliasName, index, condition⟩ :: rest =>
    target.uses aliasName index ++ optionalUses condition ++ joinUses rest

def optionalUses : Option (List Piece) → List NameUse
  | none => []
  | some expr => piecesUses expr []

def listedUses : List (List Piece) → List NameUse
  | [] => []
  | expr :: rest => piecesUses expr [] ++ listedUses rest

def orderUses : List (OrderItem (List Piece)) → List NameUse
  | [] => []
  | ⟨expr, _⟩ :: rest => piecesUses expr [] ++ orderUses rest
end

def Expression.uses (e : Expression) : List NameUse :=
  piecesUses e []

def Assignment.uses (a : Assignment) : List NameUse :=
  .property a.target :: Expression.uses a.value

def Statement.uses : Statement → List NameUse
  | .select query => selectUses query
  | .update range assignments filter =>
    rangeUses [range] ++ assignments.flatMap Assignment.uses ++ optionalUses filter
  | .delete range filter => rangeUses [range] ++ optionalUses filter

theorem mem_piecesUses {piece use} (start : Expression)
    (inside : use ∈ pieceUses piece (start ++ before) after) :
    use ∈ piecesUses (before ++ piece :: after) start := by
  -- `start` grows by the pieces that are passed on the way to the one in question.
  induction before generalizing start with
  | nil =>
    rw [List.append_nil] at inside
    exact List.mem_append_left _ inside
  | cons head tail ih =>
    refine List.mem_append_right _ (ih (start ++ [head]) ?_)
    simpa using inside

theorem Expression.mem_uses {piece use} (parts : e = before ++ piece :: after)
    (inside : use ∈ pieceUses piece before after) : use ∈ Expression.uses e := by
  subst parts
  exact mem_piecesUses [] (by simpa using inside)

/-- What a statement is made of outside its subselects: uses of names, and expressions. -/
inductive Part where
  | name (use : NameUse)
  | expression (e : Expression)

@[simp]
def Part.uses : Part → List NameUse
  | .name use => [use]
  | .expression e => Expression.uses e

/-- The expression and those that stand in it. -/
@[simp]
def Part.expressions : Part → List Expression
  | .name _ => []
  | .expression e => e :: nestedExpressions e

def SelectItem.parts (item : SelectItem Expression) : List Part :=
  .expression item.expr :: item.aliasName.toList.map fun name => .name (.result name)

def clauseParts (clause : Option Expression) : List Part :=
  clause.toList.map .expression

def Join.parts (join : Join Expression) : List Part :=
  (join.target.uses join.aliasName join.index).map .name ++ clauseParts join.condition

def Range.parts (range : Range Expression) : List Part :=
  .name (.range range.className range.aliasName) :: (indexUses range.index).map .name ++
    range.joins.flatMap Join.parts

def OrderItem.part (item : OrderItem Expression) : Part :=
  .expression item.expr

/-- The parts of a select statement, in the order of its text. -/
def SelectOf.parts (query : Select) : List Part :=
  query.items.flatMap SelectItem.parts ++ query.ranges.flatMap Range.parts ++
    clauseParts query.filter ++ query.groups.map .expression ++ clauseParts query.groupFilter ++
    query.orders.map OrderItem.part

def Assignment.parts (a : Assignment) : List Part :=
  [.name (.property a.target), .expression a.value]

def Statement.parts : Statement → List Part
  | .select query => query.parts
  | .update range assignments filter =>
    range.parts ++ assignments.flatMap Assignment.parts ++ clauseParts filter
  | .delete range filter => range.parts ++ clauseParts filter

theorem optionalUses_eq (clause : Option Expression) :
    optionalUses clause = (clauseParts clause).flatMap Part.uses := by
  cases clause <;> simp [optionalUses, clauseParts, Expression.uses]

theorem itemUses_eq (items : List (SelectItem Expression)) :
    itemUses items = (items.flatMap SelectItem.parts).flatMap Part.uses := by
  induction items <;> simp_all [itemUses, SelectItem.parts, List.flatMap_map, Expression.uses,
    ← List.map_eq_flatMap]

theorem joinUses_eq (joins : List (Join Expression)) :
    joinUses joins = (joins.flatMap Join.parts).flatMap Part.uses := by
  induction joins <;> simp_all [joinUses, Join.parts, List.flatMap_map, optionalUses_eq]

theorem rangeUses_eq (ranges : List (Range Expression)) :
    rangeUses ranges = (ranges.flatMap Range.parts).flatMap Part.uses := by
  induction ranges <;> simp_all [rangeUses, Range.parts, List.flatMap_map, joinUses_eq]

theorem listedUses_eq (exprs : List Expression) :
    listedUses exprs = (exprs.map .expression).flatMap Part.uses := by
  induction exprs <;> simp_all [listedUses, Expression.uses]

theorem orderUses_eq (orders : List (OrderItem Expression)) :
    orderUses orders = (orders.map OrderItem.part).flatMap Part.uses := by
  induction orders <;> simp_all [orderUses, OrderItem.part, Expression.uses]

theorem selectUses_eq (query : Select) : selectUses query = query.parts.flatMap Part.uses := by
  cases query
  simp [selectUses, SelectOf.parts, itemUses_eq, rangeUses_eq, optionalUses_eq, listedUses_eq,
    orderUses_eq]

theorem assignmentUses_eq (assignments : List Assignment) :
    assignments.flatMap Assignment.uses =
      (assignments.flatMap Assignment.parts).flatMap Part.uses := by
  induction assignments <;> simp_all [Assignment.uses, Assignment.parts]

theorem Statement.uses_eq (s : Statement) : s.uses = s.parts.flatMap Part.uses := by
  cases s with
  | select query => exact selectUses_eq query
  | update | delete => simp [uses, parts, rangeUses_eq, assignmentUses_eq, optionalUses_eq]

theorem expressions_names (uses : List NameUse) :
    (uses.map .name).flatMap Part.expressions = [] := by
  simp [List.flatMap_map]

theorem optionalExpression_eq (clause : Option Expression) :
    optionalExpression clause = (clauseParts clause).flatMap Part.expressions := by
  cases clause <;> simp [optionalExpression, clauseParts]

theorem itemExpressions_eq (items : List (SelectItem Expression)) :
    itemExpressions items = (items.flatMap SelectItem.parts).flatMap Part.expressions := by
  induction items <;> simp_all [itemExpressions, SelectItem.parts, List.flatMap_map]

theorem joinExpressions_eq (joins : List (Join Expression)) :
    joinExpressions joins = (joins.flatMap Join.parts).flatMap Part.expressions := by
  induction joins <;>
    simp_all [joinExpressions, Join.parts, List.flatMap_map, optionalExpression_eq]

theorem rangeExpressions_eq (ranges : List (Range Expression)) :
    rangeExpressions ranges = (ranges.flatMap Range.parts).flatMap Part.expressions := by
  induction ranges <;>
    simp_all [rangeExpressions, Range.parts, List.flatMap_map, joinExpressions_eq]

theorem listedExpressions_eq (exprs : List Expression) :
    listedExpressions exprs = (exprs.map .expression).flatMap Part.expressions := by
  induction exprs <;> simp_all [listedExpressions]

theorem orderExpressions_eq (orders : List (OrderItem Expression)) :
    orderExpressions orders = (orders.map OrderItem.part).flatMap Part.expressions := by
  induction orders <;> simp_all [orderExpressions, OrderItem.part]

theorem selectExpressions_eq (query : Select) :
    selectExpressions query = query.parts.flatMap Part.expressions := by
  cases query
  simp [selectExpressions, SelectOf.parts, itemExpressions_eq, rangeExpressions_eq,
    optionalExpression_eq, listedExpressions_eq, orderExpressions_eq]

theorem assignedExpressions_eq (assignments : List Assignment) :
    listedExpressions (assignments.map (·.value)) =
      (assignments.flatMap Assignment.parts).flatMap Part.expressions := by
  induction assignments <;> simp_all [listedExpressions, Assignment.parts]

theorem Statement.expressions_eq (s : Statement) :
    s.expressions = s.parts.flatMap Part.expressions := by
  cases s with
  | select query => exact selectExpressions_eq query
  | update | delete =>
    simp [expressions, parts, rangeExpressions_eq, assignedExpressions_eq, optionalExpression_eq]

theorem nestedExpressions_eq (e : Expression) :
    nestedExpressions e = e.flatMap pieceExpressions := by
  induction e with
  | nil => rfl
  | cons piece rest ih => rw [nestedExpressions, ih, List.flatMap_cons]

theorem length_le_flatMap {α β : Type} {f : α → List β} {as : List α} {a : α} (inside : a ∈ as) :
    (f a).length ≤ (as.flatMap f).length := by
  obtain ⟨before, after, rfl⟩ := List.append_of_mem inside
  simp only [List.flatMap_append, List.flatMap_cons, List.length_append]
  omega

/-- What is true of an expression once it is true of the parts of its subselects is true of all. -/
theorem expression_induction {P : Expression → Prop}
    (step : ∀ e, (∀ query, .subselect query ∈ e → ∀ e', .expression e' ∈ query.parts → P e') → P e)
    (e : Expression) : P e := by
  -- An expression of a subselect has fewer expressions in it than the one around.
  induction size : (nestedExpressions e).length using Nat.strongRecOn generalizing e with
  | ind n ih =>
    refine step e fun query among e' part => ih _ ?_ e' rfl
    have whole := length_le_flatMap (f := pieceExpressions) among
    have inner := length_le_flatMap (f := Part.expressions) part
    rw [← nestedExpressions_eq, pieceExpressions, selectExpressions_eq, size] at whole
    rw [Part.expressions, List.length_cons] at inner
    omega

theorem uses_subset_of_parts {parts : List Part}
    (nested : ∀ e', .expression e' ∈ parts → ∀ e ∈ nestedExpressions e',
      Expression.uses e ⊆ Expression.uses e') (inside : e ∈ parts.flatMap Part.expressions) :
    Expression.uses e ⊆ parts.flatMap Part.uses := by
  obtain ⟨part, among, here⟩ := List.mem_flatMap.mp inside
  have own : part.uses ⊆ parts.flatMap Part.uses :=
    fun use used => List.mem_flatMap.mpr ⟨part, among, used⟩
  cases part with
  | name => cases here
  | expression e' =>
    rcases List.mem_cons.mp here with rfl | deeper
    · exact own
    · exact List.Subset.trans (nested e' among e deeper) own

theorem uses_of_nested (e : Expression) :
    ∀ e' ∈ nestedExpressions e, Expression.uses e' ⊆ Expression.uses e := by
  induction e using expression_induction with
  | step e ih =>
    intro e' deeper
    rw [nestedExpressions_eq] at deeper
    obtain ⟨piece, among, here⟩ := List.mem_flatMap.mp deeper
    cases piece with
    | subselect query =>
      obtain ⟨before, after, parts⟩ := List.append_of_mem among
      rw [pieceExpressions, selectExpressions_eq] at here
      intro use used
      refine Expression.mem_uses parts ?_
      rw [pieceUses, selectUses_eq]
      exact uses_subset_of_parts (ih query among) here used
    | _ => cases here

theorem Statement.uses_of_expression {s : Statement} (inside : e ∈ s.expressions) :
    Expression.uses e ⊆ s.uses := by
  rw [s.expressions_eq] at inside
  rw [s.uses_eq]
  exact uses_subset_of_parts (fun e' _ => uses_of_nested e') inside

theorem Statement.uses_split {s : Statement} (inside : e ∈ s.expressions) {piece}
    (parts : e = before ++ piece :: after) {use} (here : use ∈ pieceUses piece before after) :
    ∃ earlier later, s.uses = earlier ++ use :: later :=
  List.append_of_mem (uses_of_expression inside (Expression.mem_uses parts here))

end EntityAudit.Query
