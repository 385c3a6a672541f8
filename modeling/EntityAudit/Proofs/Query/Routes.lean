import EntityAudit.Proofs.Query.Lowering

/-! # Routes in SQL

What stands in an SQL statement besides its own words, and where it comes from: lowering writes no
other joins along associations than those that follow a route between two classes of the statement.
-/

namespace EntityAudit.Query

namespace Sql

/-- A join along an association, less its further condition. -/
structure RouteJoin where
  isLeft : Bool
  /-- The tables it brings in, one after another. -/
  hops : List Hop
  deriving DecidableEq

def RouteJoin.render (join : RouteJoin) : String :=
  String.join (join.hops.map fun hop => " " ++ joinWords join.isLeft ++ " " ++ hop.render)

/-- The aliases of tables that a join is written with. -/
def RouteJoin.names (join : RouteJoin) : List String :=
  join.hops.flatMap fun hop =>
    hop.aliasName :: hop.equalities.flatMap fun e => [e.left.table, e.right.table]

/-- What stands in SQL besides its own words and what it quotes, in the order of the statement. -/
structure Marks where
  numbers : List Nat := []
  joins : List RouteJoin := []
  /-- Words and signs of the query. -/
  words : List String := []
  /-- Aliases of tables and labels of values. -/
  names : List String := []

instance : Append Marks :=
  ⟨fun a b => ⟨a.numbers ++ b.numbers, a.joins ++ b.joins, a.words ++ b.words, a.names ++ b.names⟩⟩

mutual
def termMarks : Term → Marks
  | .word text => { words := [text] }
  | .text _ => {}
  | .parameter index => { numbers := [index] }
  | .column column => { names := [column.table] }
  | .label name => { names := [name] }
  | .subselect query => selectMarks query

def termsMarks : List Term → Marks
  | [] => {}
  | term :: rest => termMarks term ++ termsMarks rest

def selectMarks : SelectOf (List Term) → Marks
  | ⟨_, items, ranges, filter, groups, groupFilter, orders⟩ =>
    itemMarks items ++ rangeMarks ranges ++ optionalMarks filter ++ listedMarks groups ++
      optionalMarks groupFilter ++ orderMarks orders

def itemMarks : List (Item (List Term)) → Marks
  | [] => {}
  | .column column label :: rest => { names := [column.table, label] } ++ itemMarks rest
  | .value expr label :: rest => termsMarks expr ++ { names := label.toList } ++ itemMarks rest

def rangeMarks : List (Range (List Term)) → Marks
  | [] => {}
  | ⟨_, aliasName, joins⟩ :: rest => { names := [aliasName] } ++ joinMarks joins ++ rangeMarks rest

def joinMarks : List (Join (List Term)) → Marks
  | [] => {}
  | ⟨_, .table _ aliasName condition⟩ :: rest =>
    { names := [aliasName] } ++ optionalMarks condition ++ joinMarks rest
  | ⟨isLeft, .hops hops condition⟩ :: rest =>
    { joins := [⟨isLeft, hops⟩], names := RouteJoin.names ⟨isLeft, hops⟩ } ++
      optionalMarks condition ++ joinMarks rest

def optionalMarks : Option (List Term) → Marks
  | none => {}
  | some expr => termsMarks expr

def listedMarks : List (List Term) → Marks
  | [] => {}
  | expr :: rest => termsMarks expr ++ listedMarks rest

def orderMarks : List (OrderItem (List Term)) → Marks
  | [] => {}
  | ⟨expr, direction⟩ :: rest =>
    termsMarks expr ++ { words := direction.toList } ++ orderMarks rest
end

def assignmentMarks (assignments : List Assignment) : Marks :=
  listedMarks (assignments.map Assignment.value)

def Statement.marks : Statement → Marks
  | .select query => selectMarks query
  | .update _ aliasName assignments filter =>
    { names := [aliasName] } ++ assignmentMarks assignments ++ optionalMarks filter
  | .delete _ aliasName filter => { names := [aliasName] } ++ optionalMarks filter

def Statement.routes (sql : Statement) : List RouteJoin :=
  sql.marks.joins

/-- The join follows the route of an association from a class of the statement to another. -/
def RouteJoin.Follows (aliases : Aliases) (join : RouteJoin) : Prop :=
  ∃ (path : PropertyPath) (name : String) (owner : EntityRecord) (association : Association)
      (target : EntityRecord) (route : Route) (ownerTable table link : String),
    aliases.record? path.aliasName = some owner ∧
    owner.association? path.field = some association ∧
    aliases.record? name = some target ∧ Route.of? association target = some route ∧
    join.hops = route.hops ownerTable table link target.table

end Sql

/-- What is true of the marks of every part of a statement because it is true of each mark and of
    marks put together. A word has it because the piece has it that is spelled so. -/
structure MarkRule (aliases : Aliases) where
  ofPiece : Piece → Prop
  holds : Sql.Marks → Prop
  names : ∀ names, holds { names }
  parameter : ∀ index, holds { numbers := [index] }
  word : ∀ {p text}, ofPiece p → p.SpelledAs text → holds { words := [text] }
  direction : ∀ direction : Option Direction, holds { words := (direction.map (·.word)).toList }
  join : ∀ {join : Sql.RouteJoin}, join.Follows aliases →
    holds { joins := [join], names := join.names }
  append : ∀ {first second}, holds first → holds second → holds (first ++ second)

theorem itemMarks_columns {table own others}
    (columns : ∀ entry ∈ own, ∃ column label, entry = .column ⟨table, column⟩ label) :
    ∃ names, Sql.itemMarks (own ++ others) = { names } ++ Sql.itemMarks others := by
  induction own with
  | nil => exact ⟨[], rfl⟩
  | cons entry rest ih =>
    obtain ⟨⟨column, label, rfl⟩, later⟩ := List.forall_mem_cons.mp columns
    obtain ⟨names, marked⟩ := ih later
    refine ⟨table :: label :: names, ?_⟩
    rw [List.cons_append, Sql.itemMarks, marked]
    rfl

namespace MarkRule

variable {aliases : Aliases} (rule : MarkRule aliases)

/-- Whether all pieces of the expressions have what the rule asks of pieces. -/
def Covers (expressions : List Expression) : Prop :=
  ∀ e ∈ expressions, ∀ piece ∈ e, rule.ofPiece piece

variable {rule} in
theorem covers_append {first second} :
    rule.Covers (first ++ second) ↔ rule.Covers first ∧ rule.Covers second :=
  List.forall_mem_append

variable {rule} in
theorem Covers.onward {p rest}
    (covers : rule.Covers ((p :: rest) :: nestedExpressions (p :: rest))) :
    rule.ofPiece p ∧ rule.Covers (pieceExpressions p) ∧
      rule.Covers (p.onward rest :: nestedExpressions (p.onward rest)) := by
  obtain ⟨own, nested⟩ := List.forall_mem_cons.mp covers
  rw [nestedExpressions] at nested
  obtain ⟨inner, others⟩ := List.forall_mem_append.mp nested
  refine ⟨own p (by simp), inner, List.forall_mem_cons.mpr ⟨?_, ?_⟩⟩
  · exact fun piece inside => own piece (.tail _ ((p.onward_suffix rest).subset inside))
  · obtain ⟨skipped, whole⟩ := p.onward_suffix rest
    rw [← whole, nestedExpressions_append] at others
    exact (List.forall_mem_append.mp others).2

/-- The marks of each part have it if the pieces in its expressions do. -/
def judgement : Judgement aliases where
  piece _ p term _ := rule.ofPiece p → rule.Covers (pieceExpressions p) →
    rule.holds (Sql.termMarks term)
  pieces _ part terms _ := rule.Covers (part :: nestedExpressions part) →
    rule.holds (Sql.termsMarks terms)
  select _ _ query sql _ := rule.Covers (selectExpressions query) →
    rule.holds (Sql.selectMarks sql)
  items _ _ items entries _ := rule.Covers (itemExpressions items) →
    rule.holds (Sql.itemMarks entries)
  ranges _ ranges tables _ := rule.Covers (rangeExpressions ranges) →
    rule.holds (Sql.rangeMarks tables)
  joins _ joins tables _ := rule.Covers (joinExpressions joins) → rule.holds (Sql.joinMarks tables)
  clause _ clause found _ := rule.Covers (optionalExpression clause) →
    rule.holds (Sql.optionalMarks found)
  list _ exprs entries _ := rule.Covers (listedExpressions exprs) →
    rule.holds (Sql.listedMarks entries)
  orders _ orders entries _ := rule.Covers (orderExpressions orders) →
    rule.holds (Sql.orderMarks entries)
  assignments _ _ assignments assigned _ :=
    rule.Covers (listedExpressions (assignments.map Assignment.value)) →
    rule.holds (Sql.assignmentMarks assigned)
  statement _ statement sql _ := rule.Covers statement.expressions → rule.holds sql.marks
  word spelled own _ := rule.word own spelled
  text _ _ _ := rule.names []
  parameter _ _ _ := rule.parameter _
  path _ _ _ _ _ := rule.names _
  entity _ _ _ _ _ := rule.names _
  result _ _ _ := rule.names _
  subselect inner _ := inner
  pieces_nil _ := rule.names []
  pieces_cons _ _ first later covers :=
    have ⟨own, inner, onward⟩ := covers.onward
    rule.append (first own inner) (later onward)
  select_mk _ listed ranged filtered grouped limited ordered covers := by
    simp only [selectExpressions, covers_append] at covers
    obtain ⟨⟨⟨⟨⟨inItems, inRanges⟩, inFilter⟩, inGroups⟩, inGroupFilter⟩, inOrders⟩ := covers
    exact rule.append (rule.append (rule.append (rule.append (rule.append (listed inItems)
      (ranged inRanges)) (filtered inFilter)) (grouped inGroups)) (limited inGroupFilter))
      (ordered inOrders)
  items_nil _ := rule.names []
  items_entity _ _ spread later covers := by
    obtain ⟨_, marked⟩ := itemMarks_columns (Lower.columns_some spread).2
    rw [marked]
    exact rule.append (rule.names _) (later (covers_append.mp covers).2)
  items_value valued _ later covers :=
    have ⟨own, others⟩ := covers_append.mp covers
    rule.append (rule.append (valued own) (rule.names _)) (later others)
  ranges_nil _ := rule.names []
  ranges_cons _ _ joined later covers :=
    have ⟨own, others⟩ := covers_append.mp covers
    rule.append (rule.append (rule.names _) (joined own)) (later others)
  joins_nil _ := rule.names []
  joins_entity _ _ limited later covers :=
    have ⟨own, others⟩ := covers_append.mp covers
    rule.append (rule.append (rule.names _) (limited own)) (later others)
  joins_association known _ owned _ named leads _ limited later covers :=
    have ⟨own, others⟩ := covers_append.mp covers
    have joined := rule.join ⟨_, _, _, _, _, _, _, _, _, owned, named, known, leads, rfl⟩
    rule.append (rule.append joined (limited own)) (later others)
  clause_none _ := rule.names []
  clause_some given := given
  list_nil _ := rule.names []
  list_cons first later covers :=
    have ⟨own, others⟩ := covers_append.mp covers
    rule.append (first own) (later others)
  orders_nil _ := rule.names []
  orders_cons first later covers :=
    have ⟨own, others⟩ := covers_append.mp covers
    rule.append (rule.append (first own) (rule.direction _)) (later others)
  assignments_nil _ := rule.names []
  assignments_cons _ valued later covers :=
    have ⟨own, others⟩ := covers_append.mp covers
    rule.append (valued own) (later others)
  selected inner := inner
  updated _ _ _ assigns filtered covers :=
    have ⟨earlier, inFilter⟩ := covers_append.mp covers
    rule.append (rule.append (rule.names _) (assigns (covers_append.mp earlier).2))
      (filtered inFilter)
  deleted _ _ _ filtered covers :=
    rule.append (rule.names _) (filtered (covers_append.mp covers).2)

end MarkRule

/-- All joins along associations in the SQL of a statement follow routes of associations between its
    classes. -/
def following (aliases : Aliases) : MarkRule aliases where
  ofPiece _ := True
  holds marks := ∀ join ∈ marks.joins, join.Follows aliases
  names _ := nofun
  parameter _ := nofun
  word _ _ := nofun
  direction _ := nofun
  join follows := List.forall_mem_singleton.mpr follows
  append first second := List.forall_mem_append.mpr ⟨first, second⟩

end EntityAudit.Query
