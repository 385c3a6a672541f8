import EntityAudit.Proofs.Query.Routes

/-! # Marks in the text of SQL

The text of an SQL statement is put together from what it quotes, aliases and labels, words of the
query, parameters, joins along associations, and between them words and signs of its own without
dollar signs or quotes. No digit follows a parameter.
-/

namespace EntityAudit.Query.Sql

def Statement.parameters (sql : Statement) : List Nat :=
  sql.marks.numbers

/-- A character that neither starts a parameter nor quotes anything. -/
def isPlain (c : Char) : Bool :=
  c != '$' && c != '\'' && c != '"'

def isPlainText (text : String) : Bool :=
  text.toList.all isPlain

/-- No digit stands at the start. -/
def StartsFree (text : String) : Prop :=
  ∀ c ∈ text.toList.head?, c.isDigit = false

/-- A text to stand between others. -/
def isDivider (text : String) : Bool :=
  isPlainText text && text.toList.head?.any (!·.isDigit)

theorem startsFree_empty : StartsFree "" :=
  nofun

theorem startsFree_append {before} (divides : isDivider before = true) (text : String) :
    StartsFree (before ++ text) := by
  simp only [isDivider, Bool.and_eq_true] at divides
  rw [StartsFree, String.toList_append]
  cases spelled : before.toList with
  | nil => simp [spelled] at divides
  | cons c cs => simpa [spelled] using divides.2

/-- A text put together from parts with these marks. A parameter has nothing after it or something
    that starts with no digit. -/
inductive Marked : String → Marks → Prop where
  | plain {text} (plain : isPlainText text = true) : Marked text {}
  | quotedName (name : String) : Marked (quoteName name) {}
  | quotedText (value : String) : Marked (quoteText value) {}
  | name (text : String) : Marked text { names := [text] }
  | word (text : String) : Marked text { words := [text] }
  | parameter (index : Nat) : Marked ("$" ++ toString index) { numbers := [index] }
  | join {join} (parts : Marked join.render { names := join.names }) :
      Marked join.render { joins := [join], names := join.names }
  | append {text text' marks marks'} (first : Marked text marks) (second : Marked text' marks')
      (apart : marks.numbers = [] ∨ StartsFree text') :
      Marked (text ++ text') (marks ++ marks')

/-- Texts one by one, with the marks of all of them. -/
inductive MarkedAll : List String → Marks → Prop where
  | nil : MarkedAll [] {}
  | cons {text texts marks marks'} (first : Marked text marks) (rest : MarkedAll texts marks') :
      MarkedAll (text :: texts) (marks ++ marks')

theorem Marks.append_empty (marks : Marks) : marks ++ {} = marks :=
  congr (congr (congr (congrArg Marks.mk (List.append_nil _)) (List.append_nil _))
    (List.append_nil _)) (List.append_nil _)

section Marked

variable {text text' between : String} {texts : List String} {marks marks' : Marks}

theorem Marked.after (marked : Marked text marks) (plain : isPlainText between = true) :
    Marked (between ++ text) marks :=
  append (.plain plain) marked (.inl rfl)

theorem Marked.before (marked : Marked text marks) (divides : isDivider between = true) :
    Marked (text ++ between) marks := by
  have plain := (Bool.and_eq_true_iff.mp divides).1
  have whole := append marked (.plain plain)
    (.inr (by simpa using startsFree_append divides ""))
  rwa [Marks.append_empty] at whole

theorem Marked.divided (first : Marked text marks) (divides : isDivider between = true)
    (second : Marked text' marks') : Marked (text ++ between ++ text') (marks ++ marks') := by
  rw [String.append_assoc]
  exact first.append (second.after (Bool.and_eq_true_iff.mp divides).1)
    (.inr (startsFree_append divides text'))

theorem MarkedAll.intercalate (all : MarkedAll texts marks) (separator : String)
    (divides : isDivider separator = true) : Marked (separator.intercalate texts) marks := by
  induction all with
  | nil => exact .plain rfl
  | @cons text texts marks marks' first rest ih =>
    cases texts with
    | nil =>
      cases rest
      rw [Marks.append_empty, String.intercalate_singleton]
      exact first
    | cons next texts =>
      rw [String.intercalate_cons_cons]
      exact first.divided divides ih

theorem MarkedAll.listClause {words} (plain : isPlainText words = true)
    (all : MarkedAll texts marks) : Marked (listClause words texts) marks := by
  cases texts with
  | nil =>
    cases all
    exact .plain rfl
  | cons text texts => exact (all.intercalate ", " rfl).after plain

theorem startsFree_listClause {words} (divides : isDivider words = true) (texts : List String) :
    StartsFree (Sql.listClause words texts) := by
  cases texts with
  | nil => exact startsFree_empty
  | cons text texts => exact startsFree_append divides _

theorem startsFree_renderClause {words} (divides : isDivider words = true)
    (clause : Option (List Term)) : StartsFree (renderClause words clause) := by
  cases clause with
  | none => exact startsFree_empty
  | some expr => exact startsFree_append divides _

theorem isPlainText_joinWords (isLeft : Bool) :
    isPlainText (" " ++ joinWords isLeft ++ " ") = true := by
  cases isLeft <;> decide

end Marked

theorem ColumnRef.render_marked (column : ColumnRef) :
    Marked column.render { names := [column.table] } :=
  ((Marked.name column.table).before (by decide)).append (.quotedName _) (.inl rfl)

theorem tableName_marked (table aliasName : String) :
    Marked (quoteName table ++ " " ++ aliasName) { names := [aliasName] } :=
  (Marked.quotedName table).divided (by decide) (.name aliasName)

theorem joinedTable_marked (isLeft : Bool) (table aliasName : String) :
    Marked (" " ++ joinWords isLeft ++ " " ++ quoteName table ++ " " ++ aliasName)
      { names := [aliasName] } :=
  ((Marked.quotedName table).after (isPlainText_joinWords isLeft)).divided (by decide)
    (.name aliasName)

theorem Hop.render_marked (hop : Hop) :
    Marked hop.render { names := hop.aliasName ::
      hop.equalities.flatMap fun e => [e.left.table, e.right.table] } := by
  have equal : MarkedAll (hop.equalities.map (·.render))
      { names := hop.equalities.flatMap fun e => [e.left.table, e.right.table] } := by
    induction hop.equalities with
    | nil => exact .nil
    | cons e rest ih =>
      exact .cons (e.left.render_marked.divided (by decide) e.right.render_marked) ih
  exact (tableName_marked hop.table hop.aliasName).divided (by decide)
    (equal.intercalate " AND " rfl)

theorem RouteJoin.render_marked (join : RouteJoin) :
    Marked join.render { joins := [join], names := join.names } := by
  refine .join ?_
  obtain ⟨isLeft, hops⟩ := join
  induction hops with
  | nil => exact .plain rfl
  | cons hop rest ih =>
    have first := hop.render_marked.after (isPlainText_joinWords isLeft)
    rw [render, List.map_cons, String.join_cons]
    exact first.append ih (.inl rfl)

theorem Marked.alone {text marks} (marked : Marked text marks) : Marked text (marks ++ {}) :=
  (Marks.append_empty marks).symm ▸ marked

theorem startsFree_routeJoin (join : RouteJoin) {text} (free : StartsFree text) :
    StartsFree (join.render ++ text) := by
  obtain ⟨isLeft, hops⟩ := join
  cases hops with
  | nil => simpa [RouteJoin.render] using free
  | cons hop rest => simp [RouteJoin.render, StartsFree]

theorem startsFree_renderJoins (joins : List (Join (List Term))) :
    StartsFree (renderJoins joins) := by
  induction joins with
  | nil => exact startsFree_empty
  | cons join rest ih =>
    obtain ⟨isLeft, ⟨name, aliasName, _ | condition⟩ | ⟨hops, _ | condition⟩⟩ := join
    · simp [renderJoins, StartsFree]
    · simp [renderJoins, StartsFree]
    · exact startsFree_routeJoin ⟨isLeft, hops⟩ ih
    · simp only [renderJoins]
      rw [String.append_assoc, String.append_assoc, String.append_assoc]
      refine startsFree_routeJoin ⟨isLeft, hops⟩ ?_
      exact startsFree_append (show isDivider " AND (" = true from rfl) _

mutual
theorem renderTerm_marked (term : Term) : Marked (renderTerm term) (termMarks term) := by
  cases term with
  | word text => exact .word text
  | text value => exact .quotedText value
  | parameter index => exact .parameter index
  | column column => exact column.render_marked
  | label name => exact .name name
  | subselect query => exact ((renderSelect_marked query).after (by decide)).before (by decide)

theorem renderTerms_marked (terms : List Term) :
    MarkedAll (renderTerms terms) (termsMarks terms) := by
  cases terms with
  | nil => exact .nil
  | cons term rest => exact .cons (renderTerm_marked term) (renderTerms_marked rest)

theorem renderSelect_marked (query : SelectOf (List Term)) :
    Marked (renderSelect query) (selectMarks query) := by
  cases query with
  | mk isDistinct items ranges filter groups groupFilter orders =>
    have words : isPlainText ("SELECT " ++ if isDistinct then "DISTINCT " else "") = true := by
      cases isDistinct <;> decide
    have list := ((renderItems_marked items).intercalate ", " rfl).after words
    have tables := (renderRanges_marked ranges).intercalate ", " rfl
    refine .append (.append (.append (.append (list.divided (by decide) tables) ?_ ?_) ?_ ?_)
      ?_ ?_) ?_ ?_
    · exact renderClause_marked (by decide) filter
    · exact .inr (startsFree_renderClause (by decide) filter)
    · exact (renderList_marked groups).listClause (by decide)
    · exact .inr (startsFree_listClause (by decide) _)
    · exact renderClause_marked (by decide) groupFilter
    · exact .inr (startsFree_renderClause (by decide) groupFilter)
    · exact (renderOrders_marked orders).listClause (by decide)
    · exact .inr (startsFree_listClause (by decide) _)

theorem renderItems_marked (items : List (Item (List Term))) :
    MarkedAll (renderItems items) (itemMarks items) := by
  cases items with
  | nil => exact .nil
  | cons item rest =>
    cases item with
    | column column label =>
      exact .cons (column.render_marked.divided (by decide) (.name label)) (renderItems_marked rest)
    | value expr label =>
      have whole := (renderTerms_marked expr).intercalate " " rfl
      cases label with
      | none =>
        exact .cons whole.alone (renderItems_marked rest)
      | some label =>
        exact .cons (whole.divided (by decide) (.name label)) (renderItems_marked rest)

theorem renderRanges_marked (ranges : List (Range (List Term))) :
    MarkedAll (renderRanges ranges) (rangeMarks ranges) := by
  cases ranges with
  | nil => exact .nil
  | cons range rest =>
    cases range with
    | mk table aliasName joins =>
      exact .cons ((tableName_marked table aliasName).append (renderJoins_marked joins) (.inl rfl))
        (renderRanges_marked rest)

theorem renderJoins_marked (joins : List (Join (List Term))) :
    Marked (renderJoins joins) (joinMarks joins) := by
  cases joins with
  | nil => exact .plain rfl
  | cons join rest =>
    have others := renderJoins_marked rest
    have free := startsFree_renderJoins rest
    cases join with
    | mk isLeft body =>
      cases body with
      | table name aliasName condition =>
        have own := joinedTable_marked isLeft name aliasName
        cases condition with
        | none => exact (own.before (by decide)).append others (.inl rfl)
        | some condition =>
          have whole := (renderTerms_marked condition).intercalate " " rfl
          exact (own.divided (by decide) whole).append others (.inr free)
      | hops hops condition =>
        have own := RouteJoin.render_marked ⟨isLeft, hops⟩
        cases condition with
        | none => exact own.alone.append others (.inl rfl)
        | some condition =>
          have whole := (renderTerms_marked condition).intercalate " " rfl
          exact ((own.divided (by decide) whole).before (by decide)).append others (.inr free)

theorem renderClause_marked {words} (plain : isPlainText words = true)
    (clause : Option (List Term)) :
    Marked (renderClause words clause) (optionalMarks clause) := by
  cases clause with
  | none => exact .plain rfl
  | some expr => exact ((renderTerms_marked expr).intercalate " " rfl).after plain

theorem renderList_marked (exprs : List (List Term)) :
    MarkedAll (renderList exprs) (listedMarks exprs) := by
  cases exprs with
  | nil => exact .nil
  | cons expr rest =>
    exact .cons ((renderTerms_marked expr).intercalate " " rfl) (renderList_marked rest)

theorem renderOrders_marked (orders : List (OrderItem (List Term))) :
    MarkedAll (renderOrders orders) (orderMarks orders) := by
  cases orders with
  | nil => exact .nil
  | cons item rest =>
    cases item with
    | mk expr direction =>
      have whole := (renderTerms_marked expr).intercalate " " rfl
      cases direction with
      | none =>
        exact .cons whole.alone (renderOrders_marked rest)
      | some direction =>
        exact .cons (whole.divided (by decide) (.word direction)) (renderOrders_marked rest)
end

theorem Statement.render_marked (sql : Statement) : Marked sql.render sql.marks := by
  cases sql with
  | select query => exact renderSelect_marked query
  | update table aliasName assignments filter =>
    have assigned : MarkedAll
        (assignments.map fun a => quoteName a.column ++ " = " ++ renderExpression a.value)
        (assignmentMarks assignments) := by
      induction assignments with
      | nil => exact .nil
      | cons a rest ih =>
        have value := (renderTerms_marked a.value).intercalate " " rfl
        exact .cons ((Marked.quotedName a.column).divided (by decide) value) ih
    have own := (Marked.quotedName table).after (by decide : isPlainText "UPDATE " = true)
    have named := own.divided (by decide : isDivider " " = true) (.name aliasName)
    exact (named.divided (by decide) (assigned.intercalate ", " rfl)).append
      (renderClause_marked (by decide) filter) (.inr (startsFree_renderClause (by decide) filter))
  | delete table aliasName filter =>
    have own := (Marked.quotedName table).after (by decide : isPlainText "DELETE FROM " = true)
    exact (own.divided (by decide : isDivider " " = true) (.name aliasName)).append
      (renderClause_marked (by decide) filter) (.inl rfl)

end EntityAudit.Query.Sql
