import EntityAudit.Proofs.Query.AliasScoping
import EntityAudit.Proofs.Query.ParameterReading
import EntityAudit.Proofs.Query.Provenance
import EntityAudit.Proofs.Query.SqlMarks
import Mathlib.Data.List.Basic

/-! # Numbers of parameters

Lowering numbers parameters by first use and goes through the clauses in the order in which they
were read, so a parameter has the place of its name among the distinct names of the text. `Numbers`
says for one part of a statement which numbers its parameters get.
-/

namespace EntityAudit.Query

namespace Sql

/-- Parameters with these numbers stand in this order in a text, each written as a dollar sign and
    its number with no digit after it. All else is quoted, is one of `names`, or has neither dollar
    signs nor quotes in it. -/
inductive Shows (names : List String) : List Char → List Nat → Prop where
  | nil : Shows names [] []
  | plain {c : Char} {cs : List Char} {numbers : List Nat} (plain : isPlain c = true)
      (rest : Shows names cs numbers) : Shows names (c :: cs) numbers
  | name {name : String} {cs : List Char} {numbers : List Nat} (known : name ∈ names)
      (rest : Shows names cs numbers) : Shows names (name.toList ++ cs) numbers
  | quotedName {cs : List Char} {numbers : List Nat} (name : String)
      (rest : Shows names cs numbers) : Shows names ((quoteName name).toList ++ cs) numbers
  | quotedText {cs : List Char} {numbers : List Nat} (value : String)
      (rest : Shows names cs numbers) : Shows names ((quoteText value).toList ++ cs) numbers
  | parameter {cs numbers} (index : Nat) (ends : ∀ c ∈ cs.head?, c.isDigit = false)
      (rest : Shows names cs numbers) :
      Shows names (("$" ++ toString index).toList ++ cs) (index :: numbers)

namespace Shows

variable {names : List String} {cs cs' : List Char} {numbers numbers' : List Nat}

theorem append (first : Shows names cs numbers) (second : Shows names cs' numbers')
    (apart : numbers = [] ∨ ∀ c ∈ cs'.head?, c.isDigit = false) :
    Shows names (cs ++ cs') (numbers ++ numbers') := by
  induction first with
  | nil => exact second
  | plain plain _ ih => exact .plain plain (ih apart)
  | name known _ ih =>
    rw [List.append_assoc]
    exact .name known (ih apart)
  | quotedName name _ ih =>
    rw [List.append_assoc]
    exact .quotedName name (ih apart)
  | quotedText value _ ih =>
    rw [List.append_assoc]
    exact .quotedText value (ih apart)
  | @parameter cs _ index ends _ ih =>
    have free := apart.resolve_left (List.cons_ne_nil _ _)
    rw [List.append_assoc]
    refine .parameter index ?_ (ih (.inr free))
    cases cs with
    | nil => exact free
    | cons c cs => exact ends

theorem of_isPlain (plain : cs.all isPlain = true) : Shows names cs [] := by
  induction cs with
  | nil => exact .nil
  | cons c cs ih =>
    obtain ⟨first, rest⟩ := Bool.and_eq_true_iff.mp plain
    exact .plain first (ih rest)

end Shows

theorem Marked.shows {text marks names} (marked : Marked text marks)
    (plain : ∀ word ∈ marks.words, isPlainText word = true) (known : marks.names ⊆ names) :
    Shows names text.toList marks.numbers := by
  induction marked with
  | plain own => exact .of_isPlain own
  | quotedName name => simpa using Shows.nil.quotedName name
  | quotedText value => simpa using Shows.nil.quotedText value
  | name text => simpa using Shows.nil.name (known (List.mem_singleton_self text))
  | word text => exact .of_isPlain (plain text (List.mem_singleton_self text))
  | parameter index => simpa using Shows.nil.parameter index (by simp)
  | join _ ih => exact ih nofun known
  | append _ _ apart first second =>
    obtain ⟨here, there⟩ := List.forall_mem_append.mp plain
    obtain ⟨own, others⟩ := List.append_subset.mp known
    rw [String.toList_append]
    exact (first here own).append (second there others) apart

end Sql

theorem IsLexicalText.isPlainText {text} (lexical : IsLexicalText text) :
    Sql.isPlainText text = true := by
  refine List.all_eq_true.mpr fun c inside => ?_
  obtain ⟨⟨text, -⟩, name, dollar⟩ := lexical c inside
  simp [Sql.isPlain, text, name, dollar]

theorem Piece.SpelledAs.isPlainText {p : Piece} {text} (spelled : p.SpelledAs text)
    (lexical : p.IsLexical) : Sql.isPlainText text = true := by
  cases spelled with
  | keyword | number | operator => exact lexical.isPlainText
  | function known =>
    have bare : ∀ word ∈ bareFunctions, Sql.isPlainText word = true := by decide
    rcases functionWord?_some known with listed | rfl
    · exact bare _ listed
    · exact lexical.isPlainText
  | comma | opening | closing => decide

/-- The words of SQL have neither dollar signs nor quotes in them. -/
def spelling (aliases : Aliases) : MarkRule aliases where
  ofPiece := Piece.IsLexical
  holds marks := ∀ word ∈ marks.words, Sql.isPlainText word = true
  names _ := nofun
  parameter _ := nofun
  word lexical spelled := List.forall_mem_singleton.mpr (spelled.isPlainText lexical)
  direction direction := by rcases direction with _ | _ | _ <;> decide
  join _ := nofun
  append first second := List.forall_mem_append.mpr ⟨first, second⟩

/-- Lowering a part of a statement from `s` to `s'`: where the parameters known so far are those of
    `before`, the names of the part are added to them, and each is given its place. -/
def Numbers (s s' : Issued) (names : List String) (numbers : List Nat) : Prop :=
  ∀ before : List String, s.parameters = before.eraseDups →
    s'.parameters = (before ++ names).eraseDups ∧
      numbers = names.map fun name => s'.parameters.idxOf name + 1

namespace Numbers

variable {s s' s'' : Issued} {names names' : List String} {numbers numbers' : List Nat}

theorem none (same : s'.parameters = s.parameters) : Numbers s s' [] [] := by
  intro before known
  exact ⟨by rw [same, known, List.append_nil], rfl⟩

theorem seq (first : Numbers s s' names numbers) (second : Numbers s' s'' names' numbers') :
    Numbers s s'' (names ++ names') (numbers ++ numbers') := by
  intro before known
  obtain ⟨known', rfl⟩ := first before known
  obtain ⟨known'', rfl⟩ := second (before ++ names) known'
  refine ⟨by rw [known'', List.append_assoc], ?_⟩
  rw [List.map_append]
  congr 1
  refine List.map_congr_left fun name inside => ?_
  have among : name ∈ s'.parameters := by
    rw [known', List.mem_eraseDups]
    exact List.mem_append_right before inside
  rw [known'', List.eraseDups_append, ← known', List.idxOf_append_of_mem among]

theorem parameter {name index} (given : Lower.parameter name s = some (index, s')) :
    Numbers s s' [name] [index] := by
  intro before known
  simp only [Lower.parameter, Lower.bind_some, Lower.get_some] at given
  obtain ⟨_, _, ⟨rfl, rfl⟩, given⟩ := given
  rw [List.eraseDups_append, ← known]
  cases found : s.parameters.idxOf? name with
  | some position =>
    simp only [found, Lower.pure_some] at given
    obtain ⟨rfl, rfl⟩ := given
    have inside : name ∈ before := by
      rw [← List.mem_eraseDups, ← known]
      exact List.isSome_idxOf?.mp (found ▸ rfl)
    have old : [name].removeAll before = [] := by simp [List.removeAll, inside]
    rw [old, List.eraseDups_nil, List.append_nil]
    refine ⟨rfl, ?_⟩
    rw [List.map_singleton, List.idxOf_eq_getD_idxOf?, found]
    rfl
  | none =>
    simp only [found, Lower.bind_some, Lower.set_some, Lower.pure_some] at given
    obtain ⟨_, _, rfl, rfl, rfl⟩ := given
    have absent : name ∉ s.parameters := List.idxOf?_eq_none_iff.mp found
    have fresh : [name].removeAll before = [name] := by
      rw [known, List.mem_eraseDups] at absent
      simp [List.removeAll, absent]
    refine ⟨by rw [fresh]; rfl, ?_⟩
    simp [List.idxOf_append, absent]

theorem after (numbered : Numbers s' s'' names numbers) (same : s'.parameters = s.parameters) :
    Numbers s s'' names numbers :=
  (none same).seq numbered

theorem before (numbered : Numbers s s' names numbers) (same : s''.parameters = s'.parameters) :
    Numbers s s'' names numbers := by
  have whole := numbered.seq (none same)
  rwa [List.append_nil, List.append_nil] at whole

theorem alone (numbered : Numbers s s' names numbers) : Numbers s s' names (numbers ++ []) :=
  (List.append_nil numbers).symm ▸ numbered

end Numbers

variable {aliases : Aliases}

/-- Every part of a statement numbers its parameters as its SQL does. -/
def numbering : Judgement aliases where
  piece s p term s' := Numbers s s' (pieceParameters p) (Sql.termMarks term).numbers
  pieces s part terms s' := Numbers s s' (piecesParameters part 0) (Sql.termsMarks terms).numbers
  select _ s query sql s' := Numbers s s' (selectParameters query) (Sql.selectMarks sql).numbers
  items _ s items entries s' := Numbers s s' (itemParameters items) (Sql.itemMarks entries).numbers
  ranges s ranges tables s' := Numbers s s' (rangeParameters ranges) (Sql.rangeMarks tables).numbers
  joins s joins tables s' := Numbers s s' (joinParameters joins) (Sql.joinMarks tables).numbers
  clause s clause found s' :=
    Numbers s s' (optionalParameters clause) (Sql.optionalMarks found).numbers
  list s exprs entries s' := Numbers s s' (listedParameters exprs) (Sql.listedMarks entries).numbers
  orders s orders entries s' := Numbers s s' (orderParameters orders) (Sql.orderMarks entries).numbers
  assignments _ s assignments assigned s' :=
    Numbers s s' (listedParameters (assignments.map Assignment.value))
      (Sql.assignmentMarks assigned).numbers
  statement s statement sql s' := Numbers s s' statement.parameters sql.parameters
  word spelled := by cases spelled <;> exact .none rfl
  text _ := .none rfl
  parameter := .parameter
  path _ _ _ := .none rfl
  entity _ _ _ := .none rfl
  result _ := .none rfl
  subselect inner := inner
  pieces_nil := .none rfl
  pieces_cons _ _ first later := by
    rw [piecesParameters_cons]
    exact first.seq later
  select_mk issued listed ranged filtered grouped limited ordered :=
    (((((listed.after (Lower.issueAliases_onlyTables issued).parameters).seq ranged).seq filtered).seq
      grouped).seq limited).seq ordered
  items_nil := .none rfl
  items_entity _ _ spread later := by
    obtain ⟨unchanged, columns⟩ := Lower.columns_some spread
    obtain ⟨_, marked⟩ := itemMarks_columns columns
    rw [marked]
    exact later.after unchanged.parameters
  items_value valued labelled later :=
    (valued.before (Lower.entryLabel_onlyLabels labelled).parameters).alone.seq later
  ranges_nil := .none rfl
  ranges_cons _ _ joined later := joined.seq later
  joins_nil := .none rfl
  joins_entity _ _ limited later := limited.seq later
  joins_association _ _ _ _ _ _ linked limited later :=
    (limited.after (Lower.linkAlias_some linked).2.parameters).seq later
  clause_none := .none rfl
  clause_some given := given
  list_nil := .none rfl
  list_cons first later := first.seq later
  orders_nil := .none rfl
  orders_cons first later := first.alone.seq later
  assignments_nil := .none rfl
  assignments_cons _ valued later := valued.seq later
  selected inner := inner
  updated issued _ _ assigns filtered :=
    (assigns.after (Lower.issueAliases_onlyTables issued).parameters).seq filtered
  deleted issued _ _ filtered := filtered.after (Lower.issueAliases_onlyTables issued).parameters

theorem Compiled.ofStatement_numbers {s sql}
    (formed : (Compiled.ofStatement aliases s).sql = some sql) :
    (Compiled.ofStatement aliases s).parameters = s.parameters.eraseDups ∧
      sql.parameters = s.parameters.map fun name => s.parameters.eraseDups.idxOf name + 1 := by
  cases form : relationalForm? aliases s with
  | none =>
    simp only [ofStatement, form, withoutSql] at formed
    cases formed
  | some pair =>
    obtain ⟨sql', parameters⟩ := pair
    simp only [ofStatement, form] at formed ⊢
    cases formed
    obtain ⟨issued, lowered, rfl⟩ := relationalForm?_some form
    obtain ⟨listed, numbered⟩ := lowerStatement_judged numbering lowered [] rfl
    rw [List.nil_append] at listed
    exact ⟨listed, listed ▸ numbered⟩

/-- In an accepted text with a relational form, the parameters are the distinct ones of the text in
    the order of their first occurrence, and each token that is a parameter is written as the place
    of its name among them, in the order of the text. -/
theorem compile_parameters_numbered {text : String} {g g' : Gateway} {compiled : Compiled}
    (accepted : compile text g = .ok compiled g') {sql : Sql.Statement}
    (formed : compiled.sql = some sql) (empty : emptyBareCalls (Token.scan text) = true) :
    compiled.parameters = (parameterNames (Token.scan text)).eraseDups ∧
      sql.parameters = (parameterNames (Token.scan text)).map
        (fun name => compiled.parameters.idxOf name + 1) ∧
      Sql.Shows sql.marks.names sql.render.toList sql.parameters := by
  obtain ⟨parsed, found, rfl⟩ := compile_ok.mp accepted
  obtain ⟨listed, numbered⟩ := Compiled.ofStatement_numbers formed
  rw [parse_parameters found empty] at listed numbered
  obtain ⟨issued, lowered⟩ := Compiled.ofStatement_some formed
  have plain : ∀ word ∈ sql.marks.words, Sql.isPlainText word = true :=
    lowerStatement_judged (spelling _).judgement lowered (parse_lexical found)
  exact ⟨listed, listed ▸ numbered, sql.render_marked.shows plain (List.Subset.refl _)⟩

/-- Parameters in every clause, in a subselect and in a second place, next to a function without
    parentheses. -/
theorem compile_parameters_numbered_clauses :
    let text := "SELECT :a FROM U u JOIN U v ON v.id = :b WHERE u.id IN " ++
      "(SELECT w.id FROM U w HAVING :a = ?1) ORDER BY CURRENT_DATE(), :b"
    let id : Field := { name := "id", column := "id", columnType := "integer", isId := true }
    let user : EntityRecord := { className := "U", table := "users", fields := [id] }
    let g : Gateway := .ofSource (Catalog.toSource { records := [("u", user)] })
    ∃ compiled sql g', compile text g = .ok compiled g' ∧ compiled.sql = some sql ∧
      emptyBareCalls (Token.scan text) = true ∧ compiled.parameters = [":a", ":b", "?1"] ∧
      sql.parameters = [1, 2, 1, 3, 2] ∧
      Sql.Shows sql.marks.names sql.render.toList sql.parameters := by
  intro text id user g
  have readable : succeeds (compile text) g (fun compiled => compiled.sql.isSome) = true := by
    decide +kernel
  have empty : emptyBareCalls (Token.scan text) = true := by decide +kernel
  have names : parameterNames (Token.scan text) = [":a", ":b", ":a", "?1", ":b"] := by
    decide +kernel
  obtain ⟨compiled, g', accepted, isSome⟩ := exists_of_succeeds readable
  obtain ⟨sql, formed⟩ := Option.isSome_iff_exists.mp isSome
  obtain ⟨listed, numbered, shown⟩ := compile_parameters_numbered accepted formed empty
  rw [names] at listed numbered
  rw [listed] at numbered
  exact ⟨compiled, sql, g', accepted, formed, empty, listed.trans (by decide +kernel),
    numbered.trans (by decide +kernel), shown⟩

end EntityAudit.Query
