import EntityAudit.Proofs.Query.NameSoundness
import EntityAudit.Proofs.Query.Rendering

/-! # Where aliases may be used

A statement has one namespace for all its levels: an alias that a subselect declares can be used
outside of it, and then the SQL uses the table outside as well. Where each alias is used only in the
statement that declares it or inside of that, the same holds for the tables of the SQL.
-/

namespace EntityAudit.Query

variable {name : String} {aliases : Aliases}

/-- The column behind a property of an alias. -/
def Aliases.columnOf? (aliases : Aliases) (path : PropertyPath) : Option String :=
  (aliases.record? path.aliasName).bind (·.columnOf? path.field)

def Statement.targets : Statement → List PropertyPath
  | .update _ assignments _ => assignments.map (·.target)
  | _ => []

def Sql.Statement.assigned : Sql.Statement → List String
  | .update _ _ assignments _ => assignments.map (·.column)
  | _ => []

/-- The aliases that are declared inside expressions, which is where subselects stand. -/
def innerNames (exprs : List Expression) : List String :=
  exprs.flatMap fun e => declared e.uses

theorem declared_subset_inner {e exprs} (inside : e ∈ exprs) :
    declared (piecesUses e []) ⊆ innerNames exprs :=
  fun _ found => List.mem_flatMap.mpr ⟨e, inside, found⟩

theorem innerNames_mono {exprs more} (within : exprs ⊆ more) :
    innerNames exprs ⊆ innerNames more := by
  intro name inside
  obtain ⟨e, among, found⟩ := List.mem_flatMap.mp inside
  exact declared_subset_inner (within among) found

theorem innerNames_append (first second : List Expression) :
    innerNames (first ++ second) = innerNames first ++ innerNames second :=
  List.flatMap_append

theorem declared_flat {e} (before : Expression) (flat : ∀ query, .subselect query ∉ e) :
    declared (piecesUses e before) = [] := by
  induction e generalizing before with
  | nil => rfl
  | cons piece rest ih =>
    have later := ih (before ++ [piece]) fun query inside =>
      flat query (List.mem_cons_of_mem piece inside)
    rw [piecesUses, declared_append, later, List.append_nil]
    cases piece with
    | subselect query => exact absurd List.mem_cons_self (flat query)
    | partialObject aliasName fields => simp [pieceUses, declared, NameUse.declares?]
    | _ => rfl

theorem declared_optional (clause : Option (List Piece)) :
    declared (optionalUses clause) ⊆ innerNames (optionalExpression clause) := by
  cases clause with
  | none => exact List.nil_subset _
  | some expr => exact declared_subset_inner List.mem_cons_self

theorem declared_listed (exprs : List (List Piece)) :
    declared (listedUses exprs) ⊆ innerNames (listedExpressions exprs) := by
  induction exprs with
  | nil => exact List.nil_subset _
  | cons expr rest ih =>
    rw [listedUses, declared_append, List.append_subset]
    exact ⟨declared_subset_inner List.mem_cons_self,
      List.Subset.trans ih (innerNames_mono (List.subset_append_right _ _))⟩

theorem declared_assignments (assignments : List Assignment) :
    declared (assignments.flatMap Assignment.uses) =
      declared (listedUses (assignments.map (·.value))) := by
  induction assignments with
  | nil => rfl
  | cons a rest ih =>
    rw [List.flatMap_cons, declared_append, ih, List.map_cons, listedUses, declared_append]
    rfl

theorem declared_orders (orders : List (OrderItem (List Piece))) :
    declared (orderUses orders) ⊆ innerNames (orderExpressions orders) := by
  induction orders with
  | nil => exact List.nil_subset _
  | cons item rest ih =>
    obtain ⟨expr, direction⟩ := item
    rw [orderUses, declared_append, List.append_subset]
    exact ⟨declared_subset_inner List.mem_cons_self,
      List.Subset.trans ih (innerNames_mono (List.subset_append_right _ _))⟩

theorem conditionNames_subset (joins : List (Join (List Piece))) :
    conditionNames joins ⊆ innerNames (joinExpressions joins) := by
  induction joins with
  | nil => exact List.nil_subset _
  | cons join rest ih =>
    obtain ⟨isLeft, target, aliasName, index, condition⟩ := join
    exact List.append_subset.mpr ⟨List.Subset.trans (declared_optional condition)
      (innerNames_mono (List.subset_append_left _ _)),
      List.Subset.trans ih (innerNames_mono (List.subset_append_right _ _))⟩

theorem rangeNames_subset (ranges : List (Range (List Piece))) :
    (ranges.flatMap fun range => conditionNames range.joins) ⊆
      innerNames (rangeExpressions ranges) := by
  induction ranges with
  | nil => exact List.nil_subset _
  | cons range rest ih =>
    obtain ⟨className, aliasName, index, joins⟩ := range
    exact List.append_subset.mpr ⟨List.Subset.trans (conditionNames_subset joins)
      (innerNames_mono (List.subset_append_left _ _)),
      List.Subset.trans ih (innerNames_mono (List.subset_append_right _ _))⟩

theorem declared_items {items} (inside : name ∈ declared (itemUses items)) :
    name ∈ items.filterMap (·.aliasName) ∨ name ∈ innerNames (itemExpressions items) := by
  induction items with
  | nil => cases inside
  | cons item rest ih =>
    obtain ⟨expr, aliasName⟩ := item
    simp only [itemUses, declared_append, List.mem_append] at inside
    rcases inside with (inner | result) | later
    · exact .inr (declared_subset_inner List.mem_cons_self inner)
    · cases aliasName with
      | none => cases result
      | some own => exact .inl (List.mem_cons.mpr (.inl (List.mem_singleton.mp result)))
    · refine (ih later).imp (fun found => ?_) (fun found => ?_)
      · cases aliasName with
        | none => exact found
        | some own => exact List.mem_cons_of_mem own found
      · exact innerNames_mono (List.subset_append_right _ _) found

theorem declared_ranges {ranges} (inside : name ∈ declared (rangeUses ranges)) :
    name ∈ ranges.flatMap Range.names ∨ name ∈ innerNames (rangeExpressions ranges) := by
  have present := List.count_pos_iff.mpr inside
  rw [count_declared_ranges, Nat.add_pos_iff_pos_or_pos, List.count_pos_iff,
    List.count_pos_iff] at present
  exact present.imp_right (rangeNames_subset ranges ·)

theorem Statement.declared_subset {s : Statement} (bare : s.IsBare) :
    declared s.uses ⊆ s.ownNames ++ innerNames s.expressions := by
  intro name inside
  cases s with
  | select query =>
    obtain ⟨isDistinct, items, ranges, filter, groups, groupFilter, orders⟩ := query
    simp only [uses, selectUses, declared_append, List.mem_append] at inside
    simp only [ownNames, expressions, selectExpressions, innerNames_append, List.mem_append]
    rcases inside with ((((found | found) | found) | found) | found) | found
    · have := declared_items found; grind
    · have := declared_ranges found; grind
    · have := declared_optional filter found; grind
    · have := declared_listed groups found; grind
    · have := declared_optional groupFilter found; grind
    · have := declared_orders orders found; grind
  | update range assignments filter =>
    obtain ⟨className, aliasName, index, joins⟩ := range
    obtain rfl : joins = [] := bare
    simp only [uses, declared_append, declared_loneRange, List.mem_append] at inside
    simp only [ownNames, expressions, innerNames_append, List.mem_append]
    rcases inside with (own | found) | found
    · exact .inl own
    · have := declared_listed _ (declared_assignments assignments ▸ found); grind
    · have := declared_optional filter found; grind
  | delete range filter =>
    obtain ⟨className, aliasName, index, joins⟩ := range
    obtain rfl : joins = [] := bare
    simp only [uses, declared_append, declared_loneRange, List.mem_append] at inside
    simp only [ownNames, expressions, innerNames_append, List.mem_append]
    rcases inside with own | found
    · exact .inl own
    · have := declared_optional filter found; grind

theorem innerNames_flat {exprs} (flat : ∀ e ∈ exprs, ∀ query, .subselect query ∉ e) :
    innerNames exprs = [] := by
  refine List.flatMap_eq_nil_iff.mpr fun e inside => declared_flat [] (flat e inside)

section Accepted

variable {text : String} {g g' : Gateway} {parsed : Parsed}
variable {sql : Sql.Statement}

section

variable (accepted : parse text g = .ok parsed g')

include accepted

theorem parse_join_root {earlier later p aliasName}
    (parts : parsed.statement.uses = earlier ++ .join p aliasName :: later) :
    p.aliasName ∈ declared earlier :=
  (parse_uses_resolved accepted parts).1

theorem parse_refers_within :
    ReferWithin (declared parsed.statement.uses) parsed.statement.uses := by
  intro use inside aliasName refers
  obtain ⟨earlier, later, parts⟩ := List.append_of_mem inside
  have resolved := parse_uses_resolved accepted parts
  have table := (parse_declares accepted).1
  have ofProperty {p : PropertyPath} {forCollections : Prop}
      (has : parsed.aliases.HasProperty p forCollections) :
      p.aliasName ∈ declared parsed.statement.uses := by
    obtain ⟨record, found, -⟩ := has
    exact table ▸ Dict.mem_keys_of_get? found
  cases use with
  | range | result => cases refers
  | «variable» name =>
    cases refers
    exact table ▸ (Dict.has_iff_mem_keys _ _).mp resolved
  | path p before after =>
    cases refers
    exact ofProperty resolved
  | property p =>
    cases refers
    exact ofProperty resolved
  | join p name =>
    cases refers
    rw [parts, declared_append]
    exact List.mem_append_left _ (parse_join_root accepted parts)

theorem parse_result_plain (inside : .result name ∈ parsed.statement.uses) :
    parsed.aliases.record? name = none := by
  obtain ⟨earlier, later, parts⟩ := List.append_of_mem inside
  have declares := parse_uses_resolved accepted parts
  cases found : parsed.aliases.record? name with
  | none => rfl
  | some record =>
    have entity := record?_eq_some.mp found
    rw [declares.means] at entity
    cases entity

/-- An alias that stands for a class was declared by a range or a join, which looked the class
    up. -/
theorem parse_maps {record} (found : parsed.aliases.record? name = some record) :
    ∃ className, g.Maps className record := by
  have known := record?_eq_some.mp found
  have inside : name ∈ declared parsed.statement.uses :=
    (parse_declares accepted).1 ▸ Dict.mem_keys_of_get? known
  obtain ⟨use, among, declares⟩ := List.mem_filterMap.mp inside
  obtain ⟨earlier, later, parts⟩ := List.append_of_mem among
  have resolved := parse_uses_resolved accepted parts
  cases use with
  | range className aliasName =>
    cases declares
    obtain ⟨record', maps, declared⟩ := resolved
    cases known.symm.trans declared.means
    exact ⟨className, maps⟩
  | join path aliasName =>
    cases declares
    obtain ⟨-, _, association, record', -, -, maps, declared⟩ := resolved
    cases known.symm.trans declared.means
    exact ⟨association.target, maps⟩
  | result aliasName =>
    cases declares
    cases known.symm.trans (Aliases.Declares.means resolved)
  | _ => cases declares

theorem parse_isBare : parsed.statement.IsBare :=
  Read.statement_isBare (Reading.outcome_ok (parse_reads accepted).1)

theorem parse_inScope :
    parsed.statement.inScope (innerNames parsed.statement.expressions) = true :=
  Statement.inScope_of_uses <| (parse_refers_within accepted).mono fun _ inside =>
    Statement.declared_subset (parse_isBare accepted) inside

end

theorem Compiled.ofStatement_some {s} (formed : (Compiled.ofStatement aliases s).sql = some sql) :
    ∃ issued, lowerStatement aliases s {} = some (sql, issued) := by
  cases form : relationalForm? aliases s with
  | none =>
    simp only [ofStatement, form, withoutSql] at formed
    cases formed
  | some pair =>
    simp only [ofStatement, form] at formed
    cases formed
    obtain ⟨issued, lowered, -⟩ := relationalForm?_some form
    exact ⟨issued, lowered⟩

theorem parse_renders (accepted : parse text g = .ok parsed g') {issued}
    (lowered : lowerStatement parsed.aliases parsed.statement {} = some (sql, issued)) :
    Renders parsed.aliases {} issued (declared parsed.statement.uses) sql.tables
      (parsed.statement.Under · sql) := by
  refine lowerStatement_judged rendering lowered (parse_isBare accepted) fun name => ?_
  have once := List.nodup_iff_count.mp (parse_declares accepted).2 name
  have empty : ({} : Issued).tables.keys.count name = 0 := rfl
  omega

theorem Issued.settled_empty (aliases : Aliases) : ({} : Issued).Settled aliases := by
  constructor <;> intros <;> simp_all [Dict.get?]

theorem parse_carriesScope (accepted : parse text g = .ok parsed g') {issued}
    (lowered : lowerStatement parsed.aliases parsed.statement {} = some (sql, issued)) {scope known}
    (covers : Covers issued.tables scope known) (inScope : parsed.statement.inScope scope = true) :
    sql.inScope known = true := by
  have renders := parse_renders accepted lowered
  refine renders.now.inScope (fun name inside => ?_) scope known covers (List.nil_subset _) inScope
  cases given : issued.tables.get? name with
  | none => rfl
  | some table =>
    obtain ⟨record, known⟩ := (renders.settled (Issued.settled_empty _)).recorded given
    rw [parse_result_plain accepted inside] at known
    cases known

end Accepted

theorem lowerStatement_assigned {range assignments filter sql s s'}
    (lowered : lowerStatement aliases (.update range assignments filter) s = some (sql, s')) :
    sql.assigned.map some =
      assignments.map fun a => aliases.columnOf? ⟨range.aliasName, a.target.field⟩ := by
  obtain ⟨record, table, assigned, limit, s₀, s₁, -, -, known, first, -, rfl⟩ :=
    lowerStatement_update lowered
  simp only [Sql.Statement.assigned, Aliases.columnOf?, known, Option.bind_some, List.map_map]
  exact lowerAssignments_columns first

theorem Statement.targets_inScope {s sql t t'} (inScope : s.inScope [] = true)
    (lowered : lowerStatement aliases s t = some (sql, t')) :
    sql.assigned.map some = s.targets.map aliases.columnOf? := by
  cases s with
  | select query =>
    simp only [lowerStatement, Lower.bind_some, Lower.pure_some] at lowered
    obtain ⟨_, _, -, rfl, -⟩ := lowered
    rfl
  | update range assignments filter =>
    rw [lowerStatement_assigned lowered, Statement.targets, List.map_map]
    refine List.map_congr_left fun a inside => ?_
    simp only [Statement.inScope, Bool.and_eq_true, List.all_eq_true] at inScope
    obtain ⟨target, -⟩ := Bool.and_eq_true_iff.mp (inScope.1.2 a inside)
    have same := List.mem_singleton.mp (List.contains_iff_mem.mp target)
    rw [← same]
    rfl
  | delete range filter =>
    obtain ⟨_, _, _, _, -, -, -, -, rfl⟩ := lowerStatement_delete lowered
    rfl

/-- How a statement and its SQL, if it has one, use aliases. -/
structure Statement.AliasesScoped (s : Statement) (aliases : Aliases)
    (sql : Option Sql.Statement) : Prop where
  /-- No alias is declared twice, at whatever level. -/
  once : (declared s.uses).Nodup
  /-- Every alias that is used is declared where it is used, around that, or in a subselect. -/
  known : s.inScope (innerNames s.expressions) = true
  /-- Without subselects, it is declared where it is used. -/
  flat : (∀ e ∈ s.expressions, ∀ query, .subselect query ∉ e) → s.inScope [] = true
  /-- The alias that a join starts at is declared before the join. -/
  joined : ∀ earlier p aliasName later, s.uses = earlier ++ .join p aliasName :: later →
    p.aliasName ∈ declared earlier
  /-- Every column of the SQL is of a table that the SQL introduces at some level. -/
  tables : ∀ q, sql = some q → q.inScope q.tables = true
  /-- If aliases are used only where they are declared or inside of that, then every column is of a
      table that the same statement introduces or one around it. -/
  nested : s.inScope [] = true → ∀ q, sql = some q → q.inScope [] = true
  /-- The columns that an update assigns are then those of the alias in each target. -/
  assigned : s.inScope [] = true → ∀ q, sql = some q →
    q.assigned.map some = s.targets.map aliases.columnOf?

/-- In an accepted text, an alias is known at all levels of the statement. -/
theorem compile_aliases_scoped {text : String} {g g' : Gateway} {compiled : Compiled}
    (accepted : compile text g = .ok compiled g') :
    ∃ parsed, parse text g = .ok parsed g' ∧
      parsed.statement.AliasesScoped parsed.aliases compiled.sql := by
  obtain ⟨parsed, found, rfl⟩ := compile_ok.mp accepted
  have known := parse_inScope found
  refine ⟨parsed, found, (parse_declares found).2, known, fun flat => innerNames_flat flat ▸ known,
    fun _ _ _ _ => parse_join_root found, ?_, ?_, ?_⟩
  · intro q formed
    obtain ⟨issued, lowered⟩ := Compiled.ofStatement_some formed
    refine parse_carriesScope found lowered (fun name _ table given => ?_) known
    rcases (parse_renders found lowered).introduced given with before | listed
    · cases before
    · exact listed
  · intro inScope q formed
    obtain ⟨issued, lowered⟩ := Compiled.ofStatement_some formed
    exact parse_carriesScope found lowered (by simp [Covers]) inScope
  · intro inScope q formed
    obtain ⟨issued, lowered⟩ := Compiled.ofStatement_some formed
    exact Statement.targets_inScope inScope lowered

/-- Two classes that store their names in columns called differently. -/
def usersAndItems : Gateway :=
  let id : Field := { name := "id", column := "id", columnType := "integer", isId := true }
  let user : EntityRecord :=
    { className := "User", table := "users",
      fields := [id, { name := "name", column := "user_name", columnType := "string" }] }
  let item : EntityRecord :=
    { className := "Item", table := "items",
      fields := [id, { name := "name", column := "item_name", columnType := "string" }] }
  .ofSource (Catalog.toSource { records := [("user", user), ("item", item)] })

/-- A subselect refers to the class around it. -/
theorem compile_aliases_scoped_update :
    let text := "UPDATE User u SET u.name = 1 WHERE u.id IN " ++
      "(SELECT i.id FROM Item i WHERE i.name = u.name)"
    let g := usersAndItems
    ∃ parsed compiled sql g', parse text g = .ok parsed g' ∧ compile text g = .ok compiled g' ∧
      parsed.statement.inScope [] = true ∧ compiled.sql = some sql ∧ sql.inScope [] = true ∧
      sql.assigned.map some = parsed.statement.targets.map parsed.aliases.columnOf? := by
  intro text g
  have readable : succeeds (parse text) g (fun parsed => parsed.statement.inScope [] &&
      (Compiled.ofStatement parsed.aliases parsed.statement).sql.isSome) = true := by
    decide +kernel
  obtain ⟨parsed, g', found, passed⟩ := exists_of_succeeds readable
  obtain ⟨inScope, formed⟩ := Bool.and_eq_true_iff.mp passed
  obtain ⟨sql, formed⟩ := Option.isSome_iff_exists.mp formed
  have accepted := compile_ok.mpr ⟨parsed, found, rfl⟩
  obtain ⟨_, same, aliasing⟩ := compile_aliases_scoped accepted
  rw [found] at same
  cases same
  exact ⟨parsed, _, sql, g', found, accepted, inScope, formed, aliasing.nested inScope sql formed,
    aliasing.assigned inScope sql formed⟩

/-- An alias of a subselect is used outside of it, as the target of an update and in a condition.
    The SQL assigns the column of another class there, and it uses the table of the subselect where
    there is none. -/
theorem compile_leaks_alias :
    let text := "UPDATE User u SET i.name = 1 WHERE EXISTS (SELECT i.id FROM Item i) AND i.id = 1"
    let g := usersAndItems
    ∃ parsed compiled sql g', parse text g = .ok parsed g' ∧ compile text g = .ok compiled g' ∧
      parsed.statement.inScope [] = false ∧ compiled.sql = some sql ∧ sql.inScope [] = false ∧
      sql.assigned = ["user_name"] ∧
      parsed.statement.targets.map parsed.aliases.columnOf? = [some "item_name"] := by
  intro text g
  have readable : succeeds (parse text) g (fun parsed => !parsed.statement.inScope [] &&
      (Compiled.ofStatement parsed.aliases parsed.statement).sql.any (fun sql =>
        !sql.inScope [] && sql.assigned == ["user_name"]) &&
      parsed.statement.targets.map parsed.aliases.columnOf? == [some "item_name"]) = true := by
    decide +kernel
  obtain ⟨parsed, g', found, passed⟩ := exists_of_succeeds readable
  simp only [Bool.and_eq_true, Bool.not_eq_true', Option.any_eq_true, beq_iff_eq] at passed
  obtain ⟨⟨outside, sql, formed, leaked, assigned⟩, written⟩ := passed
  exact ⟨parsed, _, sql, g', found, compile_ok.mpr ⟨parsed, found, rfl⟩, outside, formed, leaked,
    assigned, written⟩

end EntityAudit.Query
