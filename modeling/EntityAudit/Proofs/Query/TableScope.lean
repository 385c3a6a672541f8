import EntityAudit.Proofs.Query.Scope
import EntityAudit.Query.Relational
import Mathlib.Data.List.Forall2

/-! # Scopes of table aliases

`Statement.Under` relates a statement to its SQL, given which table each alias has. If a part of a
statement is in scope of some names and the SQL knows their tables, then the SQL is in scope of
those tables.
-/

namespace EntityAudit.Query

mutual
/-- A piece and its SQL: a column is of the table of the alias that stands there. -/
inductive PieceUnder (tables : Dict String) : Piece → Sql.Term → Prop
  | word {piece} (word : String) : PieceUnder tables piece (.word word)
  | label {piece} (name : String) : PieceUnder tables piece (.label name)
  | text {piece} (value : String) : PieceUnder tables piece (.text value)
  | parameter {piece} (index : Nat) : PieceUnder tables piece (.parameter index)
  | path {path table} (column : String) (found : tables.get? path.aliasName = some table) :
      PieceUnder tables (.path path) (.column ⟨table, column⟩)
  | entity {name table} (column : String) (found : tables.get? name = some table) :
      PieceUnder tables (.variable name) (.column ⟨table, column⟩)
  | subselect {query sql} (inner : SelectUnder tables query sql) :
      PieceUnder tables (.subselect query) (.subselect sql)

/-- An expression and its SQL, in which some pieces may be left out. -/
inductive PiecesUnder (tables : Dict String) : List Piece → List Sql.Term → Prop
  | nil : PiecesUnder tables [] []
  | cons {piece rest later term others} (here : PieceUnder tables piece term)
      (dropped : later <:+ rest) (onward : PiecesUnder tables later others) :
      PiecesUnder tables (piece :: rest) (term :: others)

/-- A select list and its SQL; an entity as a whole stands for columns of its table. -/
inductive ItemsUnder (tables : Dict String) :
    List (SelectItem (List Piece)) → List (Sql.Item (List Sql.Term)) → Prop
  | nil : ItemsUnder tables [] []
  | entity {name table aliasName rest own others} (found : tables.get? name = some table)
      (columns : ∀ entry ∈ own, ∃ column label, entry = .column ⟨table, column⟩ label)
      (onward : ItemsUnder tables rest others) :
      ItemsUnder tables (⟨[.variable name], aliasName⟩ :: rest) (own ++ others)
  | value {expr aliasName label terms rest others} (here : PiecesUnder tables expr terms)
      (onward : ItemsUnder tables rest others) :
      ItemsUnder tables (⟨expr, aliasName⟩ :: rest) (.value terms label :: others)

/-- A join and its SQL; a route starts at the table of the alias that the join starts at. -/
inductive JoinUnder (tables : Dict String) : Join (List Piece) → Sql.Join (List Sql.Term) → Prop
  | table {join isLeft table limit} (name : String)
      (found : tables.get? join.aliasName = some table)
      (condition : Option.Rel (PiecesUnder tables) join.condition limit) :
      JoinUnder tables join ⟨isLeft, .table name table limit⟩
  | hops {join isLeft path owner table limit} (route : Route) (link name : String)
      (target : join.target = .association path) (started : tables.get? path.aliasName = some owner)
      (found : tables.get? join.aliasName = some table)
      (condition : Option.Rel (PiecesUnder tables) join.condition limit) :
      JoinUnder tables join ⟨isLeft, .hops (route.hops owner table link name) limit⟩

inductive RangeUnder (tables : Dict String) :
    Range (List Piece) → Sql.Range (List Sql.Term) → Prop
  | mk {range sql} (found : tables.get? range.aliasName = some sql.aliasName)
      (joins : List.Forall₂ (JoinUnder tables) range.joins sql.joins) : RangeUnder tables range sql

inductive SelectUnder (tables : Dict String) :
    SelectOf (List Piece) → Sql.SelectOf (List Sql.Term) → Prop
  | mk {query sql} (items : ItemsUnder tables query.items sql.items)
      (ranges : List.Forall₂ (RangeUnder tables) query.ranges sql.ranges)
      (filter : Option.Rel (PiecesUnder tables) query.filter sql.filter)
      (groups : List.Forall₂ (PiecesUnder tables) query.groups sql.groups)
      (groupFilter : Option.Rel (PiecesUnder tables) query.groupFilter sql.groupFilter)
      (orders : List.Forall₂ (fun o o' => PiecesUnder tables o.expr o'.expr) query.orders
        sql.orders) : SelectUnder tables query sql
end

/-- A statement and its SQL, where every column is of the table that its alias has in `tables`. -/
inductive Statement.Under (tables : Dict String) : Statement → Sql.Statement → Prop
  | select {query sql} (inner : SelectUnder tables query sql) :
      Under tables (.select query) (.select sql)
  | update {range assignments filter table assigned limit} (name : String)
      (found : tables.get? range.aliasName = some table)
      (values : List.Forall₂ (fun a a' => PiecesUnder tables a.value a'.value) assignments assigned)
      (condition : Option.Rel (PiecesUnder tables) filter limit) :
      Under tables (.update range assignments filter) (.update name table assigned limit)
  | delete {range filter table limit} (name : String)
      (found : tables.get? range.aliasName = some table)
      (condition : Option.Rel (PiecesUnder tables) filter limit) :
      Under tables (.delete range filter) (.delete name table limit)

/-- The tables of the names in `scope` are known. -/
def Covers (tables : Dict String) (scope known : List String) : Prop :=
  ∀ name ∈ scope, ∀ table, tables.get? name = some table → table ∈ known

/-- Names given to selected values have no tables. -/
def PlainResults (tables : Dict String) (uses : List NameUse) : Prop :=
  ∀ name, .result name ∈ uses → tables.get? name = none

/-- With the tables of a scope known and those in `listed` among them, the SQL of a part that uses
    names as listed is in scope where the part is. -/
def CarriesScope (tables : Dict String) (uses : List NameUse) (listed : List String)
    (within within' : List String → Bool) : Prop :=
  PlainResults tables uses → ∀ scope known, Covers tables scope known → listed ⊆ known →
    within scope = true → within' known = true

section Known

variable {tables : Dict String}

theorem Covers.append {names own scope known} (first : Covers tables names own)
    (second : Covers tables scope known) : Covers tables (names ++ scope) (own ++ known) := by
  intro name inside table found
  rcases List.mem_append.mp inside with here | there
  · exact List.mem_append_left _ (first name here table found)
  · exact List.mem_append_right _ (second name there table found)

theorem Covers.one {name table listed} (found : tables.get? name = some table)
    (among : table ∈ listed) : Covers tables [name] listed := by
  intro other inside given same
  obtain rfl := List.mem_singleton.mp inside
  obtain rfl := Option.some.inj (found.symm.trans same)
  exact among

theorem Covers.contains {scope known} (covers : Covers tables scope known) {name table}
    (found : tables.get? name = some table) (inside : scope.contains name = true) :
    known.contains table = true :=
  List.contains_iff_mem.mpr (covers name (List.contains_iff_mem.mp inside) table found)

theorem Route.target_mem_hops (route : Route) (owner target link targetTable : String) :
    target ∈ (route.hops owner target link targetTable).map (·.aliasName) := by
  cases route <;> simp [Route.hops]

theorem Route.hops_inScope (route : Route) {owner target link targetTable scope}
    (started : owner ∈ scope)
    (reached : (route.hops owner target link targetTable).map (·.aliasName) ⊆ scope) :
    ((route.hops owner target link targetTable).flatMap (·.equalities)).all (·.inScope scope) =
      true := by
  cases route <;>
    simp_all [Route.hops, Route.equalities, Sql.Equality.inScope, List.all_eq_true]

theorem covers_joins {joins sql} (under : List.Forall₂ (JoinUnder tables) joins sql) :
    Covers tables (joins.map (·.aliasName)) (sql.flatMap Sql.Join.aliases) := by
  induction under with
  | nil => simp [Covers]
  | cons first later ih =>
    cases first with
    | table name found condition => exact (Covers.one found List.mem_cons_self).append ih
    | hops route link name target started found condition =>
      exact (Covers.one found (route.target_mem_hops _ _ _ _)).append ih

theorem covers_ranges {ranges sql} (under : List.Forall₂ (RangeUnder tables) ranges sql) :
    Covers tables (ranges.flatMap Range.names) (sql.flatMap Sql.Range.aliases) := by
  induction under with
  | nil => simp [Covers]
  | cons first later ih =>
    obtain ⟨found, joins⟩ := first
    exact ((Covers.one found (List.mem_singleton_self _)).append (covers_joins joins)).append ih

theorem plainResults_append {first second} :
    PlainResults tables (first ++ second) ↔
      PlainResults tables first ∧ PlainResults tables second := by
  simp only [PlainResults, List.mem_append, or_imp, forall_and]

theorem result_mem_itemUses {items name} (inside : name ∈ items.filterMap (·.aliasName)) :
    .result name ∈ itemUses items := by
  induction items with
  | nil => cases inside
  | cons item rest ih =>
    obtain ⟨expr, aliasName⟩ := item
    simp only [itemUses, List.mem_append]
    cases aliasName with
    | none => exact .inr (ih inside)
    | some own =>
      rcases List.mem_cons.mp inside with rfl | later
      · exact .inl (.inr List.mem_cons_self)
      · exact .inr (ih later)

theorem Sql.columns_inScope {table own others}
    (columns : ∀ entry ∈ own, ∃ column label, entry = .column ⟨table, column⟩ label) :
    Sql.itemTables (own ++ others) = Sql.itemTables others ∧
      ∀ scope, table ∈ scope → Sql.itemsInScope others scope = true →
        Sql.itemsInScope (own ++ others) scope = true := by
  induction own with
  | nil => exact ⟨rfl, fun _ _ => id⟩
  | cons entry rest ih =>
    obtain ⟨⟨column, label, rfl⟩, others⟩ := List.forall_mem_cons.mp columns
    obtain ⟨same, inScope⟩ := ih others
    exact ⟨same, fun scope inside later => Bool.and_eq_true_iff.mpr
      ⟨List.contains_iff_mem.mpr inside, inScope scope inside later⟩⟩

namespace CarriesScope

variable {uses uses' : List NameUse} {listed listed' : List String}
  {within within' after after' : List String → Bool}

theorem always (holds : ∀ known, within' known = true) :
    CarriesScope tables uses listed within within' :=
  fun _ _ known _ _ _ => holds known

theorem and (first : CarriesScope tables uses listed within within')
    (second : CarriesScope tables uses' listed' after after') :
    CarriesScope tables (uses ++ uses') (listed ++ listed')
      (fun scope => within scope && after scope) (fun known => within' known && after' known) := by
  intro plain scope known covers among inside
  obtain ⟨plain, plain'⟩ := plainResults_append.mp plain
  obtain ⟨among, among'⟩ := List.append_subset.mp among
  obtain ⟨here, there⟩ := Bool.and_eq_true_iff.mp inside
  exact Bool.and_eq_true_iff.mpr
    ⟨first plain scope known covers among here, second plain' scope known covers among' there⟩

theorem weaken (carries : CarriesScope tables uses listed within within') (more : uses ⊆ uses')
    (narrower : ∀ scope, after scope = true → within scope = true) :
    CarriesScope tables uses' listed after within' :=
  fun plain scope known covers among inside =>
    carries (fun name found => plain name (more found)) scope known covers among
      (narrower scope inside)

end CarriesScope

theorem covers_results {items} (plain : PlainResults tables (itemUses items)) :
    Covers tables (items.filterMap (·.aliasName)) [] := by
  intro name inside table found
  rw [plain name (result_mem_itemUses inside)] at found
  cases found

-- By recursion on the statement. Lowering may drop pieces, so an expression is looked at from any
-- piece on.
mutual
theorem termInScope_of_under (piece : Piece) (before after : Expression) {term}
    (under : PieceUnder tables piece term) :
    CarriesScope tables (pieceUses piece before after) [] (pieceInScope piece)
      (Sql.termInScope term) := by
  cases piece with
  | path path =>
    cases under with
    | path column found => exact fun _ _ _ covers _ => covers.contains found
    | _ => exact .always fun _ => rfl
  | «variable» name =>
    cases under with
    | entity column found => exact fun _ _ _ covers _ => covers.contains found
    | _ => exact .always fun _ => rfl
  | subselect query =>
    cases under with
    | subselect inner => exact selectInScope_of_under query inner
    | _ => exact .always fun _ => rfl
  | _ => cases under <;> exact .always fun _ => rfl

theorem termsInScope_of_under (pieces : List Piece) (before : Expression) {part}
    (within : part <:+ pieces) {terms} (under : PiecesUnder tables part terms) :
    CarriesScope tables (piecesUses pieces before) [] (piecesInScope pieces)
      (Sql.termsInScope terms) := by
  cases pieces with
  | nil =>
    obtain rfl := List.suffix_nil.mp within
    cases under
    exact .always fun _ => rfl
  | cons piece rest =>
    rcases List.suffix_cons_iff.mp within with rfl | within
    · cases under with
      | cons first dropped later =>
        exact (termInScope_of_under piece before rest first).and
          (termsInScope_of_under rest (before ++ [piece]) dropped later)
    · refine (termsInScope_of_under rest (before ++ [piece]) within under).weaken
        (List.subset_append_right _ _) fun scope inside => ?_
      exact (Bool.and_eq_true_iff.mp inside).2

theorem selectInScope_of_under (query : SelectOf (List Piece)) {sql}
    (under : SelectUnder tables query sql) :
    CarriesScope tables (selectUses query) [] (selectInScope query) (Sql.selectInScope sql) := by
  cases query with
  | mk isDistinct items ranges filter groups groupFilter orders =>
    obtain ⟨_, entries, tables', filter', groups', groupFilter', orders'⟩ := sql
    obtain ⟨listed, ranged, filtered, grouped, limited, ordered⟩ := under
    have parts := (((((itemsInScope_of_under items listed).and
      (rangesInScope_of_under ranges ranged)).and
      (optionalInScope_of_under filter filtered)).and
      (listedInScope_of_under groups grouped)).and
      (optionalInScope_of_under groupFilter limited)).and (ordersInScope_of_under orders ordered)
    intro plain scope known covers _ inside
    have results : Covers tables (items.filterMap (·.aliasName)) [] :=
      covers_results fun name found => plain name (by simp [selectUses, found])
    exact parts plain _ _ ((results.append (covers_ranges ranged)).append covers) (by simp) inside

theorem itemsInScope_of_under (items : List (SelectItem (List Piece))) {entries}
    (under : ItemsUnder tables items entries) :
    CarriesScope tables (itemUses items) [] (itemsInScope items) (Sql.itemsInScope entries) := by
  cases items with
  | nil =>
    cases under
    exact .always fun _ => rfl
  | cons item rest =>
    cases item with
    | mk expr aliasName =>
      have later {others : List (Sql.Item (List Sql.Term))}
          (onward : ItemsUnder tables rest others) := itemsInScope_of_under rest onward
      cases under with
      | entity found columns onward =>
        intro plain scope known covers _ inside
        obtain ⟨own, others⟩ := Bool.and_eq_true_iff.mp inside
        have first := covers.contains found (Bool.and_eq_true_iff.mp own).1
        refine (Sql.columns_inScope columns).2 known (List.contains_iff_mem.mp first) ?_
        exact later onward (plainResults_append.mp plain).2 scope known covers
          (List.nil_subset _) others
      | value here onward =>
        refine ((termsInScope_of_under expr [] List.suffix_rfl here).and
          (later onward)).weaken ?_ fun _ => id
        rw [itemUses, List.append_assoc]
        exact List.append_subset.mpr ⟨List.subset_append_left _ _,
          List.subset_append_of_subset_right _ (List.subset_append_right _ _)⟩

theorem rangesInScope_of_under (ranges : List (Range (List Piece))) {sql}
    (under : List.Forall₂ (RangeUnder tables) ranges sql) :
    CarriesScope tables (rangeUses ranges) (sql.flatMap Sql.Range.aliases) (rangesInScope ranges)
      (Sql.rangesInScope sql) := by
  cases ranges with
  | nil =>
    cases under
    exact .always fun _ => rfl
  | cons range rest =>
    cases range with
    | mk className aliasName index joins =>
      cases under with
      | cons first later =>
        obtain ⟨found, joined⟩ := first
        have here := joinsInScope_of_under joins joined
        have onward := rangesInScope_of_under rest later
        intro plain scope known covers among inside
        simp only [rangeUses, plainResults_append] at plain
        simp only [rangesInScope, Bool.and_eq_true] at inside
        obtain ⟨own, others⟩ := List.append_subset.mp among
        exact Bool.and_eq_true_iff.mpr
          ⟨here plain.1.2 scope known covers (List.cons_subset.mp own).2 inside.1.2,
            onward plain.2 scope known covers others inside.2⟩

theorem joinsInScope_of_under (joins : List (Join (List Piece))) {sql}
    (under : List.Forall₂ (JoinUnder tables) joins sql) :
    CarriesScope tables (joinUses joins) (sql.flatMap Sql.Join.aliases) (joinsInScope joins)
      (Sql.joinsInScope sql) := by
  cases joins with
  | nil =>
    cases under
    exact .always fun _ => rfl
  | cons join rest =>
    cases join with
    | mk isLeft target aliasName index condition =>
      cases under with
      | cons first later =>
        have limited {limit : Option (List Sql.Term)}
            (under : Option.Rel (PiecesUnder tables) condition limit) :=
          optionalInScope_of_under condition under
        have onward := joinsInScope_of_under rest later
        intro plain scope known covers among inside
        simp only [joinUses, plainResults_append] at plain
        simp only [joinsInScope, Bool.and_eq_true] at inside
        obtain ⟨own, others⟩ := List.append_subset.mp among
        have last := onward plain.2 scope known covers others inside.2
        cases first with
        | table name found related =>
          exact Bool.and_eq_true_iff.mpr ⟨limited related plain.1.2 scope known covers
            (List.nil_subset _) inside.1.2, last⟩
        | hops route link name started path found related =>
          cases started
          have start := covers.contains path inside.1.1.1
          simp only [Sql.joinsInScope, Bool.and_eq_true]
          exact ⟨⟨route.hops_inScope (List.contains_iff_mem.mp start) own,
            limited related plain.1.2 scope known covers (List.nil_subset _) inside.1.2⟩,
            last⟩

theorem optionalInScope_of_under (clause : Option (List Piece)) {found}
    (under : Option.Rel (PiecesUnder tables) clause found) :
    CarriesScope tables (optionalUses clause) [] (optionalInScope clause)
      (Sql.optionalInScope found) := by
  cases clause with
  | none =>
    cases under
    exact .always fun _ => rfl
  | some expr =>
    cases under with
    | some given => exact termsInScope_of_under expr [] List.suffix_rfl given

theorem listedInScope_of_under (exprs : List (List Piece)) {entries}
    (under : List.Forall₂ (PiecesUnder tables) exprs entries) :
    CarriesScope tables (listedUses exprs) [] (listedInScope exprs)
      (Sql.listedInScope entries) := by
  cases exprs with
  | nil =>
    cases under
    exact .always fun _ => rfl
  | cons expr rest =>
    cases under with
    | cons first later =>
      exact (termsInScope_of_under expr [] List.suffix_rfl first).and
        (listedInScope_of_under rest later)

theorem ordersInScope_of_under (orders : List (OrderItem (List Piece))) {entries}
    (under : List.Forall₂ (fun o o' => PiecesUnder tables o.expr o'.expr) orders entries) :
    CarriesScope tables (orderUses orders) [] (ordersInScope orders)
      (Sql.ordersInScope entries) := by
  cases orders with
  | nil =>
    cases under
    exact .always fun _ => rfl
  | cons item rest =>
    cases item with
    | mk expr direction =>
      cases under with
      | cons first later =>
        exact (termsInScope_of_under expr [] List.suffix_rfl first).and
          (ordersInScope_of_under rest later)
end

theorem assignmentsInScope_of_under {assignments} {assigned : List Sql.Assignment}
    (under : List.Forall₂ (fun a a' => PiecesUnder tables a.value a'.value) assignments assigned) :
    CarriesScope tables (assignments.flatMap Assignment.uses) []
      (fun scope => assignments.all (Assignment.inScope scope))
      (fun known => assigned.all fun a => Sql.termsInScope a.value known) := by
  induction under with
  | nil => exact .always fun _ => rfl
  | cons first later ih =>
    refine ((termsInScope_of_under _ [] List.suffix_rfl first).and ih).weaken
      (List.subset_cons_self _ _) fun scope inside => ?_
    obtain ⟨own, others⟩ := Bool.and_eq_true_iff.mp inside
    exact Bool.and_eq_true_iff.mpr ⟨(Bool.and_eq_true_iff.mp own).2, others⟩

theorem Statement.Under.inScope {s : Statement} {sql : Sql.Statement} (under : s.Under tables sql) :
    CarriesScope tables s.uses [] s.inScope sql.inScope := by
  cases under with
  | select inner => exact selectInScope_of_under _ inner
  | update name found values condition =>
    have parts := (assignmentsInScope_of_under values).and (optionalInScope_of_under _ condition)
    intro plain scope known covers _ inside
    simp only [Statement.uses, plainResults_append] at plain
    simp only [Statement.inScope, Bool.and_eq_true] at inside
    exact parts (plainResults_append.mpr ⟨plain.1.2, plain.2⟩) _ _
      ((Covers.one found (List.mem_singleton_self _)).append covers) (List.nil_subset _)
      (Bool.and_eq_true_iff.mpr ⟨inside.1.2, inside.2⟩)
  | delete name found condition =>
    intro plain scope known covers _ inside
    exact optionalInScope_of_under _ condition (plainResults_append.mp plain).2 _ _
      ((Covers.one found (List.mem_singleton_self _)).append covers) (List.nil_subset _)
      (Bool.and_eq_true_iff.mp inside).2

end Known

end EntityAudit.Query
