import EntityAudit.Proofs.Query.AliasScoping
import EntityAudit.Proofs.Query.Routes

/-! # Labels of results

A selected column is called after itself and numbered among the columns, any other value is called
`sclr` and numbered among the values. Labels of one kind never meet, but a column that is itself
called `sclr` may meet a value with its number.
-/

namespace EntityAudit.Query

/-- A name with a number at its end. -/
def countedLabel (name : String) (n : Nat) : String :=
  name ++ "_" ++ toString n

theorem underscore_notMem_digits (n : Nat) : '_' ∉ (toString n).toList := by
  rw [Nat.toString_eq_ofList_toDigits, String.toList_ofList]
  intro inside
  have digit := Nat.isDigit_of_mem_toDigits (by decide) (by decide) inside
  exact absurd digit (by decide)

/-- The number is what follows the last underscore, so name and number can be read off. -/
theorem countedLabel_inj {name other n m} :
    countedLabel name n = countedLabel other m ↔ name = other ∧ n = m := by
  refine ⟨fun same => ?_, fun both => by rw [both.1, both.2]⟩
  -- No digit is an underscore: read backwards, the number ends where the first one stands.
  have ending (name : String) (n : Nat) :
      (countedLabel name n).toList.reverse.takeWhile (· != '_') = (toString n).toList.reverse := by
    have digits : ∀ c ∈ (toString n).toList.reverse, (c != '_') = true := by
      intro c inside
      rw [bne_iff_ne]
      rintro rfl
      exact underscore_notMem_digits n (List.mem_reverse.mp inside)
    simp only [countedLabel, String.toList_append, List.reverse_append]
    rw [List.takeWhile_append_of_pos digits]
    simp
  have digits : toString n = toString m := by
    rw [← String.toList_inj, ← List.reverse_inj, ← ending name n, ← ending other m, same]
  obtain rfl : n = m := by
    simpa [Nat.toString_eq_ofList_toDigits] using
      congrArg (fun text : String => Nat.ofDigitChars 10 text.toList 0) digits
  refine ⟨?_, rfl⟩
  simpa [countedLabel] using same

namespace Sql

variable {ε : Type}

def Item.label? : Item ε → Option String
  | .column _ label => some label
  | .value _ label => label

def Item.column? : Item ε → Option String
  | .column reference _ => some reference.column
  | .value _ _ => none

def labels (items : List (Item ε)) : List String :=
  items.filterMap Item.label?

def columnNames (items : List (Item ε)) : List String :=
  items.filterMap Item.column?

def valueCount (items : List (Item ε)) : Nat :=
  items.countP (·.column?.isNone)

/-- Entries of a select list with their labels, where columns are numbered from `m` up to `m'` and
    values from `n` up to `n'`. -/
inductive Labelled : (m n m' n' : Nat) → List (Item ε) → Prop where
  | nil {m n} : Labelled m n m n []
  | column {m n m' n' items} (column : ColumnRef) (rest : Labelled (m + 1) n m' n' items) :
      Labelled m n m' n' (.column column (countedLabel column.column m) :: items)
  | value {m n m' n' items} (expr : ε) (rest : Labelled m (n + 1) m' n' items) :
      Labelled m n m' n' (.value expr (some (countedLabel "sclr" n)) :: items)

namespace Labelled

variable {m n m' n' : Nat} {items : List (Item ε)}

theorem append {m'' n'' others} (first : Labelled m n m' n' items)
    (second : Labelled m' n' m'' n'' others) : Labelled m n m'' n'' (items ++ others) := by
  induction first with
  | nil => exact second
  | column column _ ih => exact .column column (ih second)
  | value expr _ ih => exact .value expr (ih second)

variable (labelled : Labelled m n m' n' items)

include labelled

theorem counts :
    m' = m + (columnNames items).length ∧ n' = n + valueCount items := by
  induction labelled with
  | nil => exact ⟨rfl, rfl⟩
  | column column _ ih =>
    refine ⟨ih.1.trans ?_, ih.2⟩
    rw [Nat.add_assoc, Nat.add_comm 1]
    rfl
  | value expr _ ih =>
    refine ⟨ih.1, ih.2.trans ?_⟩
    rw [Nat.add_assoc, Nat.add_comm 1, valueCount, valueCount, List.countP_cons_of_pos rfl]

theorem values_le : n ≤ n' := by
  induction labelled with
  | nil => exact Nat.le_refl _
  | column _ _ ih => exact ih
  | value _ _ ih => omega

/-- The labels are those of the columns, each with its own number, and one for each number of a
    value. -/
theorem mem_labels {label} :
    label ∈ labels items ↔
      (∃ i name, (columnNames items)[i]? = some name ∧ label = countedLabel name (m + i)) ∨
        ∃ j, n ≤ j ∧ j < n' ∧ label = countedLabel "sclr" j := by
  induction labelled with
  | nil =>
    simp [labels, columnNames]
    intros; omega
  | @column m n m' n' items column rest ih =>
    have listed : label ∈ labels (.column column (countedLabel column.column m) :: items) ↔
        label = countedLabel column.column m ∨ label ∈ labels items := List.mem_cons
    rw [listed, ih]
    constructor
    · rintro (rfl | ⟨i, name, named, rfl⟩ | value)
      · exact .inl ⟨0, column.column, rfl, rfl⟩
      · exact .inl ⟨i + 1, name, named, by rw [Nat.add_assoc, Nat.add_comm 1]⟩
      · exact .inr value
    · rintro (⟨i, name, named, rfl⟩ | value)
      · cases i with
        | zero =>
          cases named
          exact .inl rfl
        | succ i =>
          exact .inr (.inl ⟨i, name, named, by rw [Nat.add_assoc, Nat.add_comm 1]⟩)
      · exact .inr (.inr value)
  | @value m n m' n' items expr rest ih =>
    have listed : label ∈ labels (.value expr (some (countedLabel "sclr" n)) :: items) ↔
        label = countedLabel "sclr" n ∨ label ∈ labels items := List.mem_cons
    have more := rest.values_le
    rw [listed, ih]
    constructor
    · rintro (rfl | column | ⟨j, above, below, rfl⟩)
      · exact .inr ⟨n, Nat.le_refl n, by omega, rfl⟩
      · exact .inl column
      · exact .inr ⟨j, by omega, below, rfl⟩
    · rintro (column | ⟨j, above, below, rfl⟩)
      · exact .inr (.inl column)
      · by_cases same : j = n
        · exact .inl (by rw [same])
        · exact .inr (.inr ⟨j, by omega, below, rfl⟩)

/-- Two labels are equal exactly if a column is called `sclr` and has the number of a value. -/
theorem nodup_iff :
    (labels items).Nodup ↔
      ∀ i, (columnNames items)[i]? = some "sclr" → ¬ (n ≤ m + i ∧ m + i < n') := by
  -- Numbers only grow, so the entry in front can meet none of its own kind.
  induction labelled with
  | nil => simp [labels, columnNames]
  | @column m n m' n' items column rest ih =>
    have listed : (labels (.column column (countedLabel column.column m) :: items)).Nodup ↔
        countedLabel column.column m ∉ labels items ∧ (labels items).Nodup := List.nodup_cons
    have fresh : countedLabel column.column m ∉ labels items ↔
        (column.column = "sclr" → ¬ (n ≤ m ∧ m < n')) := by
      rw [rest.mem_labels]
      simp only [countedLabel_inj]
      constructor
      · rintro apart named ⟨above, below⟩
        exact apart (.inr ⟨m, above, below, named, rfl⟩)
      · rintro apart (⟨i, name, -, -, same⟩ | ⟨j, above, below, named, rfl⟩)
        · omega
        · exact apart named ⟨above, below⟩
    rw [listed, fresh, ih]
    constructor
    · rintro ⟨first, later⟩ i named
      cases i with
      | zero => exact first (Option.some.inj named)
      | succ i =>
        have := later i named
        omega
    · intro all
      refine ⟨fun named => all 0 (congrArg some named), fun i named => ?_⟩
      have := all (i + 1) named
      omega
  | @value m n m' n' items expr rest ih =>
    have listed : (labels (.value expr (some (countedLabel "sclr" n)) :: items)).Nodup ↔
        countedLabel "sclr" n ∉ labels items ∧ (labels items).Nodup := List.nodup_cons
    have fresh : countedLabel "sclr" n ∉ labels items ↔
        ∀ i, (columnNames items)[i]? = some "sclr" → m + i ≠ n := by
      rw [rest.mem_labels]
      simp only [countedLabel_inj]
      constructor
      · rintro apart i named same
        exact apart (.inl ⟨i, "sclr", named, rfl, same.symm⟩)
      · rintro apart (⟨i, name, named, rfl, same⟩ | ⟨j, above, -, -, same⟩)
        · exact apart i named same.symm
        · omega
    have more := rest.values_le
    have columns : columnNames (.value expr (some (countedLabel "sclr" n)) :: items) =
        columnNames items := rfl
    rw [listed, fresh, ih, columns]
    constructor
    · rintro ⟨first, later⟩ i named
      have := first i named
      have := later i named
      omega
    · intro all
      refine ⟨fun i named => ?_, fun i named => ?_⟩
      · have := all i named
        omega
      · have := all i named
        omega

end Labelled

theorem renderItems_labels {m n m' n' items} (labelled : Labelled m n m' n' items) :
    List.Forall₂ (fun text label => ∃ value, text = value ++ " AS " ++ label)
      (renderItems items) (labels items) := by
  induction labelled with
  | nil => exact .nil
  | column column _ ih => exact .cons ⟨_, rfl⟩ ih
  | value expr _ ih => exact .cons ⟨_, rfl⟩ ih

theorem renderSelect_items (query : Select) : ∃ rest, renderSelect query =
    "SELECT " ++ (if query.isDistinct then "DISTINCT " else "") ++
      ", ".intercalate (renderItems query.items) ++ " FROM " ++ rest := by
  obtain ⟨isDistinct, items, ranges, filter, groups, groupFilter, orders⟩ := query
  refine ⟨", ".intercalate (renderRanges ranges) ++ (renderClause " WHERE " filter ++
    (listClause " GROUP BY " (renderList groups) ++ (renderClause " HAVING " groupFilter ++
      listClause " ORDER BY " (renderOrders orders)))), ?_⟩
  -- The printer unfolds by itself; its equations take long to generate.
  change _ ++ _ ++ _ ++ _ ++ _ = _
  simp only [String.append_assoc]

def Statement.select? : Statement → Option Select
  | .select query => some query
  | _ => none

theorem Statement.select?_some {sql : Statement} {query} (selected : sql.select? = some query) :
    sql = .select query := by
  cases sql with
  | select query => rw [Option.some.inj selected]
  | update => cases selected
  | delete => cases selected

end Sql

theorem Lower.columns_labelled {table : String} {fields : List Field}
    {entries : List (Sql.Item Sql.Expression)} {s s' : Issued}
    (given : fields.mapM (Lower.column table) s = some (entries, s')) :
    Sql.Labelled s.columnCount s.valueCount s'.columnCount s'.valueCount entries := by
  induction fields generalizing s entries with
  | nil =>
    obtain ⟨rfl, rfl⟩ := pure_some.mp given
    exact .nil
  | cons field rest ih =>
    simp only [List.mapM_cons, bind_some, pure_some] at given
    obtain ⟨entry, middle, first, others, _, later, rfl, rfl⟩ := given
    simp only [column, bind_some, get_some, set_some, pure_some] at first
    obtain ⟨_, _, ⟨rfl, rfl⟩, _, _, rfl, rfl, rfl⟩ := first
    exact .column ⟨table, field.column⟩ (ih later)

theorem Lower.label_labelled {name label s s'} (given : Lower.label name s = some (label, s'))
    (terms : Sql.Expression) :
    Sql.Labelled s.columnCount s.valueCount s'.columnCount s'.valueCount
      [.value terms (some label)] := by
  simp only [Lower.label, bind_some, get_some, set_some, pure_some] at given
  obtain ⟨_, _, ⟨rfl, rfl⟩, _, _, rfl, rfl, rfl⟩ := given
  exact .value terms .nil

/-- Only the select list at the top gives out labels, one for each of its entries. -/
def labelling {aliases : Aliases} : Judgement aliases where
  piece s _ _ s' := s.SameLabels s'
  pieces s _ _ s' := s.SameLabels s'
  select isTop s _ sql s' := (isTop = false → s.SameLabels s') ∧
    (isTop = true → ∃ m n, Sql.Labelled s.columnCount s.valueCount m n sql.items)
  items isTop s _ entries s' := (isTop = false → s.SameLabels s') ∧
    (isTop = true →
      Sql.Labelled s.columnCount s.valueCount s'.columnCount s'.valueCount entries)
  ranges s _ _ s' := s.SameLabels s'
  joins s _ _ s' := s.SameLabels s'
  clause s _ _ s' := s.SameLabels s'
  list s _ _ s' := s.SameLabels s'
  orders s _ _ s' := s.SameLabels s'
  assignments _ _ _ _ _ := True
  statement s _ sql _ := ∀ query, sql = .select query →
    ∃ m n, Sql.Labelled s.columnCount s.valueCount m n query.items
  word _ := .refl _
  text _ := .refl _
  parameter numbered := (Lower.parameter_some numbered).2
  path _ _ _ := .refl _
  entity _ _ _ := .refl _
  result _ := .refl _
  subselect inner := inner.1 rfl
  pieces_nil := .refl _
  pieces_cons _ _ first later := first.trans later
  select_mk issued listed ranged filtered grouped limited ordered := by
    have unlabelled := (Lower.issueAliases_onlyTables issued).toSameLabels
    refine ⟨fun nested => ?_, fun top => ?_⟩
    · exact (unlabelled.trans (listed.1 nested)).trans
        (ranged.trans (filtered.trans (grouped.trans (limited.trans ordered))))
    · have own := listed.2 top
      rw [unlabelled.columnCount, unlabelled.valueCount] at own
      exact ⟨_, _, own⟩
  items_nil := ⟨fun _ => .refl _, fun _ => .nil⟩
  items_entity _ _ spread later := ⟨fun no => absurd no.symm Bool.false_ne_true, fun _ =>
    (Lower.columns_labelled spread).append (later.2 rfl)⟩
  items_value {_ _ _ _ terms _ _ _ _ _ _} valued labelled later := by
    rcases Lower.entryLabel_some labelled with ⟨_, rfl, given, rfl⟩ | ⟨rfl, -, rfl⟩
    · refine ⟨fun no => absurd no.symm Bool.false_ne_true, fun _ => ?_⟩
      have own := Lower.label_labelled given terms
      rw [valued.columnCount, valued.valueCount] at own
      exact own.append (later.2 rfl)
    · exact ⟨fun _ => valued.trans (later.1 rfl), fun no => absurd no Bool.false_ne_true⟩
  ranges_nil := .refl _
  ranges_cons _ _ joined later := joined.trans later
  joins_nil := .refl _
  joins_entity _ _ limited later := limited.trans later
  joins_association _ _ _ _ _ _ linked limited later :=
    (Lower.linkAlias_some linked).2.toSameLabels.trans (limited.trans later)
  clause_none := .refl _
  clause_some given := given
  list_nil := .refl _
  list_cons first later := first.trans later
  orders_nil := .refl _
  orders_cons first later := first.trans later
  assignments_nil := trivial
  assignments_cons _ _ _ := trivial
  selected inner query same := by
    cases same
    exact inner.2 rfl
  updated _ _ _ _ _ _ same := by cases same
  deleted _ _ _ _ _ same := by cases same

theorem lowerStatement_labelled {aliases statement query s'}
    (lowered : lowerStatement aliases statement {} = some (.select query, s')) :
    Sql.Labelled 0 0 (Sql.columnNames query.items).length (Sql.valueCount query.items)
      query.items := by
  obtain ⟨m, n, labelled⟩ := lowerStatement_judged labelling lowered query rfl
  obtain ⟨rfl, rfl⟩ := labelled.counts
  simpa only [Nat.zero_add] using labelled

/-- In the SQL of an accepted text that selects, each entry of the select list has one label, given
    out by counting columns and values, with which its text ends. The labels are distinct exactly if
    no column called `sclr` comes at a place, among the columns, below the number of values. -/
theorem compile_labels_distinct_iff {text : String} {g g' : Gateway} {compiled : Compiled}
    (accepted : compile text g = .ok compiled g') {query : Sql.Select}
    (formed : compiled.sql = some (.select query)) :
    Sql.Labelled 0 0 (Sql.columnNames query.items).length (Sql.valueCount query.items)
        query.items ∧
      List.Forall₂ (fun text label => ∃ value, text = value ++ " AS " ++ label)
        (Sql.renderItems query.items) (Sql.labels query.items) ∧
      (∃ rest, (Sql.Statement.select query).render =
        "SELECT " ++ (if query.isDistinct then "DISTINCT " else "") ++
          ", ".intercalate (Sql.renderItems query.items) ++ " FROM " ++ rest) ∧
      ((Sql.labels query.items).Nodup ↔
        ∀ i, (Sql.columnNames query.items)[i]? = some "sclr" →
          Sql.valueCount query.items ≤ i) := by
  obtain ⟨parsed, found, rfl⟩ := compile_ok.mp accepted
  obtain ⟨issued, lowered⟩ := Compiled.ofStatement_some formed
  have labelled := lowerStatement_labelled lowered
  refine ⟨labelled, Sql.renderItems_labels labelled, Sql.renderSelect_items query, ?_⟩
  rw [labelled.nodup_iff]
  refine forall_congr' fun i => imp_congr_right fun _ => ?_
  omega

/-- A column called `sclr` whose number no value has. -/
theorem compile_labels_distinct_iff_apart :
    let text := "SELECT u, u.id FROM User u"
    let user : EntityRecord :=
      { className := "User", table := "users",
        fields := [{ name := "id", column := "id", columnType := "integer", isId := true },
          { name := "rank", column := "sclr", columnType := "integer" }] }
    let g : Gateway := .ofSource (Catalog.toSource { records := [("user", user)] })
    ∃ compiled query g', compile text g = .ok compiled g' ∧ compiled.sql = some (.select query) ∧
      Sql.labels query.items = ["id_0", "sclr_1", "sclr_0"] ∧ (Sql.labels query.items).Nodup := by
  intro text user g
  have readable : succeeds (compile text) g (fun compiled =>
      (compiled.sql.bind (·.select?)).map (fun query =>
        (Sql.labels query.items, Sql.columnNames query.items, Sql.valueCount query.items)) ==
          some (["id_0", "sclr_1", "sclr_0"], ["id", "sclr"], 1)) = true := by
    decide +kernel
  obtain ⟨compiled, g', accepted, passed⟩ := exists_of_succeeds readable
  obtain ⟨query, formed, same⟩ := Option.map_eq_some_iff.mp (eq_of_beq passed)
  obtain ⟨sql, formed, selected⟩ := Option.bind_eq_some_iff.mp formed
  obtain rfl := Sql.Statement.select?_some selected
  obtain ⟨named, same⟩ := Prod.mk.inj same
  obtain ⟨columns, values⟩ := Prod.mk.inj same
  obtain ⟨-, -, -, distinct⟩ := compile_labels_distinct_iff accepted formed
  refine ⟨compiled, query, g', accepted, formed, named, distinct.mpr fun i found => ?_⟩
  rw [columns] at found
  rw [values]
  cases i with
  | zero => exact absurd found (by decide)
  | succ i => omega

/-- A column called `sclr` is counted apart from the value after it, and both get number zero. -/
theorem compile_labels_repeated :
    let text := "SELECT u, u.id FROM User u"
    let user : EntityRecord :=
      { className := "User", table := "users",
        fields := [{ name := "id", column := "sclr", columnType := "integer", isId := true }] }
    let g : Gateway := .ofSource (Catalog.toSource { records := [("user", user)] })
    let written :=
      "SELECT u0_.\"sclr\" AS sclr_0, u0_.\"sclr\" AS sclr_0 FROM \"users\" u0_"
    ∃ compiled query g', compile text g = .ok compiled g' ∧ compiled.sql = some (.select query) ∧
      (Sql.Statement.select query).render = written ∧ ¬ (Sql.labels query.items).Nodup := by
  intro text user g written
  have readable : succeeds (compile text) g (fun compiled =>
      (compiled.sql.bind (·.select?)).map (fun query =>
        (Sql.renderSelect query, Sql.labels query.items)) ==
          some (written, ["sclr_0", "sclr_0"])) = true := by
    decide +kernel
  obtain ⟨compiled, g', accepted, passed⟩ := exists_of_succeeds readable
  obtain ⟨query, formed, same⟩ := Option.map_eq_some_iff.mp (eq_of_beq passed)
  obtain ⟨sql, formed, selected⟩ := Option.bind_eq_some_iff.mp formed
  obtain rfl := Sql.Statement.select?_some selected
  obtain ⟨rendered, named⟩ := Prod.mk.inj same
  refine ⟨compiled, query, g', accepted, formed, rendered, ?_⟩
  rw [named]
  decide

end EntityAudit.Query
