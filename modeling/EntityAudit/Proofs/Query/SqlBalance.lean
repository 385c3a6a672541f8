import EntityAudit.Proofs.Query.AliasScoping
import EntityAudit.Proofs.Query.TextSides

/-! # Parentheses of SQL

The SQL of an accepted text has the parentheses of its expressions but for those after a function
that SQL writes without: lowering drops the opening one and whatever piece stands next. If that is
the closing one, a matching pair is gone; if it is anything else, a closing one is left that nothing
opens, and no other place makes up for it.
-/

namespace EntityAudit

/-- Whether a name consists of ASCII letters, digits and underscores. -/
def isPlainName (name : String) : Bool :=
  name.toList.all fun c => c.isAlphanum || c == '_'

def columnNames (columns : List JoinColumn) : List String :=
  columns.flatMap fun column => [column.name, column.referenced]

def Association.storageNames (association : Association) : List String :=
  columnNames association.joinColumns ++ association.joinTable.toList.flatMap fun table =>
    table.name :: (columnNames table.joinColumns ++ columnNames table.inverseColumns)

def EntityRecord.storageNames (record : EntityRecord) : List String :=
  record.table ::
    (record.fields.map (·.column) ++ record.associations.flatMap (·.storageNames))

def EntityRecord.HasPlainNames (record : EntityRecord) : Prop :=
  ∀ name ∈ record.storageNames, isPlainName name = true

instance (record : EntityRecord) : Decidable record.HasPlainNames :=
  decidable_of_iff (record.storageNames.all isPlainName = true) List.all_eq_true

def Gateway.HasPlainNames (g : Gateway) : Prop :=
  ∀ className record, g.Maps className record → record.HasPlainNames

theorem Gateway.hasPlainNames_ofCatalog {c : Catalog}
    (all : ∀ entry ∈ c.records, entry.2.HasPlainNames) :
    (Gateway.ofSource c.toSource).HasPlainNames := by
  intro className record maps
  exact all _ (Dict.mem_of_get? (maps_ofCatalog.mp maps))

namespace EntityRecord.HasPlainNames

variable {record : EntityRecord} {property column : String}

theorem table (plain : record.HasPlainNames) : isPlainName record.table = true :=
  plain _ List.mem_cons_self

theorem field (plain : record.HasPlainNames) {mapping} (among : mapping ∈ record.fields) :
    isPlainName mapping.column = true := by
  refine plain _ (List.mem_cons_of_mem _ (List.mem_append_left _ ?_))
  exact List.mem_map.mpr ⟨mapping, among, rfl⟩

theorem association (plain : record.HasPlainNames) {association}
    (named : record.association? property = some association) :
    ∀ name ∈ association.storageNames, isPlainName name = true := by
  intro name inside
  refine plain _ (List.mem_cons_of_mem _ (List.mem_append_right _ ?_))
  exact List.mem_flatMap.mpr ⟨association, List.mem_of_find?_eq_some named, inside⟩

theorem columnOf? (plain : record.HasPlainNames) (found : record.columnOf? property = some column) :
    isPlainName column = true := by
  rw [EntityRecord.columnOf?] at found
  split at found
  · rename_i mapping known
    cases found
    exact plain.field (List.mem_of_find?_eq_some known)
  · split at found
    · rename_i association named
      split at found
      · rename_i only
        cases found
        apply plain.association named
        simp [Association.storageNames, columnNames, only]
      · cases found
    · cases found

theorem idColumn? (plain : record.HasPlainNames) (found : record.idColumn? = some column) :
    isPlainName column = true := by
  rw [EntityRecord.idColumn?] at found
  split at found
  · rename_i mapping only
    cases found
    apply plain.field
    have among : mapping ∈ record.identifier := by simp [only]
    exact (List.mem_filter.mp among).1
  · cases found

end EntityRecord.HasPlainNames

namespace Query

variable {name : String} {expressions : List Expression}
variable {piece : Piece} {rest : List Piece} {found : Option Sql.Expression}

instance (text : String) : Decidable (IsInertText text) :=
  decidable_of_iff (text.toList.all (decide <| IsInert ·) = true) (by simp [IsInertText])

theorem isInertText_of_isPlainName (plain : isPlainName name = true) : IsInertText name := by
  intro c inside
  have word := List.all_eq_true.mp plain c inside
  simp only [Bool.or_eq_true, beq_iff_eq] at word
  rcases word with letter | rfl
  · exact (isLexical_of_isAlphanum letter).1
  · decide

theorem isInertText_empty : IsInertText "" :=
  fun _ inside => absurd inside List.not_mem_nil

theorem isInertText_append {text text'} :
    IsInertText (text ++ text') ↔ IsInertText text ∧ IsInertText text' := by
  simp only [IsInertText, String.toList_append, List.forall_mem_append]

theorem isInertText_toString (n : Nat) : IsInertText (toString n) := by
  intro c inside
  rw [Nat.toString_eq_ofList_toDigits, String.toList_ofList] at inside
  exact And.left <| isLexical_of_isDigit (Nat.isDigit_of_mem_toDigits (by decide) (by decide) inside)

theorem IsInertText.quoteName (inert : IsInertText name) : IsInertText (Sql.quoteName name) := by
  refine isInertText_append.mpr ⟨isInertText_append.mpr ⟨by decide, ?_⟩, by decide⟩
  intro c inside
  rw [String.toList_ofList, Sql.doubled] at inside
  obtain ⟨d, among, same⟩ := List.mem_flatMap.mp inside
  have : c = d := by
    split at same <;> simpa using same
  exact this ▸ inert d among

theorem IsInertText.intercalate {separator texts} (between : IsInertText separator)
    (all : ∀ text ∈ texts, IsInertText text) : IsInertText (separator.intercalate texts) := by
  induction texts with
  | nil => exact isInertText_empty
  | cons text texts ih =>
    obtain ⟨first, later⟩ := List.forall_mem_cons.mp all
    cases texts with
    | nil => rwa [String.intercalate_singleton]
    | cons next texts =>
      rw [String.intercalate_cons_cons]
      exact isInertText_append.mpr ⟨isInertText_append.mpr ⟨first, between⟩, ih later⟩

theorem isInertText_column {table column} (known : IsInertText table)
    (plain : isPlainName column = true) : IsInertText (Sql.ColumnRef.render ⟨table, column⟩) := by
  refine isInertText_append.mpr ⟨isInertText_append.mpr ⟨known, by decide⟩, ?_⟩
  exact (isInertText_of_isPlainName plain).quoteName

def Route.names : Route → List String
  | .forward columns | .backward columns => columnNames columns
  | .link table toOwner toTarget => table :: (columnNames toOwner ++ columnNames toTarget)

section Routes

variable {association : Association} {route : Route} {table : JoinTable}

section

variable (plain : ∀ name ∈ association.storageNames, isPlainName name = true)

include plain

theorem joinColumns_plain :
    ∀ name ∈ columnNames association.joinColumns, isPlainName name = true :=
  fun name inside => plain name (List.mem_append_left _ inside)

theorem joinTable_plain (linked : association.joinTable = some table) :
    isPlainName table.name = true ∧
      (∀ name ∈ columnNames table.joinColumns, isPlainName name = true) ∧
      ∀ name ∈ columnNames table.inverseColumns, isPlainName name = true := by
  have all : ∀ name ∈ table.name ::
      (columnNames table.joinColumns ++ columnNames table.inverseColumns),
      isPlainName name = true := by
    intro name inside
    apply plain
    simp only [Association.storageNames, linked, Option.toList_some, List.flatMap_singleton]
    exact List.mem_append_right _ inside
  obtain ⟨named, columns⟩ := List.forall_mem_cons.mp all
  exact ⟨named, List.forall_mem_append.mp columns⟩

/-- A route has the names of the association that it belongs to, or of the one that this leaves its
    mapping to. -/
theorem Route.of?_plain {target} (plainTarget : target.HasPlainNames)
    (leads : Route.of? association target = some route) :
    ∀ name ∈ route.names, isPlainName name = true := by
  rw [Route.of?] at leads
  split at leads
  · cases leads
    exact joinColumns_plain plain
  · split at leads
    · rename_i table linked
      cases leads
      obtain ⟨named, first, second⟩ := joinTable_plain plain linked
      exact List.forall_mem_cons.mpr ⟨named, List.forall_mem_append.mpr ⟨first, second⟩⟩
    · simp only [Option.bind_eq_bind, Option.bind_eq_some_iff] at leads
      obtain ⟨mappedBy, -, owner, named, leads⟩ := leads
      have plainOwner := plainTarget.association named
      split at leads
      · cases leads
        exact joinColumns_plain plainOwner
      · split at leads
        · obtain ⟨table, linked, same⟩ := Option.bind_eq_some_iff.mp leads
          cases same
          obtain ⟨named, first, second⟩ := joinTable_plain plainOwner linked
          exact List.forall_mem_cons.mpr ⟨named, List.forall_mem_append.mpr ⟨second, first⟩⟩
        · cases leads

end

variable {near far : String}

theorem equalities_inert {columns} (plain : ∀ name ∈ columnNames columns, isPlainName name = true)
    (nearInert : IsInertText near) (farInert : IsInertText far) :
    ∀ text ∈ (Route.equalities columns near far).map (·.render), IsInertText text := by
  intro text inside
  obtain ⟨e, among, rfl⟩ := List.mem_map.mp inside
  obtain ⟨column, held, rfl⟩ := List.mem_map.mp among
  have own : isPlainName column.name = true :=
    plain _ (List.mem_flatMap.mpr ⟨column, held, by simp⟩)
  have other : isPlainName column.referenced = true :=
    plain _ (List.mem_flatMap.mpr ⟨column, held, by simp⟩)
  refine isInertText_append.mpr ⟨isInertText_append.mpr ⟨?_, by decide⟩, ?_⟩
  · exact isInertText_column nearInert own
  · exact isInertText_column farInert other

theorem hop_inert {columns aliasName}
    (plain : ∀ name ∈ columnNames columns, isPlainName name = true)
    (named : isPlainName name = true) (known : IsInertText aliasName) (nearInert : IsInertText near)
    (farInert : IsInertText far) :
    IsInertText (Sql.Hop.render ⟨name, aliasName, Route.equalities columns near far⟩) := by
  simp only [Sql.Hop.render, isInertText_append]
  refine ⟨⟨⟨⟨(isInertText_of_isPlainName named).quoteName, by decide⟩, known⟩,
    by decide⟩, ?_⟩
  exact IsInertText.intercalate (by decide) (equalities_inert plain nearInert farInert)

theorem hops_inert {owner target link targetTable}
    (plain : ∀ name ∈ route.names, isPlainName name = true) (ownerInert : IsInertText owner)
    (targetInert : IsInertText target) (linkInert : IsInertText link)
    (named : isPlainName targetTable = true) :
    ∀ hop ∈ route.hops owner target link targetTable, IsInertText hop.render := by
  cases route with
  | forward columns =>
    exact List.forall_mem_singleton.mpr (hop_inert plain named targetInert ownerInert targetInert)
  | backward columns =>
    exact List.forall_mem_singleton.mpr (hop_inert plain named targetInert targetInert ownerInert)
  | link table toOwner toTarget =>
    obtain ⟨linkNamed, columns⟩ := List.forall_mem_cons.mp plain
    obtain ⟨first, second⟩ := List.forall_mem_append.mp columns
    refine List.forall_mem_cons.mpr ⟨?_, List.forall_mem_singleton.mpr ?_⟩
    · exact hop_inert first linkNamed linkInert linkInert ownerInert
    · exact hop_inert second named targetInert linkInert targetInert

end Routes

/-- Whether parentheses that stand first, if any do, are closed at once. -/
def startsEmpty : List Piece → Bool
  | .opening :: .closing :: _ => true
  | .opening :: _ => false
  | _ => true

/-- Whether no function that SQL writes without parentheses has anything between its own. A
    subselect right after the function brings parentheses itself. -/
def hasEmptyBareCalls : Expression → Bool
  | [] => true
  | piece :: rest => (!piece.isBareFunction || startsEmpty rest) && hasEmptyBareCalls rest

def AreTidy (expressions : List Expression) : Prop :=
  ∀ e ∈ expressions, hasEmptyBareCalls e = true

theorem areTidy_append {first second} :
    AreTidy (first ++ second) ↔ AreTidy first ∧ AreTidy second :=
  List.forall_mem_append

theorem areTidy_cons {e rest} : AreTidy (e :: rest) ↔ hasEmptyBareCalls e = true ∧ AreTidy rest :=
  List.forall_mem_cons

theorem Piece.isOpening_iff : piece.isOpening = true ↔ piece = .opening := by
  cases piece <;> simp [Piece.isOpening]

/-- What lowering drops after a piece counts as nothing where it is a pair of parentheses, and
    otherwise as an opening one that is missing. -/
theorem follows_onward {sides}
    (later : Follows ((piece.onward rest).filterMap
      Piece.side?) sides (AreTidy (piece.onward rest :: nestedExpressions (piece.onward rest)))) :
    Follows (rest.filterMap Piece.side?) sides
      ((piece.isBareFunction = true → startsEmpty rest = true) ∧
        AreTidy (rest :: nestedExpressions rest)) := by
  by_cases drops : (piece.isBareFunction && rest.head?.any (·.isOpening)) = true
  · rw [Piece.onward, if_pos drops] at later
    obtain ⟨bare, opens⟩ := Bool.and_eq_true_iff.mp drops
    cases rest with
    | nil => cases opens
    | cons first rest =>
      obtain rfl : first = .opening := Piece.isOpening_iff.mp opens
      have lost : Follows [.opening] [] False := ⟨False.elim, by decide, fun _ => by decide⟩
      cases rest with
      | nil => exact (lost.append later).congr (by simp [bare, startsEmpty])
      | cons second rest =>
        cases second with
        | closing =>
          have pair : Follows [.opening, .closing] [] True :=
            ⟨fun _ _ _ known => known, by decide, absurd trivial⟩
          refine (pair.append later).congr ?_
          simp [startsEmpty, areTidy_cons, hasEmptyBareCalls, Piece.isBareFunction,
            nestedExpressions, pieceExpressions]
        | opening => exact ((lost.append lost).append later).congr (by simp [bare, startsEmpty])
        | _ => exact (lost.append later).congr (by simp [bare, startsEmpty])
  · rw [Piece.onward, if_neg drops] at later
    refine later.congr ⟨fun tidy => ⟨fun bare => ?_, tidy⟩, And.right⟩
    rw [bare, Bool.true_and] at drops
    cases rest with
    | nil => rfl
    | cons first rest =>
      cases first with
      | opening => exact absurd rfl drops
      | _ => rfl

theorem areTidy_onward :
    AreTidy ((piece :: rest) :: nestedExpressions (piece :: rest)) ↔
      AreTidy (pieceExpressions piece) ∧
        (piece.isBareFunction = true → startsEmpty rest = true) ∧
        AreTidy (rest :: nestedExpressions rest) := by
  rw [nestedExpressions, areTidy_cons, areTidy_append, areTidy_cons, hasEmptyBareCalls,
    Bool.and_eq_true, Bool.or_eq_true, Bool.not_eq_true', ← Bool.not_eq_true, ← imp_iff_not_or]
  tauto

/-- The text of a part of a statement has the parentheses `source` of the part, but for what
    functions without parentheses make it lose; `expressions` are those that the part is made of. -/
def Writes (text : String) (source : List Side) (expressions : List Expression) : Prop :=
  ∃ sides, Marks text sides ∧ Follows source sides (AreTidy expressions)

namespace Writes

variable {text text' separator : String} {source source' : List Side}
  {expressions expressions' : List Expression}

theorem append (first : Writes text source expressions)
    (second : Writes text' source' expressions') :
    Writes (text ++ text') (source ++ source') (expressions ++ expressions') := by
  obtain ⟨sides, marks, follows⟩ := first
  obtain ⟨sides', marks', follows'⟩ := second
  exact ⟨_, marks.append marks', (follows.append follows').congr areTidy_append.symm⟩

theorem mark (marks : Marks text source) : Writes text source [] :=
  ⟨source, marks, (Follows.same source).congr (by simp [AreTidy])⟩

theorem inert (all : IsInertText text) : Writes text [] [] :=
  mark (.inert all)

theorem after (written : Writes text source expressions) (before : IsInertText text') :
    Writes (text' ++ text) source expressions :=
  (inert before).append written

theorem before (written : Writes text source expressions) (after : IsInertText text') :
    Writes (text ++ text') source expressions := by
  have whole := written.append (inert after)
  rwa [List.append_nil, List.append_nil] at whole

theorem seq (first : Writes text [] expressions) (second : Writes text' [] expressions') :
    Writes (text ++ text') [] (expressions ++ expressions') :=
  first.append second

theorem congr (written : Writes text source expressions)
    (same : AreTidy expressions ↔ AreTidy expressions') : Writes text source expressions' := by
  obtain ⟨sides, marks, follows⟩ := written
  exact ⟨sides, marks, follows.congr same⟩

theorem intercalate_cons {texts} (between : IsInertText separator)
    (first : Writes text source expressions)
    (rest : Writes (separator.intercalate texts) source' expressions') :
    Writes (separator.intercalate (text :: texts)) (source ++ source')
      (expressions ++ expressions') := by
  obtain ⟨sides, marks, follows⟩ := first
  obtain ⟨sides', marks', follows'⟩ := rest
  exact ⟨_, marks.intercalate_cons between marks',
    (follows.append follows').congr areTidy_append.symm⟩

theorem enclosed (written : Writes text [] expressions) :
    Writes ("(" ++ text ++ ")") [] expressions := by
  obtain ⟨sides, marks, follows⟩ := written
  have opening : Marks "(" [.opening] := ⟨by decide, by decide⟩
  have closing : Marks ")" [.closing] := ⟨by decide, by decide⟩
  exact ⟨_, (opening.append marks).append closing, follows.enclosed⟩

theorem settled {e} (written : Writes text (e.filterMap Piece.side?) expressions)
    (balanced : IsBalanced Piece.side? e) : Writes text [] expressions := by
  obtain ⟨sides, marks, follows⟩ := written
  exact ⟨sides, marks, follows.settled (isBalanced_iff.mp balanced)⟩

end Writes

theorem Writes.listClause {words texts} (inert : IsInertText words)
    (written : Writes (", ".intercalate texts) [] expressions) :
    Writes (Sql.listClause words texts) [] expressions := by
  cases texts with
  | nil => exact written
  | cons text texts => exact written.after inert

theorem writes_pieces {text texts} (first : Writes text piece.side?.toList (pieceExpressions piece))
    (later : Writes (" ".intercalate texts) ((piece.onward rest).filterMap Piece.side?)
      (piece.onward rest :: nestedExpressions (piece.onward rest))) :
    Writes (" ".intercalate (text :: texts)) ((piece :: rest).filterMap Piece.side?)
      ((piece :: rest) :: nestedExpressions (piece :: rest)) := by
  obtain ⟨own, marks, follows⟩ := first
  obtain ⟨sides, marks', follows'⟩ := later
  have parts : (piece :: rest).filterMap Piece.side? =
      piece.side?.toList ++ rest.filterMap Piece.side? := by
    rw [← List.singleton_append, List.filterMap_append, filterMap_singleton]
  rw [parts]
  exact ⟨_, marks.intercalate_cons (by decide) marks',
    (follows.append (follows_onward follows')).congr areTidy_onward.symm⟩

/-- The table aliases and labels that were given out have neither quotes nor parentheses in them. -/
structure Issued.IsInert (s : Issued) : Prop where
  tables : ∀ {name table}, s.tables.get? name = some table → IsInertText table
  labels : ∀ {name label}, s.labels.get? name = some label → IsInertText label

theorem Issued.IsInert.empty : ({} : Issued).IsInert where
  tables found := by cases found
  labels found := by cases found

/-- Whether the aliases stand for classes that are mapped with plain names only. -/
def Aliases.HavePlainNames (aliases : Aliases) : Prop :=
  ∀ name record, aliases.record? name = some record → record.HasPlainNames

namespace Lower

/-- If nothing but such names was given out before, this is still so, and `P` holds. -/
def Ensures (s s' : Issued) (P : Prop) : Prop :=
  s.IsInert → s'.IsInert ∧ P

variable {s t s' : Issued} {P Q : Prop}

theorem Ensures.pure (known : P) : Ensures s s P :=
  fun inert => ⟨inert, known⟩

theorem Ensures.bind (first : Ensures s t P) (second : P → Ensures t s' Q) : Ensures s s' Q := by
  intro inert
  obtain ⟨still, known⟩ := first inert
  exact second known still

theorem ensures_table {table} (found : s.tables.get? name = some table) :
    Ensures s s (IsInertText table) :=
  fun inert => ⟨inert, inert.tables found⟩

theorem isInert_toLower {c} (word : (c.isAlphanum || c == '_') = true) : IsInert c.toLower := by
  simp only [Bool.or_eq_true, beq_iff_eq] at word
  rcases word with letter | rfl
  · refine (isLexical_of_isAlphanum ?_).1
    rwa [Text.toLower_cases (motive := fun c small => small.isAlphanum = c.isAlphanum)
      (by decide) (fun _ _ => rfl) c]
  · decide

theorem ensures_freshAlias {table fresh} (plain : isPlainName table = true)
    (given : freshAlias table s = some (fresh, s')) : Ensures s s' (IsInertText fresh) := by
  intro inert
  simp only [freshAlias, bind_some, get_some, set_some, pure_some] at given
  obtain ⟨_, _, ⟨rfl, rfl⟩, _, _, rfl, rfl, rfl⟩ := given
  refine ⟨⟨inert.tables, inert.labels⟩, ?_⟩
  simp only [isInertText_append]
  refine ⟨⟨?_, isInertText_toString _⟩, by decide⟩
  intro c inside
  rw [String.toList_ofList, List.mem_singleton] at inside
  subst inside
  cases letters : table.toList with
  | nil => decide
  | cons first rest =>
    apply isInert_toLower
    exact List.all_eq_true.mp plain first (by simp [letters])

theorem ensures_linkAlias {route link} (plain : ∀ name ∈ route.names, isPlainName name = true)
    (given : linkAlias route s = some (link, s')) : Ensures s s' (IsInertText link) := by
  cases route with
  | link linkTable toOwner toTarget =>
    exact ensures_freshAlias (plain linkTable List.mem_cons_self) given
  | forward columns | backward columns =>
    obtain ⟨rfl, rfl⟩ := pure_some.mp given
    exact .pure isInertText_empty

theorem ensures_issueAlias {aliases} (plain : aliases.HavePlainNames) {u}
    (given : issueAlias aliases name s = some (u, s')) : Ensures s s' True := by
  simp only [issueAlias, bind_some, lift_some, modify_some] at given
  obtain ⟨record, _, ⟨known, rfl⟩, fresh, middle, given, rfl⟩ := given
  refine (ensures_freshAlias (plain _ _ known).table given).bind fun inert issued => ?_
  refine ⟨⟨fun {other table} found => ?_, issued.labels⟩, trivial⟩
  rw [Dict.get?_put] at found
  split at found
  · cases found
    exact inert
  · exact issued.tables found

theorem ensures_issueAliases {ε : Type} {aliases : Aliases} (plain : aliases.HavePlainNames)
    {ranges : List (Range ε)} {u : Unit} (given : issueAliases aliases ranges s = some (u, s')) :
    Ensures s s' True :=
  issueAliases_related (fun _ => .pure trivial) (fun first second => first.bind fun _ => second)
    (ensures_issueAlias plain) given

theorem ensures_parameter {index} (given : parameter name s = some (index, s')) :
    Ensures s s' True := by
  obtain ⟨tables, labels⟩ := parameter_some given
  intro inert
  refine ⟨⟨?_, ?_⟩, trivial⟩
  · rw [tables.tables]
    exact inert.tables
  · rw [labels.labels]
    exact inert.labels

theorem ensures_label {name fresh} (given : label name s = some (fresh, s')) :
    Ensures s s' (IsInertText fresh) := by
  intro inert
  simp only [label, bind_some, get_some, set_some, pure_some] at given
  obtain ⟨_, _, ⟨rfl, rfl⟩, _, _, rfl, rfl, rfl⟩ := given
  have counted : IsInertText ("sclr_" ++ toString s.valueCount) :=
    isInertText_append.mpr ⟨by decide, isInertText_toString _⟩
  refine ⟨⟨inert.tables, fun {other label} found => ?_⟩, counted⟩
  cases name with
  | none => exact inert.labels found
  | some name =>
    dsimp only at found
    rw [Dict.get?_put] at found
    split at found
    · cases found
      exact counted
    · exact inert.labels found

/-- An entry of a select list that is a column, written without quotes and parentheses. -/
def IsInertColumn (entry : Sql.Item Sql.Expression) : Prop :=
  ∃ column label, entry = .column column label ∧ IsInertText (column.render ++ " AS " ++ label)

theorem ensures_columns {table : String} (inert : IsInertText table) {fields : List Field}
    (plain : ∀ field ∈ fields, isPlainName field.column = true)
    {entries : List (Sql.Item Sql.Expression)}
    (given : fields.mapM (column table) s = some (entries, s')) :
    Ensures s s' (∀ entry ∈ entries, IsInertColumn entry) := by
  induction fields generalizing s entries with
  | nil =>
    obtain ⟨rfl, rfl⟩ := pure_some.mp given
    exact .pure (by simp)
  | cons field rest ih =>
    obtain ⟨named, others⟩ := List.forall_mem_cons.mp plain
    simp only [List.mapM_cons, bind_some, pure_some] at given
    obtain ⟨entry, middle, first, entries, _, later, rfl, rfl⟩ := given
    simp only [column, bind_some, get_some, set_some, pure_some] at first
    obtain ⟨_, _, ⟨rfl, rfl⟩, _, _, rfl, rfl, rfl⟩ := first
    intro issued
    obtain ⟨still, all⟩ := ih others later ⟨issued.tables, issued.labels⟩
    refine ⟨still, List.forall_mem_cons.mpr ⟨⟨_, _, rfl, ?_⟩, all⟩⟩
    simp only [isInertText_append]
    exact ⟨⟨isInertText_column inert named, by decide⟩,
      ⟨isInertText_of_isPlainName named, by decide⟩, isInertText_toString _⟩

end Lower

/-- The expressions have parentheses that match and words without any. -/
def AreSound (expressions : List Expression) : Prop :=
  ∀ e ∈ expressions, IsBalanced Piece.side? e ∧ ∀ piece ∈ e, piece.IsLexical

theorem areSound_append {first second} :
    AreSound (first ++ second) ↔ AreSound first ∧ AreSound second :=
  List.forall_mem_append

theorem AreSound.suffix {part pieces} (sound : AreSound (nestedExpressions pieces))
    (suffix : part <:+ pieces) : AreSound (nestedExpressions part) := by
  obtain ⟨before, rfl⟩ := suffix
  rw [nestedExpressions_append, areSound_append] at sound
  exact sound.2

/-- What a clause that may be missing is lowered to: nothing, or an expression that writes it. -/
def WritesClause (clause : Option Expression) : Option Sql.Expression → Prop
  | none => optionalExpression clause = []
  | some terms => Writes (" ".intercalate (Sql.renderTerms terms)) [] (optionalExpression clause)

theorem WritesClause.render {clause words} (written : WritesClause clause found)
    (inert : IsInertText words) :
    Writes (Sql.renderClause words found) [] (optionalExpression clause) := by
  cases found with
  | none =>
    rw [show optionalExpression clause = [] from written]
    exact .inert isInertText_empty
  | some terms => exact Writes.after written inert

theorem writes_columns {own others} (columns : ∀ entry ∈ own, Lower.IsInertColumn entry)
    (written : Writes (", ".intercalate (Sql.renderItems others)) [] expressions) :
    Writes (", ".intercalate (Sql.renderItems (own ++ others))) [] expressions := by
  induction own with
  | nil => exact written
  | cons entry own ih =>
    obtain ⟨⟨column, label, rfl, inert⟩, later⟩ := List.forall_mem_cons.mp columns
    exact Writes.intercalate_cons (by decide) (.inert inert) (ih later)

theorem joinWords_inert (isLeft : Bool) : IsInertText (Sql.joinWords isLeft) := by
  cases isLeft <;> decide

theorem Writes.conjoined {text text'} (start : IsInertText text')
    (written : Writes text [] expressions) :
    Writes (text' ++ " AND (" ++ text ++ ")") [] expressions := by
  have whole := written.enclosed.after
    (isInertText_append.mpr ⟨start, (by decide : IsInertText " AND ")⟩)
  have spaced : " AND (" = " AND " ++ "(" := by decide
  simpa only [spaced, String.append_assoc] using whole

theorem writes_table {aliasName condition rest} (isLeft : Bool) (named : isPlainName name = true)
    (known : IsInertText aliasName) (written : WritesClause condition found)
    (others : Writes (Sql.renderJoins rest) [] expressions) :
    Writes (Sql.renderJoins (⟨isLeft, .table name aliasName found⟩ :: rest)) []
      (optionalExpression condition ++ expressions) := by
  have start : IsInertText (" " ++ Sql.joinWords isLeft ++ " " ++ Sql.quoteName name ++ " " ++
      aliasName) := by
    simp only [isInertText_append]
    exact ⟨⟨⟨⟨⟨by decide, joinWords_inert isLeft⟩, by decide⟩,
      (isInertText_of_isPlainName named).quoteName⟩, by decide⟩, known⟩
  cases found with
  | none =>
    rw [show optionalExpression condition = [] from written]
    exact others.after (isInertText_append.mpr ⟨start, by decide⟩)
  | some terms =>
    exact (Writes.after written (isInertText_append.mpr ⟨start, by decide⟩)).seq others

theorem writes_hops {hops condition rest} (isLeft : Bool)
    (inert : ∀ hop ∈ hops, IsInertText hop.render) (written : WritesClause condition found)
    (others : Writes (Sql.renderJoins rest) [] expressions) :
    Writes (Sql.renderJoins (⟨isLeft, .hops hops found⟩ :: rest)) []
      (optionalExpression condition ++ expressions) := by
  have start : IsInertText (String.join (hops.map fun hop =>
      " " ++ Sql.joinWords isLeft ++ " " ++ hop.render)) := by
    clear written
    induction hops with
    | nil => exact isInertText_empty
    | cons hop hops ih =>
      obtain ⟨first, later⟩ := List.forall_mem_cons.mp inert
      rw [List.map_cons, String.join_cons]
      simp only [isInertText_append]
      exact ⟨⟨⟨⟨by decide, joinWords_inert isLeft⟩, by decide⟩, first⟩, ih later⟩
  cases found with
  | none =>
    rw [show optionalExpression condition = [] from written]
    exact others.after start
  | some terms =>
    exact (Writes.conjoined start written).seq others

section Lowering

variable {aliases : Aliases} {s s' : Issued}

open Lower (Ensures)

theorem ensures_expression {e terms} (sound : AreSound (e :: nestedExpressions e))
    (pieces : (∀ piece ∈ e, piece.IsLexical) → AreSound (nestedExpressions e) →
      Ensures s s' (Writes (" ".intercalate (Sql.renderTerms terms)) (e.filterMap Piece.side?)
        (e :: nestedExpressions e))) :
    Ensures s s'
      (Writes (" ".intercalate (Sql.renderTerms terms)) [] (e :: nestedExpressions e)) := by
  obtain ⟨⟨balanced, inert⟩, nested⟩ := List.forall_mem_cons.mp sound
  exact (pieces inert nested).bind fun written => .pure (written.settled balanced)

/-- Each part of a statement is written with the parentheses of its expressions. -/
def writing (plain : aliases.HavePlainNames) : Judgement aliases where
  piece s p term s' := p.IsLexical → AreSound (pieceExpressions p) →
    Ensures s s' (Writes (Sql.renderTerm term) p.side?.toList (pieceExpressions p))
  pieces s part terms s' := (∀ p ∈ part, p.IsLexical) → AreSound (nestedExpressions part) →
    Ensures s s' (Writes (" ".intercalate (Sql.renderTerms terms)) (part.filterMap Piece.side?)
      (part :: nestedExpressions part))
  select _ s query sql s' := AreSound (selectExpressions query) →
    Ensures s s' (Writes (Sql.renderSelect sql) [] (selectExpressions query))
  items _ s items entries s' := AreSound (itemExpressions items) →
    Ensures s s' (Writes (", ".intercalate (Sql.renderItems entries)) [] (itemExpressions items))
  ranges s ranges tables s' := AreSound (rangeExpressions ranges) →
    Ensures s s' (Writes (", ".intercalate (Sql.renderRanges tables)) [] (rangeExpressions ranges))
  joins s joins tables s' := AreSound (joinExpressions joins) →
    Ensures s s' (Writes (Sql.renderJoins tables) [] (joinExpressions joins))
  clause s clause found s' := AreSound (optionalExpression clause) →
    Ensures s s' (WritesClause clause found)
  list s exprs entries s' := AreSound (listedExpressions exprs) →
    Ensures s s' (Writes (", ".intercalate (Sql.renderList entries)) [] (listedExpressions exprs))
  orders s orders entries s' := AreSound (orderExpressions orders) →
    Ensures s s' (Writes (", ".intercalate (Sql.renderOrders entries)) [] (orderExpressions orders))
  assignments record s assignments assigned s' := record.HasPlainNames →
    AreSound (listedExpressions (assignments.map Assignment.value)) →
    Ensures s s' (Writes (", ".intercalate (assigned.map fun a : Sql.Assignment =>
      Sql.quoteName a.column ++ " = " ++ Sql.renderExpression a.value)) []
      (listedExpressions (assignments.map Assignment.value)))
  statement s statement sql s' := statement.IsBare → AreSound statement.expressions →
    Ensures s s' (Writes sql.render [] statement.expressions)
  word spelled lexical _ := by
    cases spelled with
    | keyword | number | operator => exact .pure (.inert lexical.isInertText)
    | function known =>
      refine .pure (.inert ?_)
      have bare : ∀ word ∈ bareFunctions, IsInertText word := by decide
      rcases functionWord?_some known with listed | rfl
      · exact bare _ listed
      · exact lexical.isInertText
    | comma => exact .pure (.inert (by decide))
    | opening | closing => exact .pure (.mark ⟨by decide, by decide⟩)
  text value _ _ := .pure (.mark (.quoteText value))
  parameter numbered _ _ := (Lower.ensures_parameter numbered).bind fun _ => .pure <| .inert <|
    isInertText_append.mpr ⟨by decide, isInertText_toString _⟩
  path known mapped found _ _ := (Lower.ensures_table found).bind fun text =>
    .pure (.inert (isInertText_column text ((plain _ _ known).columnOf? mapped)))
  entity known mapped found _ _ := (Lower.ensures_table found).bind fun text =>
    .pure (.inert (isInertText_column text ((plain _ _ known).idColumn? mapped)))
  result found _ _ := fun inert => ⟨inert, .inert (inert.labels found)⟩
  subselect inner _ sound := (inner sound).bind fun written => .pure written.enclosed
  pieces_nil _ _ := .pure ((Writes.inert isInertText_empty).congr
    (by simp [AreTidy, nestedExpressions, hasEmptyBareCalls]))
  pieces_cons p rest first later inert sound := by
    obtain ⟨own, others⟩ := List.forall_mem_cons.mp inert
    rw [nestedExpressions, areSound_append] at sound
    have onward := p.onward_suffix rest
    refine (first own sound.1).bind fun written => ?_
    refine (later (fun p inside => others p (onward.subset inside))
      (sound.2.suffix onward)).bind fun following => ?_
    exact .pure (writes_pieces written following)
  select_mk {_ isDistinct _ _ _ _ _ _ _ _ _ _ _ _ _ _ _ _ _ _ _ _} issued listed ranged filtered
      grouped limited ordered sound := by
    simp only [selectExpressions, areSound_append] at sound
    obtain ⟨⟨⟨⟨⟨inItems, inRanges⟩, inFilter⟩, inGroups⟩, inGroupFilter⟩, inOrders⟩ := sound
    refine (Lower.ensures_issueAliases plain issued).bind fun _ => ?_
    refine (listed inItems).bind fun listed => (ranged inRanges).bind fun ranged => ?_
    refine (filtered inFilter).bind fun filtered => (grouped inGroups).bind fun grouped => ?_
    refine (limited inGroupFilter).bind fun limited => (ordered inOrders).bind fun ordered => ?_
    have start : IsInertText ("SELECT " ++ if isDistinct then "DISTINCT " else "") := by
      cases isDistinct <;> decide
    have list := (listed.after start).before (by decide : IsInertText " FROM ")
    exact .pure (((((list.seq ranged).seq (filtered.render (by decide))).seq
      (grouped.listClause (by decide))).seq (limited.render (by decide))).seq
      (ordered.listClause (by decide)))
  items_nil _ := .pure (.inert isInertText_empty)
  items_entity known found spread later sound := by
    rw [itemExpressions, areSound_append] at sound
    refine (Lower.ensures_table found).bind fun text => ?_
    refine (Lower.ensures_columns text (fun _ => (plain _ _ known).field) spread).bind
      fun columns => (later sound.2).bind fun listed => ?_
    refine .pure ((writes_columns columns listed).congr ?_)
    simp [AreTidy, itemExpressions, nestedExpressions, pieceExpressions, hasEmptyBareCalls,
      Piece.isBareFunction]
  items_value valued labelled later sound := by
    rw [itemExpressions, areSound_append] at sound
    refine (ensures_expression sound.1 valued).bind fun written => ?_
    rcases Lower.entryLabel_some labelled with ⟨fresh, rfl, given, rfl⟩ | ⟨rfl, rfl, rfl⟩
    · refine (Lower.ensures_label given).bind fun text => (later sound.2).bind fun listed => ?_
      exact .pure (Writes.intercalate_cons (by decide)
        ((written.before (by decide)).before text) listed)
    · exact (later sound.2).bind fun listed =>
        .pure (Writes.intercalate_cons (by decide) written listed)
  ranges_nil _ := .pure (.inert isInertText_empty)
  ranges_cons known found joined later sound := by
    rw [rangeExpressions, areSound_append] at sound
    refine (Lower.ensures_table found).bind fun text => (joined sound.1).bind fun joined => ?_
    refine (later sound.2).bind fun ranged => ?_
    refine .pure (Writes.intercalate_cons (by decide) (joined.after ?_) ranged)
    simp only [isInertText_append]
    exact ⟨⟨(isInertText_of_isPlainName (plain _ _ known).table).quoteName, by decide⟩, text⟩
  joins_nil _ := .pure (.inert isInertText_empty)
  joins_entity known found limited later sound := by
    rw [joinExpressions, areSound_append] at sound
    refine (Lower.ensures_table found).bind fun text => (limited sound.1).bind fun written => ?_
    exact (later sound.2).bind fun joined =>
      .pure (writes_table _ (plain _ _ known).table text written joined)
  joins_association known found owned started named leads linked limited later sound := by
    rw [joinExpressions, areSound_append] at sound
    have plainRoute := Route.of?_plain ((plain _ _ owned).association named) (plain _ _ known) leads
    refine (Lower.ensures_table found).bind fun text => ?_
    refine (Lower.ensures_table started).bind fun ownerText => ?_
    refine (Lower.ensures_linkAlias plainRoute linked).bind fun linkText => ?_
    refine (limited sound.1).bind fun written => (later sound.2).bind fun joined => .pure ?_
    exact writes_hops _ (hops_inert plainRoute ownerText text linkText (plain _ _ known).table)
      written joined
  clause_none _ := .pure rfl
  clause_some given sound := (ensures_expression sound given).bind fun written => .pure written
  list_nil _ := .pure (.inert isInertText_empty)
  list_cons first later sound := by
    rw [listedExpressions, areSound_append] at sound
    exact (ensures_expression sound.1 first).bind fun written => (later sound.2).bind fun listed =>
      .pure (Writes.intercalate_cons (by decide) written listed)
  orders_nil _ := .pure (.inert isInertText_empty)
  orders_cons {_ _ _ _ direction _ _ _} first later sound := by
    rw [orderExpressions, areSound_append] at sound
    refine (ensures_expression sound.1 first).bind fun written => ?_
    refine (later sound.2).bind fun ordered => .pure ?_
    cases direction with
    | none => exact Writes.intercalate_cons (by decide) written ordered
    | some direction =>
      refine Writes.intercalate_cons (by decide) ((written.before (by decide)).before ?_) ordered
      cases direction <;> decide
  assignments_nil _ _ := .pure (.inert isInertText_empty)
  assignments_cons mapped valued later named sound := by
    rw [List.map_cons, listedExpressions, areSound_append] at sound
    refine (ensures_expression sound.1 valued).bind fun written => ?_
    refine (later named sound.2).bind fun listed => .pure ?_
    refine Writes.intercalate_cons (by decide) (written.after ?_) listed
    exact isInertText_append.mpr
      ⟨(isInertText_of_isPlainName (named.columnOf? mapped)).quoteName, by decide⟩
  selected inner _ sound := inner sound
  updated issued found known assigns filtered bare sound := by
    rw [Statement.expressions, rangeExpressions_bare bare, List.nil_append] at sound ⊢
    rw [areSound_append] at sound
    have named := plain _ _ known
    refine (Lower.ensures_issueAliases plain issued).bind fun _ => ?_
    refine (Lower.ensures_table found).bind fun text => ?_
    refine (assigns named sound.1).bind fun listed => (filtered sound.2).bind fun filtered => ?_
    refine .pure ((listed.after ?_).seq (filtered.render (by decide)))
    simp only [isInertText_append]
    exact ⟨⟨⟨⟨by decide, (isInertText_of_isPlainName named.table).quoteName⟩, by decide⟩, text⟩,
      by decide⟩
  deleted issued found known filtered bare sound := by
    rw [Statement.expressions, rangeExpressions_bare bare, List.nil_append] at sound ⊢
    refine (Lower.ensures_issueAliases plain issued).bind fun _ => ?_
    refine (Lower.ensures_table found).bind fun text => (filtered sound).bind fun filtered => ?_
    refine .pure ((filtered.render (by decide)).after ?_)
    simp only [isInertText_append]
    exact ⟨⟨⟨by decide, (isInertText_of_isPlainName (plain _ _ known).table).quoteName⟩,
      by decide⟩, text⟩

end Lowering

/-- The parentheses of the SQL of an accepted text, those in literals aside, match exactly if the
    functions that SQL writes without parentheses have nothing between theirs, in all expressions of
    the statement and at every depth; otherwise more are closed than opened. -/
theorem compile_sql_balanced_iff {text : String} {g g' : Gateway} {compiled : Compiled}
    {sql : Sql.Statement} (plain : g.HasPlainNames) (accepted : compile text g = .ok compiled g')
    (formed : compiled.sql = some sql) :
    ∃ parsed, parse text g = .ok parsed g' ∧
      compiled = .ofStatement parsed.aliases parsed.statement ∧
      (IsBalanced charSide? (unquoted sql.render.toList) ↔ AreTidy parsed.statement.expressions) ∧
      (¬ AreTidy parsed.statement.expressions →
        countSide charSide? .opening (unquoted sql.render.toList) <
          countSide charSide? .closing (unquoted sql.render.toList)) := by
  obtain ⟨parsed, found, rfl⟩ := compile_ok.mp accepted
  obtain ⟨issued, lowered⟩ := Compiled.ofStatement_some formed
  have known : parsed.aliases.HavePlainNames := by
    intro name record held
    obtain ⟨className, maps⟩ := parse_maps found held
    exact plain className record maps
  have sound : AreSound parsed.statement.expressions := fun e inside =>
    ⟨(parse_balanced found).2.2 e inside, parse_lexical found e inside⟩
  obtain ⟨-, sides, marks, follows⟩ :=
    lowerStatement_judged (writing known) lowered (parse_isBare found) sound .empty
  refine ⟨parsed, found, rfl, marks.isBalanced_iff.trans follows.matches_iff, fun untidy => ?_⟩
  have more := follows.exceeds untidy
  simp only [List.count_nil, Nat.zero_add, Nat.add_zero] at more
  rwa [marks.countSide, marks.countSide]

/-- A literal with a parenthesis and a quote, a subselect, and functions of both kinds. -/
theorem compile_sql_balanced_iff_subselect :
    let text := "SELECT u.id FROM User u JOIN User v WITH (v.id = 1) WHERE u.name = 'a)'')' AND " ++
      "u.id IN (SELECT MAX(w.id) FROM User w WHERE (w.name = CURRENT_DATE()))"
    let user : EntityRecord :=
      { className := "User", table := "users",
        fields := [{ name := "id", column := "id", columnType := "integer", isId := true },
          { name := "name", column := "user_name", columnType := "string" }] }
    let g : Gateway := .ofSource (Catalog.toSource { records := [("user", user)] })
    ∃ compiled sql g', g.HasPlainNames ∧ compile text g = .ok compiled g' ∧
      compiled.sql = some sql ∧ IsBalanced charSide? (unquoted sql.render.toList) := by
  intro text user g
  have plain : g.HasPlainNames :=
    Gateway.hasPlainNames_ofCatalog (List.forall_mem_singleton.mpr (by decide +kernel))
  have readable : succeeds (parse text) g (fun parsed =>
      parsed.statement.expressions.all hasEmptyBareCalls &&
        (Compiled.ofStatement parsed.aliases parsed.statement).sql.isSome) = true := by
    decide +kernel
  obtain ⟨parsed, g', found, passed⟩ := exists_of_succeeds readable
  obtain ⟨tidy, formed⟩ := Bool.and_eq_true_iff.mp passed
  obtain ⟨sql, formed⟩ := Option.isSome_iff_exists.mp formed
  have accepted := compile_ok.mpr ⟨parsed, found, rfl⟩
  obtain ⟨_, same, -, balanced, -⟩ := compile_sql_balanced_iff plain accepted formed
  rw [found] at same
  cases same
  exact ⟨_, sql, g', plain, accepted, formed, balanced.mpr (List.all_eq_true.mp tidy)⟩

/-- With an argument, a function without parentheses leaves the closing one behind. -/
theorem compile_unbalanced_call :
    let text := "SELECT u.id FROM User u WHERE u.id = CURRENT_DATE(1)"
    let user : EntityRecord :=
      { className := "User", table := "users",
        fields := [{ name := "id", column := "id", columnType := "integer", isId := true }] }
    let g : Gateway := .ofSource (Catalog.toSource { records := [("user", user)] })
    let written :=
      "SELECT u0_.\"id\" AS sclr_0 FROM \"users\" u0_ WHERE u0_.\"id\" = CURRENT_DATE )"
    ∃ compiled sql g', g.HasPlainNames ∧ compile text g = .ok compiled g' ∧
      compiled.sql = some sql ∧ sql.render = written ∧
      ¬ IsBalanced charSide? (unquoted sql.render.toList) := by
  intro text user g written
  have plain : g.HasPlainNames :=
    Gateway.hasPlainNames_ofCatalog (List.forall_mem_singleton.mpr (by decide +kernel))
  have readable : succeeds (compile text) g (fun compiled =>
      compiled.sql.map (·.render) == some written) = true := by
    decide +kernel
  obtain ⟨compiled, g', accepted, passed⟩ := exists_of_succeeds readable
  obtain ⟨sql, formed, same⟩ := Option.map_eq_some_iff.mp (eq_of_beq passed)
  refine ⟨compiled, sql, g', plain, accepted, formed, same, ?_⟩
  rw [same, isBalanced_iff]
  decide +kernel

end Query

end EntityAudit
