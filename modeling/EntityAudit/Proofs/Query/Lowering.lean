import EntityAudit.Query.Relational

/-! # Steps of lowering

What it takes for a part of a statement to have a relational form, and what the form is then made
of. Only the issue of aliases changes which table an alias has.
-/

namespace EntityAudit.Query

variable {aliases : Aliases} {record : EntityRecord}

/-- The form of the table alias that is given out as number `n`. -/
def Numbered (n : Nat) (table : String) : Prop :=
  ∃ initial : Char, table = String.ofList [initial] ++ toString n ++ "_"

theorem Numbered.unique {n m table} (first : Numbered n table) (second : Numbered m table) :
    n = m := by
  obtain ⟨initial, rfl⟩ := first
  obtain ⟨other, same⟩ := second
  have letters := congrArg String.toList same
  simp only [String.toList_append, String.toList_ofList] at letters
  have digits := (List.cons.inj (List.append_cancel_right letters)).2
  simpa [Nat.toString_eq_ofList_toDigits] using congrArg (Nat.ofDigitChars 10 · 0) digits

/-- No table alias is given out between two states. -/
structure Issued.SameTables (s s' : Issued) : Prop where
  tables : s'.tables = s.tables
  tableCount : s'.tableCount = s.tableCount

/-- Nothing but labels is given out between two states. -/
structure Issued.OnlyLabels (s s' : Issued) : Prop extends s.SameTables s' where
  parameters : s'.parameters = s.parameters

/-- No label is given out between two states. -/
structure Issued.SameLabels (s s' : Issued) : Prop where
  labels : s'.labels = s.labels
  valueCount : s'.valueCount = s.valueCount
  columnCount : s'.columnCount = s.columnCount

theorem Issued.SameLabels.refl (s : Issued) : s.SameLabels s :=
  ⟨rfl, rfl, rfl⟩

theorem Issued.SameLabels.trans {s t u : Issued} (first : s.SameLabels t)
    (second : t.SameLabels u) : s.SameLabels u :=
  ⟨second.labels.trans first.labels, second.valueCount.trans first.valueCount,
    second.columnCount.trans first.columnCount⟩

/-- Nothing but table aliases is given out between two states. -/
structure Issued.OnlyTables (s s' : Issued) : Prop extends s.SameLabels s' where
  parameters : s'.parameters = s.parameters

theorem Issued.OnlyTables.refl (s : Issued) : s.OnlyTables s :=
  ⟨.refl s, rfl⟩

theorem Issued.OnlyTables.trans {s t u : Issued} (first : s.OnlyTables t)
    (second : t.OnlyTables u) : s.OnlyTables u :=
  ⟨first.toSameLabels.trans second.toSameLabels, second.parameters.trans first.parameters⟩

namespace Lower

variable {α β : Type} {s s' : Issued}

theorem bind_some {x : Lower α} {f : α → Lower β} {b : β} :
    (x >>= f) s = some (b, s') ↔ ∃ a t, x s = some (a, t) ∧ f a t = some (b, s') := by
  change (x s >>= fun (a, t) => f a t) = _ ↔ _
  simp [Option.bind_eq_some_iff]

theorem pure_some {a b} : (pure a : Lower α) s = some (b, s') ↔ a = b ∧ s = s' := by
  change some (a, s) = some (b, s') ↔ _
  simp

theorem lift_some {o a} : (liftM o : Lower α) s = some (a, s') ↔ o = some a ∧ s = s' := by
  change (o >>= fun b => pure (b, s)) = some (a, s') ↔ _
  cases o <;> simp

theorem get_some {t} : (get : Lower Issued) s = some (t, s') ↔ s = t ∧ s = s' :=
  pure_some

theorem set_some {t u} : (set t : Lower PUnit) s = some (u, s') ↔ t = s' := by
  change some (PUnit.unit, t) = some (u, s') ↔ _
  simp

theorem modify_some {f u} : (modify f : Lower PUnit) s = some (u, s') ↔ f s = s' := by
  change some (PUnit.unit, f s) = some (u, s') ↔ _
  simp

theorem failure_some {a} : (failure : Lower α) s = some (a, s') ↔ False := by
  change (none : Option (α × Issued)) = _ ↔ _
  simp

theorem tableAlias_some {aliasName table : String} :
    tableAlias aliasName s = some (table, s') ↔ s.tables.get? aliasName = some table ∧ s = s' := by
  simp only [tableAlias, bind_some, get_some, lift_some]
  grind

theorem freshAlias_some {table fresh} (given : freshAlias table s = some (fresh, s')) :
    Numbered s.tableCount fresh ∧ s' = { s with tableCount := s.tableCount + 1 } := by
  simp only [freshAlias, bind_some, get_some, set_some, pure_some] at given
  obtain ⟨_, _, ⟨rfl, rfl⟩, _, _, rfl, rfl, rfl⟩ := given
  exact ⟨⟨_, rfl⟩, rfl⟩

/-- The alias of the link table of a route; none is given out where the route has no link table. -/
def linkAlias (route : Route) : Lower String :=
  match route.linkTable? with
  | some linkTable => freshAlias linkTable
  | none => pure ""

theorem linkAlias_some {route link} (given : linkAlias route s = some (link, s')) :
    s'.tables = s.tables ∧ s.OnlyTables s' := by
  cases linked : route.linkTable? with
  | some linkTable =>
    simp only [linkAlias, linked] at given
    rw [(freshAlias_some given).2]
    exact ⟨rfl, ⟨rfl, rfl, rfl⟩, rfl⟩
  | none =>
    simp only [linkAlias, linked, pure_some] at given
    rw [given.2]
    exact ⟨rfl, .refl s'⟩

theorem issueAlias_onlyTables {name u} (given : issueAlias aliases name s = some (u, s')) :
    s.OnlyTables s' := by
  simp only [issueAlias, bind_some, lift_some, modify_some] at given
  obtain ⟨record, _, ⟨-, rfl⟩, table, _, fresh, rfl⟩ := given
  rw [(freshAlias_some fresh).2]
  exact ⟨⟨rfl, rfl, rfl⟩, rfl⟩

section

variable {R : Issued → Issued → Prop} (refl : ∀ s, R s s) (trans : ∀ {s t u}, R s t → R t u → R s u)

include refl trans

theorem forM_related {give : α → Lower Unit} (each : ∀ {a s u s'}, give a s = some (u, s') → R s s')
    {items : List α} {u : Unit} (given : items.forM give s = some (u, s')) : R s s' := by
  induction items generalizing s with
  | nil =>
    obtain ⟨-, rfl⟩ := pure_some.mp given
    exact refl s
  | cons item rest ih =>
    obtain ⟨_, middle, first, later⟩ := bind_some.mp given
    exact trans (each first) (ih later)

theorem issueAliases_related {ε : Type} {ranges : List (Range ε)} {u : Unit}
    (each : ∀ {name s u s'}, issueAlias aliases name s = some (u, s') → R s s')
    (given : issueAliases aliases ranges s = some (u, s')) : R s s' := by
  refine forM_related refl trans (fun given => ?_) given
  obtain ⟨_, middle, first, joined⟩ := bind_some.mp given
  exact trans (each first) (forM_related refl trans each joined)

end

theorem issueAliases_onlyTables {ε : Type} {ranges : List (Range ε)} {u}
    (given : issueAliases aliases ranges s = some (u, s')) : s.OnlyTables s' :=
  issueAliases_related .refl .trans issueAlias_onlyTables given

theorem parameter_some {name index} (given : parameter name s = some (index, s')) :
    s.SameTables s' ∧ s.SameLabels s' := by
  simp only [parameter, bind_some, get_some] at given
  obtain ⟨_, _, ⟨rfl, rfl⟩, given⟩ := given
  cases known : s.parameters.idxOf? name with
  | some position =>
    simp only [known, pure_some] at given
    obtain ⟨-, rfl⟩ := given
    exact ⟨⟨rfl, rfl⟩, ⟨rfl, rfl, rfl⟩⟩
  | none =>
    simp only [known, bind_some, set_some, pure_some] at given
    obtain ⟨_, _, rfl, -, rfl⟩ := given
    exact ⟨⟨rfl, rfl⟩, ⟨rfl, rfl, rfl⟩⟩

theorem label_some {name fresh} (given : label name s = some (fresh, s')) : s.OnlyLabels s' := by
  simp only [label, bind_some, get_some, set_some, pure_some] at given
  obtain ⟨_, _, ⟨rfl, rfl⟩, _, _, rfl, -, rfl⟩ := given
  exact ⟨⟨rfl, rfl⟩, rfl⟩

def entryLabel (isTop : Bool) (name : Option String) : Lower (Option String) :=
  if isTop then do return some (← label name) else return none

theorem entryLabel_some {isTop name found} (given : entryLabel isTop name s = some (found, s')) :
    (∃ fresh, isTop = true ∧ label name s = some (fresh, s') ∧ found = some fresh) ∨
      isTop = false ∧ found = none ∧ s = s' := by
  cases isTop with
  | true =>
    obtain ⟨fresh, middle, labelled, same⟩ := bind_some.mp given
    obtain ⟨rfl, rfl⟩ := pure_some.mp same
    exact .inl ⟨fresh, rfl, labelled, rfl⟩
  | false =>
    obtain ⟨rfl, rfl⟩ := pure_some.mp given
    exact .inr ⟨rfl, rfl, rfl⟩

theorem entryLabel_onlyLabels {isTop name found}
    (given : entryLabel isTop name s = some (found, s')) : s.OnlyLabels s' := by
  rcases entryLabel_some given with ⟨_, -, labelled, -⟩ | ⟨-, -, rfl⟩
  · exact label_some labelled
  · exact ⟨⟨rfl, rfl⟩, rfl⟩

theorem columns_some {table : String} {fields : List Field}
    {entries : List (Sql.Item Sql.Expression)}
    (given : fields.mapM (column table) s = some (entries, s')) :
    s.OnlyLabels s' ∧
      ∀ entry ∈ entries, ∃ name label, entry = .column ⟨table, name⟩ label := by
  induction fields generalizing s entries with
  | nil =>
    obtain ⟨rfl, rfl⟩ := pure_some.mp given
    exact ⟨⟨⟨rfl, rfl⟩, rfl⟩, by simp⟩
  | cons field rest ih =>
    simp only [List.mapM_cons, bind_some, pure_some] at given
    obtain ⟨entry, middle, first, others, _, later, rfl, rfl⟩ := given
    simp only [column, bind_some, get_some, set_some, pure_some] at first
    obtain ⟨_, _, ⟨rfl, rfl⟩, _, _, rfl, rfl, rfl⟩ := first
    obtain ⟨same, columns⟩ := ih later
    exact ⟨⟨⟨same.tables, same.tableCount⟩, same.parameters⟩,
      List.forall_mem_cons.mpr ⟨⟨_, _, rfl⟩, columns⟩⟩

end Lower

theorem wholeEntity?_some {expr aliasName name}
    (whole : wholeEntity? aliases expr aliasName = some (name, record)) :
    expr = [.variable name] ∧ aliasName = none ∧ aliases.record? name = some record := by
  unfold wholeEntity? at whole
  split at whole
  · obtain ⟨found, known, same⟩ := Option.map_eq_some_iff.mp whole
    obtain ⟨rfl, rfl⟩ := Prod.mk.inj same
    exact ⟨rfl, rfl, known⟩
  · cases whole

section Parts

open Lower

variable {aliases : Aliases} {s s' : Issued}

def Piece.isOpening : Piece → Bool
  | .opening => true
  | _ => false

/-- What is left of an expression after a piece and what it makes lowering drop. -/
def Piece.onward (piece : Piece) (rest : List Piece) : List Piece :=
  if piece.isBareFunction && rest.head?.any (·.isOpening) then rest.drop 2 else rest

theorem Piece.onward_suffix (piece : Piece) (rest : List Piece) : piece.onward rest <:+ rest := by
  rw [onward]
  split
  · exact List.drop_suffix 2 rest
  · exact List.suffix_rfl

theorem lowerPieces_onward (piece : Piece) (rest : List Piece) :
    lowerPieces aliases (piece :: rest) = (do
      let term ← lowerPiece aliases piece
      return term :: (← lowerPieces aliases (piece.onward rest))) := by
  rw [lowerPieces, Piece.onward]
  cases piece.isBareFunction with
  | false => rfl
  | true =>
    simp only [if_true, Bool.true_and]
    congr 1
    funext term
    cases rest with
    | nil => rfl
    | cons first rest =>
      cases first with
      | opening => cases rest <;> rfl
      | _ => rfl

theorem lowerJoins_association (isLeft : Bool) (path : PropertyPath) (name : String)
    (index : Option PropertyPath) (condition : Option (List Piece))
    (rest : List (Join (List Piece))) :
    lowerJoins aliases (⟨isLeft, .association path, name, index, condition⟩ :: rest) = (do
      let table ← Lower.tableAlias name
      let record ← aliases.record? name
      let ownerTable ← Lower.tableAlias path.aliasName
      let owner ← aliases.record? path.aliasName
      let association ← owner.association? path.field
      let route ← Route.of? association record
      let link ← Lower.linkAlias route
      let limit ← lowerOptional aliases condition
      return ⟨isLeft, .hops (route.hops ownerTable table link record.table) limit⟩ ::
        (← lowerJoins aliases rest)) := by
  rw [lowerJoins]
  refine bind_congr fun _ => bind_congr fun _ => bind_congr fun _ => ?_
  refine bind_congr fun _ => bind_congr fun _ => bind_congr fun route => ?_
  cases route <;> rfl

/-- An update gives a table to its class and takes the columns it assigns from the record of the
    class, whatever alias stands before them. -/
theorem lowerStatement_update {range filter}
    (lowered : lowerStatement aliases (.update range assignments filter) s = some (sql, s')) :
    ∃ record table assigned limit s₀ s₁, Lower.issueAliases aliases [range] s = some ((), s₀) ∧
      s₀.tables.get? range.aliasName = some table ∧
      aliases.record? range.aliasName = some record ∧
      lowerAssignments aliases record assignments s₀ = some (assigned, s₁) ∧
      lowerOptional aliases filter s₁ = some (limit, s') ∧
      sql = .update record.table table assigned limit := by
  simp only [lowerStatement, bind_some, lift_some, tableAlias_some,
    pure_some] at lowered
  obtain ⟨_, s₀, issued, table, _, ⟨found, rfl⟩, record, _, ⟨known, rfl⟩, assigned, s₁, first,
    limit, _, second, rfl, rfl⟩ := lowered
  exact ⟨record, table, assigned, limit, _, s₁, issued, found, known, first, second, rfl⟩

theorem lowerStatement_delete {range filter}
    (lowered : lowerStatement aliases (.delete range filter) s = some (sql, s')) :
    ∃ record table limit s₀, Lower.issueAliases aliases [range] s = some ((), s₀) ∧
      s₀.tables.get? range.aliasName = some table ∧
      aliases.record? range.aliasName = some record ∧
      lowerOptional aliases filter s₀ = some (limit, s') ∧
      sql = .delete record.table table limit := by
  simp only [lowerStatement, bind_some, lift_some, tableAlias_some,
    pure_some] at lowered
  obtain ⟨_, s₀, issued, table, _, ⟨found, rfl⟩, record, _, ⟨known, rfl⟩, limit, _, last, rfl,
    rfl⟩ := lowered
  exact ⟨record, table, limit, _, issued, found, known, last, rfl⟩

theorem lowerAssignments_columns {assigned}
    (lowered : lowerAssignments aliases record assignments s = some (assigned, s')) :
    assigned.map (some ·.column) = assignments.map (record.columnOf? ·.target.field) := by
  induction assignments generalizing s assigned with
  | nil =>
    simp only [lowerAssignments, pure_some] at lowered
    obtain ⟨rfl, rfl⟩ := lowered
    rfl
  | cons a rest ih =>
    simp only [lowerAssignments, bind_some, lift_some, pure_some] at lowered
    obtain ⟨column, _, ⟨found, rfl⟩, value, middle, -, others, _, later, rfl, rfl⟩ := lowered
    rw [List.map_cons, List.map_cons, found, ih later]

theorem functionWord?_some {name word} (found : functionWord? name = some word) :
    word ∈ bareFunctions ∨ word = name := by
  rw [functionWord?] at found
  split at found
  · next bare =>
      cases found
      exact .inl (List.contains_iff_mem.mp bare)
  · split at found
    · cases found
    · cases found
      exact .inr rfl

/-- How SQL spells a piece that is one word of it. -/
inductive Piece.SpelledAs : Piece → String → Prop
  | keyword (word : String) : SpelledAs (.keyword word) word
  | function {name word} (known : functionWord? name = some word) : SpelledAs (.function name) word
  | number (digits : String) : SpelledAs (.number digits) digits
  | operator (symbol : String) : SpelledAs (.operator symbol) symbol
  | comma : SpelledAs .comma ","
  | opening : SpelledAs .opening "("
  | closing : SpelledAs .closing ")"

/-- What can be said of every part of a statement, its SQL and the states before and after lowering
    it, because each rule of lowering keeps it. -/
structure Judgement (aliases : Aliases) where
  piece : Issued → Piece → Sql.Term → Issued → Prop
  pieces : Issued → List Piece → Sql.Expression → Issued → Prop
  select : Bool → Issued → SelectOf (List Piece) → Sql.Select → Issued → Prop
  items : Bool → Issued → List (SelectItem (List Piece)) → List (Sql.Item Sql.Expression) →
    Issued → Prop
  ranges : Issued → List (Range (List Piece)) → List (Sql.Range Sql.Expression) → Issued → Prop
  joins : Issued → List (Join (List Piece)) → List (Sql.Join Sql.Expression) → Issued → Prop
  clause : Issued → Option (List Piece) → Option Sql.Expression → Issued → Prop
  list : Issued → List (List Piece) → List Sql.Expression → Issued → Prop
  orders : Issued → List (OrderItem (List Piece)) → List (Sql.OrderItem Sql.Expression) →
    Issued → Prop
  assignments : EntityRecord → Issued → List Assignment → List Sql.Assignment → Issued → Prop
  statement : Issued → Statement → Sql.Statement → Issued → Prop
  word : ∀ {s p text}, p.SpelledAs text → piece s p (.word text) s
  text : ∀ {s} value, piece s (.text value) (.text value) s
  parameter : ∀ {s name index s'}, Lower.parameter name s = some (index, s') →
    piece s (.parameter name) (.parameter index) s'
  path : ∀ {s path record column table}, aliases.record? path.aliasName = some record →
    record.columnOf? path.field = some column → s.tables.get? path.aliasName = some table →
    piece s (.path path) (.column ⟨table, column⟩) s
  entity : ∀ {s name record column table}, aliases.record? name = some record →
    record.idColumn? = some column → s.tables.get? name = some table →
    piece s (.variable name) (.column ⟨table, column⟩) s
  result : ∀ {s name label}, s.labels.get? name = some label →
    piece s (.variable name) (.label label) s
  subselect : ∀ {s query sql s'}, select false s query sql s' →
    piece s (.subselect query) (.subselect sql) s'
  pieces_nil : ∀ {s}, pieces s [] [] s
  pieces_cons : ∀ {s term t terms s'} p rest, piece s p term t →
    pieces t (p.onward rest) terms s' → pieces s (p :: rest) (term :: terms) s'
  select_mk : ∀ {isTop isDistinct its rs filter groups groupFilter os entries tables limit keys
      groupLimit sorting s s₀ s₁ s₂ s₃ s₄ s₅ s'},
    Lower.issueAliases aliases rs s = some ((), s₀) → items isTop s₀ its entries s₁ →
    ranges s₁ rs tables s₂ → clause s₂ filter limit s₃ → list s₃ groups keys s₄ →
    clause s₄ groupFilter groupLimit s₅ → orders s₅ os sorting s' →
    select isTop s ⟨isDistinct, its, rs, filter, groups, groupFilter, os⟩
      ⟨isDistinct, entries, tables, limit, keys, groupLimit, sorting⟩ s'
  items_nil : ∀ {isTop s}, items isTop s [] [] s
  items_entity : ∀ {s name record table own t rest others s'},
    aliases.record? name = some record → s.tables.get? name = some table →
    record.fields.mapM (Lower.column table) s = some (own, t) → items true t rest others s' →
    items true s (⟨[.variable name], none⟩ :: rest) (own ++ others) s'
  items_value : ∀ {isTop s expr name terms t label u rest others s'}, pieces s expr terms t →
    Lower.entryLabel isTop name t = some (label, u) → items isTop u rest others s' →
    items isTop s (⟨expr, name⟩ :: rest) (.value terms label :: others) s'
  ranges_nil : ∀ {s}, ranges s [] [] s
  ranges_cons : ∀ {s className name index js record table own t rest others s'},
    aliases.record? name = some record → s.tables.get? name = some table → joins s js own t →
    ranges t rest others s' →
    ranges s (⟨className, name, index, js⟩ :: rest) (⟨record.table, table, own⟩ :: others) s'
  joins_nil : ∀ {s}, joins s [] [] s
  joins_entity : ∀ {s isLeft className name index condition record table limit t rest others s'},
    aliases.record? name = some record → s.tables.get? name = some table →
    clause s condition limit t → joins t rest others s' →
    joins s (⟨isLeft, .entity className, name, index, condition⟩ :: rest)
      (⟨isLeft, .table record.table table limit⟩ :: others) s'
  joins_association : ∀ {s isLeft path name index condition record table owner ownerTable
      association route link t limit u rest others s'},
    aliases.record? name = some record → s.tables.get? name = some table →
    aliases.record? path.aliasName = some owner →
    s.tables.get? path.aliasName = some ownerTable →
    owner.association? path.field = some association → Route.of? association record = some route →
    Lower.linkAlias route s = some (link, t) → clause t condition limit u →
    joins u rest others s' →
    joins s (⟨isLeft, .association path, name, index, condition⟩ :: rest)
      (⟨isLeft, .hops (route.hops ownerTable table link record.table) limit⟩ :: others) s'
  clause_none : ∀ {s}, clause s none none s
  clause_some : ∀ {s expr terms s'}, pieces s expr terms s' → clause s (some expr) (some terms) s'
  list_nil : ∀ {s}, list s [] [] s
  list_cons : ∀ {s expr terms t rest others s'}, pieces s expr terms t →
    list t rest others s' → list s (expr :: rest) (terms :: others) s'
  orders_nil : ∀ {s}, orders s [] [] s
  orders_cons : ∀ {s expr terms t direction rest others s'}, pieces s expr terms t →
    orders t rest others s' →
    orders s (⟨expr, direction⟩ :: rest) (⟨terms, direction.map (·.word)⟩ :: others) s'
  assignments_nil : ∀ {record s}, assignments record s [] [] s
  assignments_cons : ∀ {record s target column value terms t rest others s'},
    record.columnOf? target.field = some column → pieces s value terms t →
    assignments record t rest others s' →
    assignments record s (⟨target, value⟩ :: rest) (⟨column, terms⟩ :: others) s'
  selected : ∀ {s query sql s'}, select true s query sql s' →
    statement s (.select query) (.select sql) s'
  updated : ∀ {s range record table s₀ as assigned s₁ filter limit s'},
    Lower.issueAliases aliases [range] s = some ((), s₀) →
    s₀.tables.get? range.aliasName = some table → aliases.record? range.aliasName = some record →
    assignments record s₀ as assigned s₁ → clause s₁ filter limit s' →
    statement s (.update range as filter) (.update record.table table assigned limit) s'
  deleted : ∀ {s range record table s₀ filter limit s'},
    Lower.issueAliases aliases [range] s = some ((), s₀) →
    s₀.tables.get? range.aliasName = some table → aliases.record? range.aliasName = some record →
    clause s₀ filter limit s' →
    statement s (.delete range filter) (.delete record.table table limit) s'

variable (J : Judgement aliases)
variable {assignments : List Assignment} {sql : Sql.Statement}

mutual
theorem lowerPiece_judged (p : Piece) {s s' term}
    (lowered : lowerPiece aliases p s = some (term, s')) : J.piece s p term s' := by
  cases p with
  | path path =>
    simp only [lowerPiece, bind_some, lift_some, tableAlias_some,
      pure_some] at lowered
    obtain ⟨record, _, ⟨known, rfl⟩, column, _, ⟨mapped, rfl⟩, table, _, ⟨found, rfl⟩, rfl,
      rfl⟩ := lowered
    exact J.path known mapped found
  | «variable» name =>
    simp only [lowerPiece, bind_some, lift_some] at lowered
    obtain ⟨component, _, ⟨known, rfl⟩, lowered⟩ := lowered
    cases component with
    | entity record =>
      simp only [bind_some, lift_some, tableAlias_some,
        pure_some] at lowered
      obtain ⟨column, _, ⟨mapped, rfl⟩, table, _, ⟨found, rfl⟩, rfl, rfl⟩ := lowered
      exact J.entity (by rw [Aliases.record?, known]) mapped found
    | result =>
      simp only [bind_some, get_some, lift_some, pure_some] at lowered
      obtain ⟨_, _, ⟨rfl, rfl⟩, label, _, ⟨found, rfl⟩, rfl, rfl⟩ := lowered
      exact J.result found
  | subselect query =>
    simp only [lowerPiece, bind_some, pure_some] at lowered
    obtain ⟨sql, _, lowered, rfl, rfl⟩ := lowered
    exact J.subselect (lowerSelect_judged false query lowered)
  | parameter name =>
    simp only [lowerPiece, bind_some, pure_some] at lowered
    obtain ⟨index, _, numbered, rfl, rfl⟩ := lowered
    exact J.parameter numbered
  | function name =>
    simp only [lowerPiece, bind_some, lift_some, pure_some] at lowered
    obtain ⟨word, _, ⟨known, rfl⟩, rfl, rfl⟩ := lowered
    exact J.word (.function known)
  | className _ | partialObject _ _ => simp only [lowerPiece, failure_some] at lowered
  | text value =>
    simp only [lowerPiece, pure_some] at lowered
    obtain ⟨rfl, rfl⟩ := lowered
    exact J.text value
  | _ =>
    simp only [lowerPiece, pure_some] at lowered
    obtain ⟨rfl, rfl⟩ := lowered
    exact J.word (by constructor)

-- Lowering goes on with a suffix of the rest, so the induction is on a list around the pieces.
theorem lowerPieces_judged (ps : List Piece) {part} (suffix : part <:+ ps) {s s' terms}
    (lowered : lowerPieces aliases part s = some (terms, s')) : J.pieces s part terms s' := by
  cases ps with
  | nil =>
    obtain rfl := List.suffix_nil.mp suffix
    simp only [lowerPieces, pure_some] at lowered
    obtain ⟨rfl, rfl⟩ := lowered
    exact J.pieces_nil
  | cons p rest =>
    rcases List.suffix_cons_iff.mp suffix with rfl | suffix
    · rw [lowerPieces_onward] at lowered
      simp only [bind_some, pure_some] at lowered
      obtain ⟨term, middle, first, others, _, later, rfl, rfl⟩ := lowered
      exact J.pieces_cons p rest (lowerPiece_judged p first)
        (lowerPieces_judged rest (p.onward_suffix rest) later)
    · exact lowerPieces_judged rest suffix lowered

theorem lowerSelect_judged (isTop : Bool) (query : SelectOf (List Piece)) {s s' sql}
    (lowered : lowerSelect aliases isTop query s = some (sql, s')) :
    J.select isTop s query sql s' := by
  cases query with
  | mk isDistinct items ranges filter groups groupFilter orders =>
    simp only [lowerSelect, bind_some] at lowered
    obtain ⟨_, s₀, issued, _, s₁, listed, lowered⟩ := lowered
    split at lowered
    · simp only [bind_some, failure_some, false_and, exists_false] at lowered
    · simp only [bind_some, pure_some] at lowered
      obtain ⟨_, s₂, ranged, _, s₃, filtered, _, s₄, grouped, _, s₅, limited, _, _, ordered,
        rfl, rfl⟩ := lowered
      exact J.select_mk issued (lowerItems_judged isTop items listed)
        (lowerRanges_judged ranges ranged) (lowerOptional_judged filter filtered)
        (lowerList_judged groups grouped) (lowerOptional_judged groupFilter limited)
        (lowerOrders_judged orders ordered)

theorem lowerItems_judged (isTop : Bool) (items : List (SelectItem (List Piece))) {s s' entries}
    (lowered : lowerItems aliases isTop items s = some (entries, s')) :
    J.items isTop s items entries s' := by
  cases items with
  | nil =>
    simp only [lowerItems, pure_some] at lowered
    obtain ⟨rfl, rfl⟩ := lowered
    exact J.items_nil
  | cons item rest =>
    cases item with
    | mk expr name =>
      simp only [lowerItems] at lowered
      split at lowered
      · subst isTop
        cases whole : wholeEntity? aliases expr name with
        | some pair =>
          obtain ⟨entity, record⟩ := pair
          simp only [whole, bind_some, pure_some, tableAlias_some] at lowered
          obtain ⟨table, _, ⟨found, rfl⟩, own, middle, spread, others, _, later, rfl, rfl⟩ :=
            lowered
          obtain ⟨rfl, rfl, known⟩ := wholeEntity?_some whole
          exact J.items_entity known found spread (lowerItems_judged true rest later)
        | none =>
          simp only [whole, bind_some, pure_some] at lowered
          obtain ⟨terms, after, valued, label, middle, labelled, _, _, ⟨rfl, rfl⟩, others, _,
            later, rfl, rfl⟩ := lowered
          refine J.items_value (lowerPieces_judged expr List.suffix_rfl valued) ?_
            (lowerItems_judged true rest later)
          exact bind_some.mpr ⟨label, _, labelled, rfl⟩
      · obtain rfl : isTop = false := by simpa using ‹¬isTop = true›
        simp only [bind_some, pure_some] at lowered
        obtain ⟨terms, middle, valued, _, _, ⟨rfl, rfl⟩, others, _, later, rfl, rfl⟩ := lowered
        exact J.items_value (lowerPieces_judged expr List.suffix_rfl valued) rfl
          (lowerItems_judged false rest later)

theorem lowerRanges_judged (ranges : List (Range (List Piece))) {s s' tables}
    (lowered : lowerRanges aliases ranges s = some (tables, s')) : J.ranges s ranges tables s' := by
  cases ranges with
  | nil =>
    simp only [lowerRanges, pure_some] at lowered
    obtain ⟨rfl, rfl⟩ := lowered
    exact J.ranges_nil
  | cons range rest =>
    cases range with
    | mk className name index joins =>
      simp only [lowerRanges, bind_some, pure_some, lift_some,
        tableAlias_some] at lowered
      obtain ⟨table, _, ⟨found, rfl⟩, record, _, ⟨known, rfl⟩, own, middle, joined, others, _,
        later, rfl, rfl⟩ := lowered
      exact J.ranges_cons known found (lowerJoins_judged joins joined)
        (lowerRanges_judged rest later)

theorem lowerJoins_judged (joins : List (Join (List Piece))) {s s' tables}
    (lowered : lowerJoins aliases joins s = some (tables, s')) : J.joins s joins tables s' := by
  cases joins with
  | nil =>
    simp only [lowerJoins, pure_some] at lowered
    obtain ⟨rfl, rfl⟩ := lowered
    exact J.joins_nil
  | cons join rest =>
    cases join with
    | mk isLeft target name index condition =>
      cases target with
      | entity className =>
        simp only [lowerJoins, bind_some, pure_some, lift_some,
          tableAlias_some] at lowered
        obtain ⟨table, _, ⟨found, rfl⟩, record, _, ⟨known, rfl⟩, limit, middle, limited, _,
          _, ⟨rfl, rfl⟩, others, _, later, rfl, rfl⟩ := lowered
        exact J.joins_entity known found (lowerOptional_judged condition limited)
          (lowerJoins_judged rest later)
      | association path =>
        rw [lowerJoins_association] at lowered
        simp only [bind_some, pure_some, lift_some,
          tableAlias_some] at lowered
        obtain ⟨table, _, ⟨found, rfl⟩, record, _, ⟨known, rfl⟩, ownerTable, _,
          ⟨started, rfl⟩, owner, _, ⟨owned, rfl⟩, association, _, ⟨named, rfl⟩, route, _,
          ⟨leads, rfl⟩, link, _, linked, limit, _, limited, others, _, later, rfl, rfl⟩ :=
          lowered
        exact J.joins_association known found owned started named leads linked
          (lowerOptional_judged condition limited) (lowerJoins_judged rest later)

theorem lowerOptional_judged (clause : Option (List Piece)) {s s' found}
    (lowered : lowerOptional aliases clause s = some (found, s')) : J.clause s clause found s' := by
  cases clause with
  | none =>
    simp only [lowerOptional, pure_some] at lowered
    obtain ⟨rfl, rfl⟩ := lowered
    exact J.clause_none
  | some expr =>
    simp only [lowerOptional, bind_some, pure_some] at lowered
    obtain ⟨terms, _, lowered, rfl, rfl⟩ := lowered
    exact J.clause_some (lowerPieces_judged expr List.suffix_rfl lowered)

theorem lowerList_judged (exprs : List (List Piece)) {s s' entries}
    (lowered : lowerList aliases exprs s = some (entries, s')) : J.list s exprs entries s' := by
  cases exprs with
  | nil =>
    simp only [lowerList, pure_some] at lowered
    obtain ⟨rfl, rfl⟩ := lowered
    exact J.list_nil
  | cons expr rest =>
    simp only [lowerList, bind_some, pure_some] at lowered
    obtain ⟨terms, middle, first, others, _, later, rfl, rfl⟩ := lowered
    exact J.list_cons (lowerPieces_judged expr List.suffix_rfl first)
      (lowerList_judged rest later)

theorem lowerOrders_judged (orders : List (OrderItem (List Piece))) {s s' entries}
    (lowered : lowerOrders aliases orders s = some (entries, s')) :
    J.orders s orders entries s' := by
  cases orders with
  | nil =>
    simp only [lowerOrders, pure_some] at lowered
    obtain ⟨rfl, rfl⟩ := lowered
    exact J.orders_nil
  | cons item rest =>
    cases item with
    | mk expr direction =>
      simp only [lowerOrders, bind_some, pure_some] at lowered
      obtain ⟨terms, middle, first, others, _, later, rfl, rfl⟩ := lowered
      exact J.orders_cons (lowerPieces_judged expr List.suffix_rfl first)
        (lowerOrders_judged rest later)
end

theorem lowerAssignments_judged {assigned s s'}
    (lowered : lowerAssignments aliases record assignments s = some (assigned, s')) :
    J.assignments record s assignments assigned s' := by
  induction assignments generalizing s assigned with
  | nil =>
    simp only [lowerAssignments, pure_some] at lowered
    obtain ⟨rfl, rfl⟩ := lowered
    exact J.assignments_nil
  | cons assignment rest ih =>
    simp only [lowerAssignments, bind_some, lift_some, pure_some] at lowered
    obtain ⟨column, _, ⟨mapped, rfl⟩, value, middle, first, others, _, later, rfl, rfl⟩ := lowered
    exact J.assignments_cons mapped (lowerPieces_judged J _ List.suffix_rfl first) (ih later)

theorem lowerStatement_judged {statement s s'}
    (lowered : lowerStatement aliases statement s = some (sql, s')) :
    J.statement s statement sql s' := by
  cases statement with
  | select query =>
    simp only [lowerStatement, bind_some, pure_some] at lowered
    obtain ⟨select, _, lowered, rfl, rfl⟩ := lowered
    exact J.selected (lowerSelect_judged J true query lowered)
  | update range assignments filter =>
    obtain ⟨record, table, assigned, limit, s₀, s₁, issued, found, known, first, second, rfl⟩ :=
      lowerStatement_update lowered
    exact J.updated issued found known (lowerAssignments_judged J first)
      (lowerOptional_judged J filter second)
  | delete range filter =>
    obtain ⟨record, table, limit, s₀, issued, found, known, last, rfl⟩ :=
      lowerStatement_delete lowered
    exact J.deleted issued found known (lowerOptional_judged J filter last)

theorem relationalForm?_some {statement parameters}
    (formed : relationalForm? aliases statement = some (sql, parameters)) :
    ∃ issued, lowerStatement aliases statement {} = some (sql, issued) ∧
      issued.parameters = parameters := by
  obtain ⟨_, -, formed⟩ := Option.bind_eq_some_iff.mp formed
  obtain ⟨⟨_, issued⟩, lowered, same⟩ := Option.bind_eq_some_iff.mp formed
  cases same
  exact ⟨issued, lowered, rfl⟩

end Parts

end EntityAudit.Query
