import EntityAudit.Query.Names
import EntityAudit.Query.Nesting
import EntityAudit.Query.Sql

/-! # Relational form of statements

A statement whose names are resolved is turned into SQL. It has no relational form if it uses a
construct that SQL lacks, or a property with no single column behind it.
-/

namespace EntityAudit

/-- The column behind a property: that of a field, or the only join column of an association to one
    target. -/
def EntityRecord.columnOf? (record : EntityRecord) (field : String) : Option String :=
  match record.field? field with
  | some mapping => some mapping.column
  | none =>
    match record.association? field with
    | some association =>
      match association.cardinality, association.joinColumns with
      | .toOne, [column] => some column.name
      | _, _ => none
    | none => none

def EntityRecord.idColumn? (record : EntityRecord) : Option String :=
  match record.identifier with
  | [field] => some field.column
  | _ => none

namespace Query

/-- How an association leads from the table of its owner to that of its target. -/
inductive Route where
  | forward (columns : List JoinColumn)
  | backward (columns : List JoinColumn)
  /-- A link table refers to both. -/
  | link (table : String) (toOwner toTarget : List JoinColumn)
  deriving DecidableEq

namespace Route

/-- The route of an association to `target`. Join columns come before a link table, and the mapping
    on the target's side counts only when there is neither. -/
def of? (association : Association) (target : EntityRecord) : Option Route :=
  if !association.joinColumns.isEmpty then
    some (.forward association.joinColumns)
  else
    match association.joinTable with
    | some table => some (.link table.name table.joinColumns table.inverseColumns)
    | none => do
      let owner ← target.association? (← association.mappedBy)
      if !owner.joinColumns.isEmpty then
        some (.backward owner.joinColumns)
      else if owner.cardinality = .toMany then
        let table ← owner.joinTable
        some (.link table.name table.inverseColumns table.joinColumns)
      else
        none

def linkTable? : Route → Option String
  | .link table _ _ => some table
  | _ => none

/-- Each of `columns` of the table `near` equals what it refers to in the table `far`. -/
def equalities (columns : List JoinColumn) (near far : String) : List Sql.Equality :=
  columns.map fun c => ⟨⟨near, c.name⟩, ⟨far, c.referenced⟩⟩

/-- The tables a route brings in, given the aliases of the owner, the target and the link table. -/
def hops (route : Route) (owner target link : String) (targetTable : String) : List Sql.Hop :=
  match route with
  | .forward columns => [⟨targetTable, target, equalities columns owner target⟩]
  | .backward columns => [⟨targetTable, target, equalities columns target owner⟩]
  | .link table toOwner toTarget =>
    [⟨table, link, equalities toOwner link owner⟩,
      ⟨targetTable, target, equalities toTarget link target⟩]

end Route

structure Issued where
  /-- Table aliases, by alias of the statement. -/
  tables : Dict String := []
  /-- Labels of named values, by their name. -/
  labels : Dict String := []
  /-- Parameters in order of their numbers. -/
  parameters : List String := []
  tableCount : Nat := 0
  valueCount : Nat := 0
  columnCount : Nat := 0

/-- A step towards SQL, which may find that there is no relational form. -/
abbrev Lower := StateT Issued Option

namespace Lower

/-- A table alias that was not given out before: the initial of the table and a number. -/
def freshAlias (table : String) : Lower String := do
  let issued ← get
  set { issued with tableCount := issued.tableCount + 1 }
  let initial := (table.toList.head?.map Char.toLower).getD 't'
  return String.ofList [initial] ++ toString issued.tableCount ++ "_"

/-- Give a table alias to an alias of the statement. -/
def issueAlias (aliases : Aliases) (aliasName : String) : Lower Unit := do
  let record ← aliases.record? aliasName
  let fresh ← freshAlias record.table
  modify fun issued => { issued with tables := issued.tables.put aliasName fresh }

/-- Give table aliases to ranges and their joins, in order. -/
def issueAliases {ε : Type} (aliases : Aliases) (ranges : List (Range ε)) : Lower Unit :=
  ranges.forM fun range => do
    issueAlias aliases range.aliasName
    range.joins.forM fun join => issueAlias aliases join.aliasName

def tableAlias (aliasName : String) : Lower String := do
  (← get).tables.get? aliasName

def parameter (name : String) : Lower Nat := do
  let issued ← get
  match issued.parameters.idxOf? name with
  | some index => return index + 1
  | none =>
    set { issued with parameters := issued.parameters ++ [name] }
    return issued.parameters.length + 1

/-- A label for a value, remembered under the value's name if it has one. -/
def label (name : Option String) : Lower String := do
  let issued ← get
  let fresh := "sclr_" ++ toString issued.valueCount
  let labels := match name with
    | some name => issued.labels.put name fresh
    | none => issued.labels
  set { issued with labels, valueCount := issued.valueCount + 1 }
  return fresh

def column (table : String) (field : Field) : Lower (Sql.Item Sql.Expression) := do
  let issued ← get
  set { issued with columnCount := issued.columnCount + 1 }
  return .column ⟨table, field.column⟩ (field.column ++ "_" ++ toString issued.columnCount)

end Lower

/-- Functions that SQL writes without parentheses, in upper case. -/
def bareFunctions : List String :=
  ["CURRENT_DATE", "CURRENT_TIME", "CURRENT_TIMESTAMP"]

def Piece.isBareFunction : Piece → Bool
  | .function name => bareFunctions.contains (Text.raiseCase name)
  | _ => false

/-- The name of a function in SQL; a name with backslashes has none. -/
def functionWord? (name : String) : Option String :=
  if bareFunctions.contains (Text.raiseCase name) then some (Text.raiseCase name)
  else if name.toList.contains '\\' then none
  else some name

/-- The entity that an entry of a select list stands for as a whole. -/
def wholeEntity? (aliases : Aliases) : Expression → Option String → Option (String × EntityRecord)
  | [.variable name], none => (aliases.record? name).map (name, ·)
  | _, _ => none

def Direction.word : Direction → String
  | .ascending => "ASC"
  | .descending => "DESC"

mutual
def lowerPiece (aliases : Aliases) : Piece → Lower Sql.Term
  | .keyword word => return .word word
  | .className _ => failure
  | .function name => return .word (← functionWord? name)
  | .number digits => return .word digits
  | .text value => return .text value
  | .parameter name => return .parameter (← Lower.parameter name)
  | .operator symbol => return .word symbol
  | .comma => return .word ","
  | .opening => return .word "("
  | .closing => return .word ")"
  | .path path => do
    let record ← aliases.record? path.aliasName
    let column ← record.columnOf? path.field
    return .column ⟨← Lower.tableAlias path.aliasName, column⟩
  | .variable name => do
    match ← aliases.get? name with
    | .entity record =>
      let column ← record.idColumn?
      return .column ⟨← Lower.tableAlias name, column⟩
    | .result => return .label (← (← get).labels.get? name)
  | .partialObject _ _ => failure
  | .subselect query => return .subselect (← lowerSelect aliases false query)

/-- The pieces of an expression in SQL. A function written without parentheses loses the one that
    follows it and the piece after that. -/
def lowerPieces (aliases : Aliases) : List Piece → Lower (List Sql.Term)
  | [] => return []
  | piece :: rest => do
    let term ← lowerPiece aliases piece
    if piece.isBareFunction then
      match rest with
      | .opening :: _ :: rest => return term :: (← lowerPieces aliases rest)
      | [.opening] => return [term]
      | rest => return term :: (← lowerPieces aliases rest)
    else
      return term :: (← lowerPieces aliases rest)

/-- A select statement in SQL. Only at the top are entities spread into columns and values
    labelled. -/
def lowerSelect (aliases : Aliases) (isTop : Bool) : SelectOf (List Piece) → Lower Sql.Select
  | ⟨isDistinct, items, ranges, filter, groups, groupFilter, orders⟩ => do
    Lower.issueAliases aliases ranges
    let items ← lowerItems aliases isTop items
    if items.isEmpty then failure
    let ranges ← lowerRanges aliases ranges
    let filter ← lowerOptional aliases filter
    let groups ← lowerList aliases groups
    let groupFilter ← lowerOptional aliases groupFilter
    let orders ← lowerOrders aliases orders
    return { isDistinct, items, ranges, filter, groups, groupFilter, orders }

def lowerItems (aliases : Aliases) (isTop : Bool) :
    List (SelectItem (List Piece)) → Lower (List (Sql.Item Sql.Expression))
  | [] => return []
  | ⟨expr, aliasName⟩ :: rest => do
    let entries ←
      if isTop then
        match wholeEntity? aliases expr aliasName with
        | some (name, record) =>
          let table ← Lower.tableAlias name
          record.fields.mapM (Lower.column table)
        | none =>
          let terms ← lowerPieces aliases expr
          pure [Sql.Item.value terms (some (← Lower.label aliasName))]
      else
        pure [Sql.Item.value (← lowerPieces aliases expr) none]
    return entries ++ (← lowerItems aliases isTop rest)

def lowerRanges (aliases : Aliases) :
    List (Range (List Piece)) → Lower (List (Sql.Range Sql.Expression))
  | [] => return []
  | ⟨_, aliasName, _, joins⟩ :: rest => do
    let table ← Lower.tableAlias aliasName
    let record ← aliases.record? aliasName
    let joins ← lowerJoins aliases joins
    return ⟨record.table, table, joins⟩ :: (← lowerRanges aliases rest)

def lowerJoins (aliases : Aliases) :
    List (Join (List Piece)) → Lower (List (Sql.Join Sql.Expression))
  | [] => return []
  | ⟨isLeft, target, aliasName, _, condition⟩ :: rest => do
    let table ← Lower.tableAlias aliasName
    let record ← aliases.record? aliasName
    let body ← match target with
      | .entity _ =>
        pure (Sql.JoinBody.table record.table table (← lowerOptional aliases condition))
      | .association path => do
        let ownerTable ← Lower.tableAlias path.aliasName
        let owner ← aliases.record? path.aliasName
        let association ← owner.association? path.field
        let route ← Route.of? association record
        let link ← match route.linkTable? with
          | some linkTable => Lower.freshAlias linkTable
          | none => pure ""
        let hops := route.hops ownerTable table link record.table
        pure (Sql.JoinBody.hops hops (← lowerOptional aliases condition))
    return ⟨isLeft, body⟩ :: (← lowerJoins aliases rest)

def lowerOptional (aliases : Aliases) : Option (List Piece) → Lower (Option Sql.Expression)
  | none => return none
  | some expr => return some (← lowerPieces aliases expr)

def lowerList (aliases : Aliases) : List (List Piece) → Lower (List Sql.Expression)
  | [] => return []
  | expr :: rest => return (← lowerPieces aliases expr) :: (← lowerList aliases rest)

def lowerOrders (aliases : Aliases) :
    List (OrderItem (List Piece)) → Lower (List (Sql.OrderItem Sql.Expression))
  | [] => return []
  | ⟨expr, direction⟩ :: rest => do
    let terms ← lowerPieces aliases expr
    return ⟨terms, direction.map (·.word)⟩ :: (← lowerOrders aliases rest)
end

def lowerAssignments (aliases : Aliases) (record : EntityRecord) :
    List Assignment → Lower (List Sql.Assignment)
  | [] => return []
  | ⟨target, value⟩ :: rest => do
    let column ← record.columnOf? target.field
    let value ← lowerPieces aliases value
    return ⟨column, value⟩ :: (← lowerAssignments aliases record rest)

def lowerStatement (aliases : Aliases) : Statement → Lower Sql.Statement
  | .select query => return .select (← lowerSelect aliases true query)
  | .update range assignments filter => do
    Lower.issueAliases aliases [range]
    let table ← Lower.tableAlias range.aliasName
    let record ← aliases.record? range.aliasName
    let assignments ← lowerAssignments aliases record assignments
    return .update record.table table assignments (← lowerOptional aliases filter)
  | .delete range filter => do
    Lower.issueAliases aliases [range]
    let table ← Lower.tableAlias range.aliasName
    let record ← aliases.record? range.aliasName
    return .delete record.table table (← lowerOptional aliases filter)

/-- The SQL of a statement with its parameters in order of their numbers, if it has a relational
    form. -/
def relationalForm? (aliases : Aliases) (s : Statement) :
    Option (Sql.Statement × List String) := do
  guard s.isRelational
  let (sql, issued) ← (lowerStatement aliases s).run {}
  return (sql, issued.parameters)

end Query

end EntityAudit
