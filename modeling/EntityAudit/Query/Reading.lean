import EntityAudit.Query.Token
import EntityAudit.Query.Tree

/-! # Reading statements

A recursive-descent reader from tokens to statements. Inside an expression only parentheses, paths,
variables and subselects are followed. The reader knows nothing of the mapping: it notes, in reading
order, what the statement says about names. Loops are bounded by the number of tokens left, and
subselects nest no deeper than there are tokens.
-/

namespace EntityAudit.Query

/-- Something a statement says about names, with the tokens to point at. -/
inductive Mention where
  /-- A class is named. It becomes the subject. -/
  | className (token : Token)
  /-- A join path starts at an alias; its class becomes the subject. The next token follows. -/
  | joinRoot (token : Token) (next : Option Token)
  /-- A join path follows an association of the subject; the association's target becomes the
      subject. The next token follows. -/
  | joinField (token : Token) (next : Option Token)
  | entityAlias (token : Token)
  | resultAlias (token : Token)
  | variable (token : Token)
  /-- A property of an alias is used. The token for the property holds the whole path after the
      alias, at the position of its last part. -/
  | path (aliasName field : Token) (allowsCollection : Bool)
  deriving DecidableEq

inductive Expectation where
  | statement
  | endOfText
  /-- A token by its name in the grammar. -/
  | token (name : String)
  deriving DecidableEq

/-- Why a text is not a statement. No token means the end of the text. -/
inductive Fault where
  | expected (what : Expectation) (found : Option Token)
  | unexpected (found : Option Token)
  /-- The reader itself went past the end. -/
  | pastEnd
  deriving DecidableEq

structure Cursor where
  rest : List Token
  /-- What was said about names so far, in order. -/
  mentions : List Mention := []

/-- A reader of `α`. When it fails, it still tells how far it came. -/
abbrev Read := EStateM Fault Cursor

namespace Read

def peek : Read (Option Token) := do
  return (← get).rest.head?

def peekAt (offset : Nat) : Read (Option Token) := do
  return (← get).rest[offset]?

def advance : Read Unit := do
  let c ← get
  match c.rest with
  | [] => throw .pastEnd
  | _ :: rest => set { c with rest }

def note (mention : Mention) : Read Unit :=
  modify fun c => { c with mentions := c.mentions ++ [mention] }

def failExpected {α : Type} (what : Expectation) : Read α := do
  throw (.expected what (← peek))

def failUnexpected {α : Type} : Read α := do
  throw (.unexpected (← peek))

def sees (word : String) : Read Bool := do
  return (← peek).any (·.isWord word)

def eat? (accept : Token → Bool) : Read (Option Token) := do
  match ← peek with
  | some token =>
    if accept token then
      advance
      return some token
    else
      return none
  | none => return none

def eatWord (word : String) : Read Bool := do
  return (← eat? (·.isWord word)).isSome

def eatKind (kind : TokenKind) : Read Bool := do
  return (← eat? (·.kind == kind)).isSome

/-- Take the next token, which `accept` must approve; `name` is what the grammar calls it. -/
def expect (accept : Token → Bool) (name : String) : Read Token := do
  match ← eat? accept with
  | some token => return token
  | none => failExpected (.token name)

def expectWord (word : String) : Read Unit :=
  discard (expect (·.isWord word) word)

def expectIdentifier : Read Token :=
  expect (·.kind == .identifier) "IDENTIFIER"

def expectDot : Read Unit :=
  discard (expect (·.kind == .dot) "DOT")

/-- Items divided by commas, at most `fuel` of them. -/
def commaListUpTo {α : Type} (item : Read α) : (fuel : Nat) → Read (List α)
  | 0 => return []
  | fuel + 1 => do
    let head ← item
    if ← eatKind .comma then
      return head :: (← commaListUpTo item fuel)
    else
      return [head]

def commaList {α : Type} (item : Read α) : Read (List α) := do
  commaListUpTo item ((← get).rest.length + 1)

/-- Items as long as `more` says so, at most `fuel` of them. -/
def whileUpTo {α : Type} (more : Read Bool) (item : Read α) : (fuel : Nat) → Read (List α)
  | 0 => return []
  | fuel + 1 => do
    if ← more then
      let head ← item
      return head :: (← whileUpTo more item fuel)
    else
      return []

def whileSeen {α : Type} (more : Read Bool) (item : Read α) : Read (List α) := do
  whileUpTo more item ((← get).rest.length + 1)

/-- What follows the reserved word `word`, if that is next. -/
def optionally {α : Type} (word : String) (item : Read α) : Read (Option α) := do
  if ← eatWord word then
    return some (← item)
  else
    return none

def aliasName (mention : Token → Mention) : Read String := do
  let token ← expect (·.isAlias) "IDENTIFIER"
  note (mention token)
  return token.value

def className : Read String := do
  let token ← expect (·.isName) "IDENTIFIER"
  note (.className token)
  return token.value

def simplePath : Read PropertyPath := do
  let aliasName ← expectIdentifier
  expectDot
  let field ← expectIdentifier
  note (.path aliasName field false)
  return ⟨aliasName.value, field.value⟩

def indexBy : Read (Option PropertyPath) :=
  optionally "INDEX" do
    expectWord "BY"
    simplePath

def pathParts : Read (List Token) :=
  whileSeen (return (← peek).any (·.kind == .dot)) do
    expectDot
    expectIdentifier

def seesEmptinessTest : Read Bool := do
  let second ← peekAt 1
  let third ← peekAt 2
  return (← sees "IS") &&
    (second.any (·.isWord "EMPTY") ||
      (second.any (·.isWord "NOT") && third.any (·.isWord "EMPTY")))

/-- Whether a path that follows `before` may lead to a collection: after `OF`, or as the argument
    of `SIZE`. -/
def allowsCollection (before : Expression) : Bool :=
  match before.reverse with
  | .keyword "OF" :: _ => true
  | .opening :: .function name :: _ => Text.raiseCase name == "SIZE"
  | _ => false

/-- Take a property path in an expression that starts with `before`, and note its use. -/
def path (before : Expression) : Read Piece := do
  let aliasName ← expectIdentifier
  match (← pathParts).reverse with
  | [] => failExpected (.token "IDENTIFIER")
  | last :: earlier =>
    let field := ".".intercalate ((last :: earlier).reverse.map (·.value))
    let collection := allowsCollection before || (← seesEmptinessTest)
    note (.path aliasName { last with value := field } collection)
    return .path ⟨aliasName.value, field⟩

/-- Take the fields of a partially loaded alias, after the word `PARTIAL`. -/
def partialObject : Read Piece := do
  let aliasName ← expectIdentifier
  note (.variable aliasName)
  expectDot
  discard (expect (·.kind == .openCurly) "OPEN_CURLY_BRACE")
  let fields ← commaList do
    let field ← expectIdentifier
    note (.path aliasName field false)
    return field.value
  discard (expect (·.kind == .closeCurly) "CLOSE_CURLY_BRACE")
  return .partialObject aliasName.value fields

/-- Words that end an expression that stands in no parentheses. -/
def clauseWords : List String :=
  ["FROM", "WHERE", "GROUP", "HAVING", "ORDER", "JOIN", "LEFT", "INNER", "SET", "INDEX", "ON",
    "WITH", "UPDATE", "DELETE"]

structure Progress where
  pieces : Expression := []
  depth : Nat := 0
  /-- Whether an operand was read last, so that no other may follow. -/
  afterOperand : Bool := false
  /-- Whether the next name is that of a class. -/
  classNext : Bool := false

def Progress.push (p : Progress) (piece : Piece) (operand : Bool) : Progress :=
  { p with pieces := p.pieces ++ [piece], afterOperand := operand }

def Progress.endsIn (p : Progress) (word : String) : Bool :=
  p.pieces.getLast?.any (·.isWord word)

/-- What becomes of the next token of an expression. -/
inductive Action where
  /-- The expression ends before it. -/
  | stop
  /-- A closing parenthesis should stand in its place. -/
  | unclosed
  | reject
  | take (next : Progress)
  | variable
  | path
  | partialObject
  | subselect

/-- An expression ends where it stands in no parentheses; otherwise one is left open. -/
def Progress.ending (p : Progress) : Action :=
  if p.depth = 0 then .stop else .unclosed

def Progress.onKeyword (p : Progress) (word : String) : Action :=
  if clauseWords.contains word then
    if p.depth ≠ 0 ∧ word = "FROM" then .take (p.push (.keyword word) false) else p.ending
  else if ["AS", "ASC", "DESC", "HIDDEN"].contains word then
    p.ending
  else if word = "PARTIAL" then
    .partialObject
  else
    let operand := ["NULL", "TRUE", "FALSE", "END", "EMPTY"].contains word
    let classNext := p.classNext || word == "NEW" || (word == "OF" && p.endsIn "INSTANCE")
    .take { p.push (.keyword word) operand with classNext }

/-- What becomes of a name that is not reserved, given the kind of the token after it. -/
def Progress.onName (p : Progress) (name : String) (next : Option TokenKind) : Action :=
  if p.afterOperand then
    p.ending
  else if p.classNext then
    .take { p.push (.className name) true with classNext := false }
  else
    match next with
    | some .dot => .path
    | some .openParen => .take (p.push (.function name) false)
    | _ => .variable

def Progress.onLiteral (p : Progress) (piece : Piece) : Action :=
  if p.afterOperand then p.ending else .take (p.push piece true)

/-- What becomes of `token`, given the token after it. -/
def Progress.action (p : Progress) (token : Token) (next : Option Token) : Action :=
  match token.kind with
  | .closeParen =>
    if p.depth = 0 then .stop
    else .take { p.push .closing true with depth := p.depth - 1 }
  | .openParen =>
    if p.afterOperand then p.ending
    else if next.any (·.isWord "SELECT") then .subselect
    else .take { p.push .opening false with depth := p.depth + 1 }
  | .comma => if p.depth = 0 then .stop else .take (p.push .comma false)
  | .identifier =>
    if isReserved token.value then p.onKeyword (Text.raiseCase token.value)
    else p.onName token.value (next.map (·.kind))
  | .qualifiedName => p.onName token.value (next.map (·.kind))
  | .integer | .float => p.onLiteral (.number token.value)
  | .string => p.onLiteral (.text token.value)
  | .parameter => p.onLiteral (.parameter token.value)
  | .operator => .take (p.push (.operator token.value) false)
  | .dot | .openCurly | .closeCurly | .unknown => .reject

def finish (p : Progress) : Read Expression :=
  if p.pieces.isEmpty then failUnexpected else return p.pieces

def scan (sub : Read Select) : (fuel : Nat) → Progress → Read Expression
  | 0, p => if p.depth = 0 then finish p else failExpected (.token "CLOSE_PARENTHESIS")
  | fuel + 1, p => do
    match ← peek with
    | none => if p.depth = 0 then finish p else failExpected (.token "CLOSE_PARENTHESIS")
    | some token =>
      match p.action token (← peekAt 1) with
      | .stop => finish p
      | .unclosed => failExpected (.token "CLOSE_PARENTHESIS")
      | .reject => failUnexpected
      | .take p =>
        advance
        scan sub fuel p
      | .variable =>
        advance
        note (.variable token)
        scan sub fuel (p.push (.variable token.value) true)
      | .path =>
        let piece ← path p.pieces
        scan sub fuel (p.push piece true)
      | .partialObject =>
        advance
        let piece ← partialObject
        scan sub fuel (p.push piece true)
      | .subselect =>
        advance
        let query ← sub
        discard (expect (·.kind == .closeParen) "CLOSE_PARENTHESIS")
        scan sub fuel (p.push (.subselect query) true)

/-- One expression, up to the next clause. -/
def expression (sub : Read Select) : Read Expression := do
  scan sub ((← get).rest.length) {}

def selectItem (sub : Read Select) : Read (SelectItem Expression) := do
  let expr ← expression sub
  let named ← eatWord "AS"
  if named then
    discard (eatWord "HIDDEN")
  if named || (← peek).any (·.isAlias) then
    return ⟨expr, some (← aliasName .resultAlias)⟩
  else
    return ⟨expr, none⟩

def joinTarget : Read JoinTarget := do
  let next ← peek
  let second ← peekAt 1
  if next.any (·.kind == .identifier) && second.any (·.kind == .dot) then
    let parent ← expectIdentifier
    note (.joinRoot parent (← peek))
    expectDot
    let field ← expectIdentifier
    note (.joinField field (← peek))
    return .association ⟨parent.value, field.value⟩
  else
    return .entity (← className)

def join (sub : Read Select) : Read (Join Expression) := do
  let isLeft ← eatWord "LEFT"
  discard (eatWord (if isLeft then "OUTER" else "INNER"))
  expectWord "JOIN"
  let target ← joinTarget
  discard (eatWord "AS")
  let name ← aliasName .entityAlias
  let index ← indexBy
  let condition ←
    if (← eatWord "ON") then some <$> expression sub
    else optionally "WITH" (expression sub)
  return ⟨isLeft, target, name, index, condition⟩

def seesJoin : Read Bool := do
  return (← sees "JOIN") || (← sees "LEFT") || (← sees "INNER")

def bareRange : Read (Range Expression) := do
  let entity ← className
  discard (eatWord "AS")
  let name ← aliasName .entityAlias
  let index ← indexBy
  return ⟨entity, name, index, []⟩

def range (sub : Read Select) : Read (Range Expression) := do
  let bare ← bareRange
  let joins ← whileSeen seesJoin (join sub)
  return { bare with joins }

def direction : Read (Option Direction) := do
  if ← eatWord "ASC" then
    return some .ascending
  else if ← eatWord "DESC" then
    return some .descending
  else
    return none

def orderItem (sub : Read Select) : Read (OrderItem Expression) := do
  let expr ← expression sub
  return ⟨expr, ← direction⟩

def byClause {α : Type} (word : String) (item : Read α) : Read (List α) := do
  if ← eatWord word then
    expectWord "BY"
    commaList item
  else
    return []

/-- A select statement, where `sub` reads its subselects. -/
def selectWith (sub : Read Select) : Read Select := do
  expectWord "SELECT"
  let isDistinct ← eatWord "DISTINCT"
  let items ← commaList (selectItem sub)
  expectWord "FROM"
  let ranges ← commaList (range sub)
  let filter ← optionally "WHERE" (expression sub)
  let groups ← byClause "GROUP" (expression sub)
  let groupFilter ← optionally "HAVING" (expression sub)
  let orders ← byClause "ORDER" (orderItem sub)
  return { isDistinct, items, ranges, filter, groups, groupFilter, orders }

def selectUpTo : (depth : Nat) → Read Select
  | 0 => failUnexpected
  | depth + 1 => selectWith (selectUpTo depth)

def select : Read Select := do
  selectUpTo ((← get).rest.length + 1)

def assignment : Read Assignment := do
  let target ← simplePath
  discard (expect (fun t => t.kind == .operator && t.value == "=") "EQUALS")
  return ⟨target, ← expression select⟩

def update : Read Statement := do
  expectWord "UPDATE"
  let range ← bareRange
  expectWord "SET"
  let assignments ← commaList assignment
  return .update range assignments (← optionally "WHERE" (expression select))

def delete : Read Statement := do
  expectWord "DELETE"
  discard (eatWord "FROM")
  let range ← bareRange
  return .delete range (← optionally "WHERE" (expression select))

def statement : Read Statement := do
  let found ←
    if ← sees "SELECT" then Statement.select <$> select
    else if ← sees "UPDATE" then update
    else if ← sees "DELETE" then delete
    else failExpected .statement
  if (← peek).isSome then
    failExpected .endOfText
  return found

end Read

/-- What reading a text came to: all that was said about names as far as it was read, and the
    statement or why there is none. -/
structure Reading where
  mentions : List Mention
  outcome : Except Fault Statement

def Reading.ofTokens (tokens : List Token) : Reading :=
  match Read.statement { rest := tokens } with
  | .ok statement cursor => ⟨cursor.mentions, .ok statement⟩
  | .error fault cursor => ⟨cursor.mentions, .error fault⟩

end EntityAudit.Query
