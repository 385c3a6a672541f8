import EntityAudit.Query.Relational

/-! # Compilation of query texts

A text is read as a statement, its names are resolved and judged, and the statement is given its
relational form. What a text says about classes, aliases and joins is judged as far as it can be
read, before a fault of the reading itself; uses of aliases and properties come last. The SQL is
given as it is written, without a second reading by a database.
-/

namespace EntityAudit.Query

inductive Rejection where
  | malformed (fault : Fault)
  /-- A name has no meaning. The text near `found` is shown. -/
  | misnamed (cause : NameFault) (found : Option Token) (near : String)
  | lookup (failure : Failure)
  deriving DecidableEq

def Expectation.wording : Expectation → String
  | .statement => "SELECT, UPDATE or DELETE"
  | .endOfText => "end of string"
  | .token name => "Doctrine\\ORM\\Query\\Lexer::T_" ++ name

def columnText : Option Token → String
  | some token => toString token.position
  | none => "-1"

def foundText : Option Token → String
  | some token => "'" ++ token.value ++ "'"
  | none => "end of string."

def Fault.wording : Fault → String
  | .expected what found =>
    "line 0, col " ++ columnText found ++ ": Error: Expected " ++ what.wording ++ ", got " ++
      foundText found
  | .unexpected found =>
    "line 0, col " ++ columnText found ++ ": Error: Unexpected " ++ foundText found
  | .pastEnd => "reading went past the end"

def NameFault.wording : NameFault → String
  | .undefinedClass name => "Class '" ++ name ++ "' is not defined."
  | .repeatedAlias aliasName => "'" ++ aliasName ++ "' is already defined."
  | .undefinedJoinRoot aliasName =>
    "Identification Variable " ++ aliasName ++
      " used in join path expression but was not defined before."
  | .noAssociation className field =>
    "Class " ++ className ++ " has no association named " ++ field
  | .undefinedAlias aliasName => "'" ++ aliasName ++ "' is not defined."
  | .notAClass aliasName => "'" ++ aliasName ++ "' does not point to a Class."
  | .collection =>
    "Invalid PathExpression. StateFieldPathExpression or SingleValuedAssociationField expected."
  | .noProperty className field =>
    "Class " ++ className ++ " has no field or association named " ++ field

def Rejection.message : Rejection → String
  | .malformed fault => "[Syntax Error] " ++ fault.wording
  | .misnamed cause found near =>
    "[Semantical Error] line 0, col " ++ columnText found ++ " near '" ++ near ++ "': Error: " ++
      cause.wording
  | .lookup failure => failure.message

def skipBytes : (count : Nat) → List Char → List Char
  | 0, cs => cs
  | _ + 1, [] => []
  | count + 1, c :: cs => skipBytes (count + 1 - c.utf8Size) cs

/-- The first `count` bytes of a text; a character cut in two becomes a replacement character. -/
def firstBytes : (count : Nat) → List Char → List Char
  | 0, _ => []
  | _ + 1, [] => []
  | count + 1, c :: cs =>
    if c.utf8Size ≤ count + 1 then c :: firstBytes (count + 1 - c.utf8Size) cs
    else [Char.ofNat 0xFFFD]

/-- The text up to its first space that is `least` bytes or more from the start. -/
def upToSpace? : (least : Nat) → List Char → Option (List Char)
  | _, [] => none
  | least, c :: cs =>
    if least = 0 ∧ c = ' ' then some []
    else (upToSpace? (least - c.utf8Size) cs).map (c :: ·)

/-- The least length of an excerpt in bytes, if the text is long enough. -/
def excerptSize : Nat := 12

/-- What stands near a byte of a text: some bytes and the rest of the word, or only the bytes when
    no space follows. -/
def excerpt (text : String) (position : Nat) : String :=
  let rest := skipBytes position text.toList
  String.ofList ((upToSpace? excerptSize rest).getD (firstBytes excerptSize rest))

structure Compiled where
  /-- The SQL statement; none when there is no relational form. -/
  sql : Option Sql.Statement
  parameters : List String

def Compiled.withoutSql : Compiled := ⟨none, []⟩

def Compiled.ofStatement (aliases : Aliases) (s : Statement) : Compiled :=
  match relationalForm? aliases s with
  | some (sql, parameters) => ⟨some sql, parameters⟩
  | none => withoutSql

/-- A compilation; look-ups teach the gateway, whether it succeeds or not. -/
abbrev Compile := EStateM Rejection Gateway

def Rejection.ofNameFailure (text : String) : NameFailure → Rejection
  | .fault cause found =>
    .misnamed cause found (excerpt text ((found.map (·.position)).getD 0))
  | .lookup failure => .lookup failure

structure Parsed where
  statement : Statement
  aliases : Aliases

def parse (text : String) : Compile Parsed := do
  let reading := Reading.ofTokens (Token.scan text)
  let aliases ← (resolveAliases reading.mentions).adaptExcept (Rejection.ofNameFailure text)
  match reading.outcome with
  | .error fault => throw (.malformed fault)
  | .ok statement =>
    match checkUses aliases reading.mentions with
    | .error cause => throw (.ofNameFailure text cause)
    | .ok () => return ⟨statement, aliases⟩

def compile (text : String) : Compile Compiled := do
  let parsed ← parse text
  return .ofStatement parsed.aliases parsed.statement

end EntityAudit.Query
