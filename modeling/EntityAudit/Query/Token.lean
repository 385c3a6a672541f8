import EntityAudit.Text.Blank
import EntityAudit.Text.Fold

/-! # Tokens of the query language

Every text splits into tokens; ASCII blanks only separate them, and a character that the language
has no use for is a token of its own. Positions count bytes of the UTF-8 form of the text.
-/

namespace EntityAudit.Query

inductive TokenKind where
  | identifier
  /-- A name with backslashes in it. -/
  | qualifiedName
  | integer
  | float
  | string
  | parameter
  | operator
  | dot
  | comma
  | openParen
  | closeParen
  | openCurly
  | closeCurly
  | unknown
  deriving DecidableEq

structure Token where
  kind : TokenKind
  /-- Its text; a quoted text without its quotes. -/
  value : String
  /-- The byte it starts at. -/
  position : Nat
  deriving DecidableEq

def reservedWords : List String :=
  ["ALL", "AND", "ANY", "AS", "ASC", "BETWEEN", "BOTH", "BY", "CASE", "DELETE", "DESC", "DISTINCT",
    "ELSE", "EMPTY", "END", "ESCAPE", "EXISTS", "FALSE", "FROM", "GROUP", "HAVING", "HIDDEN", "IN",
    "INDEX", "INNER", "INSTANCE", "IS", "JOIN", "LEADING", "LEFT", "LIKE", "MEMBER", "NEW", "NOT",
    "NULL", "OF", "ON", "OR", "ORDER", "OUTER", "PARTIAL", "SELECT", "SET", "SOME", "THEN",
    "TRAILING", "TRUE", "UPDATE", "WHEN", "WHERE", "WITH"]

def isReserved (word : String) : Bool :=
  reservedWords.contains (Text.raiseCase word)

namespace Token

def isWord (t : Token) (word : String) : Bool :=
  t.kind == .identifier && Text.raiseCase t.value == word

def isName (t : Token) : Bool :=
  t.kind == .identifier || t.kind == .qualifiedName

def isAlias (t : Token) : Bool :=
  t.kind == .identifier && !isReserved t.value

end Token

def isWordStart (c : Char) : Bool :=
  c.isAlpha || c == '_' || c == '\\'

def isWordChar (c : Char) : Bool :=
  c.isAlphanum || c == '_' || c == '\\'

def isParameterStart (c : Char) : Bool :=
  c.isAlpha || c == '_'

def isParameterChar (c : Char) : Bool :=
  c.isAlphanum || c == '_'

/-- What was read, and the characters after it. -/
structure Lexeme where
  kind : TokenKind
  value : List Char
  rest : List Char

def wordLexeme (c : Char) (cs : List Char) : Lexeme :=
  let word := c :: cs.takeWhile isWordChar
  ⟨if word.contains '\\' then .qualifiedName else .identifier, word, cs.dropWhile isWordChar⟩

/-- A point with digits after it, if the characters start with one. -/
def fraction : List Char → List Char × List Char
  | '.' :: d :: rest =>
    if d.isDigit then
      ('.' :: d :: rest.takeWhile Char.isDigit, rest.dropWhile Char.isDigit)
    else
      ([], '.' :: d :: rest)
  | cs => ([], cs)

def exponentSign : List Char → List Char × List Char
  | '+' :: rest => (['+'], rest)
  | '-' :: rest => (['-'], rest)
  | cs => ([], cs)

def exponent : List Char → List Char × List Char
  | e :: rest =>
    if e == 'e' || e == 'E' then
      let (sign, digits) := exponentSign rest
      if (digits.takeWhile Char.isDigit).isEmpty then
        ([], e :: rest)
      else
        (e :: sign ++ digits.takeWhile Char.isDigit, digits.dropWhile Char.isDigit)
    else
      ([], e :: rest)
  | [] => ([], [])

def numberLexeme (c : Char) (cs : List Char) : Lexeme :=
  let (frac, rest) := fraction (cs.dropWhile Char.isDigit)
  let (exp, rest) := exponent rest
  ⟨if frac.isEmpty && exp.isEmpty then .integer else .float,
    c :: cs.takeWhile Char.isDigit ++ frac ++ exp, rest⟩

/-- The text up to the closing quote, with doubled quotes read as one, and what follows. -/
def quoted? : List Char → Option (List Char × List Char)
  | [] => none
  | '\'' :: '\'' :: rest => (quoted? rest).map fun (text, rest) => ('\'' :: text, rest)
  | c :: rest =>
    if c == '\'' then some ([], rest)
    else (quoted? rest).map fun (text, rest) => (c :: text, rest)

def symbolKind : Char → TokenKind
  | '.' => .dot
  | ',' => .comma
  | '(' => .openParen
  | ')' => .closeParen
  | '{' => .openCurly
  | '}' => .closeCurly
  | '=' | '<' | '>' | '!' | '+' | '-' | '*' | '/' => .operator
  | _ => .unknown

def isOperatorPair (c d : Char) : Bool :=
  (c == '<' && (d == '>' || d == '=')) || ((c == '>' || c == '!') && d == '=')

/-- The character `c` alone, or with the next one if the two form an operator. -/
def symbolLexeme (c : Char) : List Char → Lexeme
  | d :: rest =>
    if isOperatorPair c d then ⟨.operator, [c, d], rest⟩ else ⟨symbolKind c, [c], d :: rest⟩
  | [] => ⟨symbolKind c, [c], []⟩

def colonLexeme : List Char → Lexeme
  | d :: rest =>
    if isParameterStart d then
      ⟨.parameter, ':' :: d :: rest.takeWhile isParameterChar, rest.dropWhile isParameterChar⟩
    else
      symbolLexeme ':' (d :: rest)
  | [] => symbolLexeme ':' []

/-- The lexeme that starts with `c`, a character that is not blank. A quote that is never closed is
    a lexeme by itself. -/
def lexeme (c : Char) (cs : List Char) : Lexeme :=
  if isWordStart c then wordLexeme c cs
  else if c.isDigit then numberLexeme c cs
  else if c == '\'' then
    match quoted? cs with
    | some (text, rest) => ⟨.string, text, rest⟩
    | none => ⟨.unknown, ['\''], cs⟩
  else if c == ':' then colonLexeme cs
  else if c == '?' then
    ⟨.parameter, '?' :: cs.takeWhile Char.isDigit, cs.dropWhile Char.isDigit⟩
  else symbolLexeme c cs

theorem fraction_suffix (cs : List Char) : (fraction cs).2 <:+ cs := by
  unfold fraction
  split
  · split
    · exact (List.dropWhile_suffix _).trans ((List.suffix_cons _ _).trans (List.suffix_cons _ _))
    · exact List.suffix_refl _
  · exact List.suffix_refl _

theorem exponentSign_suffix (cs : List Char) : (exponentSign cs).2 <:+ cs := by
  unfold exponentSign
  split
  · exact List.suffix_cons _ _
  · exact List.suffix_cons _ _
  · exact List.suffix_refl _

theorem exponent_suffix (cs : List Char) : (exponent cs).2 <:+ cs := by
  unfold exponent
  split
  · split
    · simp only
      split
      · exact List.suffix_refl _
      · exact (List.dropWhile_suffix _).trans
          ((exponentSign_suffix _).trans (List.suffix_cons _ _))
    · exact List.suffix_refl _
  · exact List.suffix_refl _

theorem quoted?_suffix {cs text rest} (h : quoted? cs = some (text, rest)) : rest <:+ cs := by
  fun_induction quoted? cs generalizing text rest with
  | case1 => simp at h
  | case2 tail ih =>
    obtain ⟨⟨inner, after⟩, found, same⟩ := Option.map_eq_some_iff.mp h
    cases same
    exact (ih found).trans ((List.suffix_cons _ _).trans (List.suffix_cons _ _))
  | case3 c tail _ closing =>
    cases h
    exact List.suffix_cons _ _
  | case4 c tail _ open_ ih =>
    obtain ⟨⟨inner, after⟩, found, same⟩ := Option.map_eq_some_iff.mp h
    cases same
    exact (ih found).trans (List.suffix_cons _ _)

theorem symbolLexeme_suffix (c : Char) (cs : List Char) : (symbolLexeme c cs).rest <:+ cs := by
  unfold symbolLexeme
  split
  · split
    · exact List.suffix_cons _ _
    · exact List.suffix_refl _
  · exact List.suffix_refl _

/-- What follows a lexeme is the end of what followed its first character. -/
theorem lexeme_suffix (c : Char) (cs : List Char) : (lexeme c cs).rest <:+ cs := by
  unfold lexeme
  split
  · exact List.dropWhile_suffix _
  split
  · exact (exponent_suffix _).trans ((fraction_suffix _).trans (List.dropWhile_suffix _))
  split
  · split
    · exact quoted?_suffix ‹_›
    · exact List.suffix_refl _
  split
  · unfold colonLexeme
    split
    · split
      · exact (List.dropWhile_suffix _).trans (List.suffix_cons _ _)
      · exact symbolLexeme_suffix _ _
    · exact List.suffix_refl _
  split
  · exact List.dropWhile_suffix _
  · exact symbolLexeme_suffix _ _

def byteSize : List Char → Nat
  | [] => 0
  | c :: cs => c.utf8Size + byteSize cs

def doubleQuotes : List Char → List Char
  | [] => []
  | c :: cs => if c == '\'' then '\'' :: '\'' :: doubleQuotes cs else c :: doubleQuotes cs

/-- The characters that a token with this kind and text is read from. -/
def sourceOf (kind : TokenKind) (value : List Char) : List Char :=
  match kind with
  | .string => '\'' :: doubleQuotes value ++ ['\'']
  | _ => value

namespace Token

def source (t : Token) : List Char :=
  sourceOf t.kind t.value.toList

/-- The tokens of `cs`, the first character of which stands at byte `position`. -/
def scanFrom (position : Nat) : List Char → List Token
  | [] => []
  | c :: cs =>
    if Text.isAsciiBlank c then
      scanFrom (position + 1) cs
    else
      let found := lexeme c cs
      ⟨found.kind, String.ofList found.value, position⟩ ::
        scanFrom (position + (byteSize (c :: cs) - byteSize found.rest)) found.rest
termination_by cs => cs.length
decreasing_by
  · simp
  · have := (lexeme_suffix c cs).length_le
    simp only [List.length_cons]
    omega

def scan (text : String) : List Token :=
  scanFrom 0 text.toList

end Token

end EntityAudit.Query
