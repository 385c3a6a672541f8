import EntityAudit.Json.Reader

/-! # TOML texts

Texts come in four kinds: with or without escapes, on one line or on several. Control characters
other than the tab are not allowed in them.
-/

namespace EntityAudit.Toml

/-- Space and tab. -/
def isGap (c : Char) : Bool :=
  c == ' ' || c == '\t'

/-- The characters that texts and comments may hold: no control characters but the tab. -/
def isPrintable (c : Char) : Bool :=
  c == '\t' || (0x20 ≤ c.toNat && c.toNat != 0x7f)

def simpleEscape? : Char → Option Char
  | '"' => some '"'
  | '\\' => some '\\'
  | 'b' => some '\x08'
  | 'e' => some '\x1b'
  | 'f' => some '\x0c'
  | 'n' => some '\n'
  | 'r' => some '\r'
  | 't' => some '\t'
  | _ => none

/-- The character with the code point that hexadecimal digits give. -/
def codePoint? (digits : List Char) : Option Char := do
  let n ← Json.hexValue? digits
  guard n.isValidChar
  return Char.ofNat n

/-- The character of an escape after its backslash, and what follows it. -/
def readEscape : List Char → Option (Char × List Char)
  | 'x' :: a :: b :: rest => (codePoint? [a, b]).map (·, rest)
  | 'u' :: a :: b :: c :: d :: rest => (codePoint? [a, b, c, d]).map (·, rest)
  | 'U' :: a :: b :: c :: d :: e :: f :: g :: h :: rest =>
    (codePoint? [a, b, c, d, e, f, g, h]).map (·, rest)
  | c :: rest => (simpleEscape? c).map (·, rest)
  | [] => none

def consText (c : Char) (read : List Char × List Char) : List Char × List Char :=
  (c :: read.1, read.2)

/-- A text with escapes, up to its closing quote, and what follows the quote. -/
def readBasic : (fuel : Nat) → List Char → Option (List Char × List Char)
  | 0, _ => none
  | _ + 1, [] => none
  | _ + 1, '"' :: rest => some ([], rest)
  | fuel + 1, '\\' :: rest => do
    let (c, rest) ← readEscape rest
    return consText c (← readBasic fuel rest)
  | fuel + 1, c :: rest =>
    if isPrintable c then (readBasic fuel rest).map (consText c) else none

/-- A text without escapes, up to its closing quote, and what follows the quote. -/
def readLiteral : List Char → Option (List Char × List Char)
  | [] => none
  | '\'' :: rest => some ([], rest)
  | c :: rest => if isPrintable c then (readLiteral rest).map (consText c) else none

/-- What an escaped line end leaves out. -/
inductive LineSkip where
  | none
  /-- Blanks up to the line end, which must come next. -/
  | toLineEnd
  | blanks
  deriving DecidableEq

/-- A text with escapes on several lines, up to its three closing quotes, and what follows them. Up
    to two more quotes before those belong to the text. -/
def readMultiBasic : (fuel : Nat) → LineSkip → List Char → Option (List Char × List Char)
  | 0, _, _ => none
  | _ + 1, _, [] => none
  | fuel + 1, .toLineEnd, '\n' :: rest => readMultiBasic fuel .blanks rest
  | fuel + 1, .toLineEnd, '\r' :: '\n' :: rest => readMultiBasic fuel .blanks rest
  | fuel + 1, .toLineEnd, c :: rest =>
    if isGap c then readMultiBasic fuel .toLineEnd rest else Option.none
  | fuel + 1, .blanks, '\n' :: rest => readMultiBasic fuel .blanks rest
  | fuel + 1, .blanks, '\r' :: '\n' :: rest => readMultiBasic fuel .blanks rest
  | fuel + 1, .blanks, c :: rest =>
    if isGap c then readMultiBasic fuel .blanks rest else readMultiBasic fuel .none (c :: rest)
  | _ + 1, .none, '"' :: '"' :: '"' :: '"' :: '"' :: rest => some (['"', '"'], rest)
  | _ + 1, .none, '"' :: '"' :: '"' :: '"' :: rest => some (['"'], rest)
  | _ + 1, .none, '"' :: '"' :: '"' :: rest => some ([], rest)
  | fuel + 1, .none, '\n' :: rest => (readMultiBasic fuel .none rest).map (consText '\n')
  | fuel + 1, .none, '\r' :: '\n' :: rest =>
    (readMultiBasic fuel .none rest).map (consText '\r' ∘ consText '\n')
  | fuel + 1, .none, '\\' :: rest =>
    match rest with
    | ' ' :: _ | '\t' :: _ | '\n' :: _ | '\r' :: _ => readMultiBasic fuel .toLineEnd rest
    | _ => do
      let (c, rest) ← readEscape rest
      return consText c (← readMultiBasic fuel .none rest)
  | fuel + 1, .none, c :: rest =>
    if isPrintable c then (readMultiBasic fuel .none rest).map (consText c) else Option.none

/-- A text without escapes on several lines, up to its three closing quotes, and what follows them.
    Up to two more quotes before those belong to the text. -/
def readMultiLiteral : List Char → Option (List Char × List Char)
  | [] => none
  | '\'' :: '\'' :: '\'' :: '\'' :: '\'' :: rest => some (['\'', '\''], rest)
  | '\'' :: '\'' :: '\'' :: '\'' :: rest => some (['\''], rest)
  | '\'' :: '\'' :: '\'' :: rest => some ([], rest)
  | '\n' :: rest => (readMultiLiteral rest).map (consText '\n')
  | '\r' :: '\n' :: rest => (readMultiLiteral rest).map (consText '\r' ∘ consText '\n')
  | c :: rest => if isPrintable c then (readMultiLiteral rest).map (consText c) else none

/-- A text on several lines without the line end that directly follows its opening quotes. -/
def dropFirstLineEnd : List Char → List Char
  | '\n' :: rest => rest
  | '\r' :: '\n' :: rest => rest
  | cs => cs

def readText : List Char → Option (String × List Char)
  | '"' :: '"' :: '"' :: rest =>
    asText (readMultiBasic (2 * rest.length + 1) .none (dropFirstLineEnd rest))
  | '"' :: rest => asText (readBasic (rest.length + 1) rest)
  | '\'' :: '\'' :: '\'' :: rest => asText (readMultiLiteral (dropFirstLineEnd rest))
  | '\'' :: rest => asText (readLiteral rest)
  | _ => none
where
  asText (read : Option (List Char × List Char)) : Option (String × List Char) :=
    read.map fun (cs, rest) => (.ofList cs, rest)

end EntityAudit.Toml
