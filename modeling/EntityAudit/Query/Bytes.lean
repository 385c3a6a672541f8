import EntityAudit.Query.Token

/-! # Scanning by bytes

The same scan as a loop over an index into the UTF-8 form of the text. A byte is looked at as the
character with its number, and a slice fails if an end of it is no boundary between characters. Of a
loop that does not end nothing comes, as of a slice that fails.
-/

namespace EntityAudit.Query.Bytes

variable (text : String)

/-- There is a byte at `i` that passes the test. -/
def sees (test : Char → Bool) (i : Nat) : Bool :=
  if inside : (⟨i⟩ : String.Pos.Raw) < text.rawEndPos then
    test (.ofNat (text.getUTF8Byte ⟨i⟩ inside).toNat)
  else
    false

/-- The characters from byte `start` up to byte `stop`. -/
def slice? (start stop : Nat) : Option String :=
  if valid : String.Pos.Raw.IsValid text ⟨start⟩ ∧ String.Pos.Raw.IsValid text ⟨stop⟩ ∧
      start ≤ stop then
    some (text.extract ⟨⟨start⟩, valid.1⟩ ⟨⟨stop⟩, valid.2.1⟩)
  else
    none

theorem lt_of_sees {test i} (seen : sees text test i = true) : i < text.utf8ByteSize := by
  rw [sees] at seen
  split at seen
  next inside => exact inside
  next => cases seen

/-- The first byte from `i` on that does not pass the test. -/
def skipWhile (test : Char → Bool) (i : Nat) : Nat :=
  if seen : sees text test i then
    have := lt_of_sees text seen
    skipWhile test (i + 1)
  else
    i
termination_by text.utf8ByteSize - i

/-- What was read, and the byte after it. -/
structure Found where
  kind : TokenKind
  value : String
  next : Nat

/-- The end of a fraction at `i`, if there is one. -/
def fraction (i : Nat) : TokenKind × Nat :=
  if sees text (· == '.') i && sees text Char.isDigit (i + 1) then
    (.float, skipWhile text Char.isDigit (i + 1))
  else
    (.integer, i)

/-- The end of an exponent at `i`, if there is one, of a number of that kind so far. -/
def exponent (kind : TokenKind) (i : Nat) : TokenKind × Nat :=
  if sees text (fun c => c == 'e' || c == 'E') i then
    let j := i + 1
    let digits := if sees text (fun c => c == '+' || c == '-') j then j + 1 else j
    if sees text Char.isDigit digits then
      (.float, skipWhile text Char.isDigit digits)
    else
      (kind, i)
  else
    (kind, i)

/-- What follows an opening quote: the text that it opens and the byte after the closing quote,
    unless there is none. Bytes from `chunk` on are still to be added to `value`. -/
def quoted (value : String) (chunk i : Nat) : Option (Option (String × Nat)) :=
  if i < text.utf8ByteSize then
    if sees text (· == '\'') i then do
      let value := value ++ (← slice? text chunk i)
      if sees text (· == '\'') (i + 1) then
        quoted (value.push '\'') (i + 2) (i + 2)
      else
        return some (value, i + 1)
    else
      quoted value chunk (i + 1)
  else
    some none
termination_by text.utf8ByteSize - i

def symbol (i : Nat) : Option Found :=
  let pair := (slice? text i (i + 2)).getD ""
  if ["<>", "<=", ">=", "!="].contains pair then
    some ⟨.operator, pair, i + 2⟩
  else do
    let c := (← slice? text i text.utf8ByteSize).toList.head?.getD '?'
    return ⟨symbolKind c, c.toString, i + c.utf8Size⟩

/-- The lexeme that starts at a byte that is not blank. -/
def lexeme (start : Nat) : Option Found :=
  if sees text isWordStart start then do
    let i := skipWhile text isWordChar (start + 1)
    let word ← slice? text start i
    return ⟨if word.toList.contains '\\' then .qualifiedName else .identifier, word, i⟩
  else if sees text Char.isDigit start then do
    let (kind, i) := fraction text (skipWhile text Char.isDigit start)
    let (kind, i) := exponent text kind i
    return ⟨kind, ← slice? text start i, i⟩
  else if sees text (· == '\'') start then do
    match ← quoted text "" (start + 1) (start + 1) with
    | some (value, i) => return ⟨.string, value, i⟩
    | none => return ⟨.unknown, "'", start + 1⟩
  else if sees text (· == ':') start && sees text isParameterStart (start + 1) then do
    let i := skipWhile text isParameterChar (start + 1)
    return ⟨.parameter, ← slice? text start i, i⟩
  else if sees text (· == '?') start then do
    let i := skipWhile text Char.isDigit (start + 1)
    return ⟨.parameter, ← slice? text start i, i⟩
  else
    symbol text start

def scanFrom (i : Nat) : Option (List Token) :=
  if i < text.utf8ByteSize then
    if sees text Text.isAsciiBlank i then
      scanFrom (i + 1)
    else do
      let found ← lexeme text i
      -- a lexeme of no bytes would be read for ever
      if i < found.next then
        return ⟨found.kind, found.value, i⟩ :: (← scanFrom found.next)
      else
        none
  else
    some []
termination_by text.utf8ByteSize - i

def scan : Option (List Token) :=
  scanFrom text 0

end EntityAudit.Query.Bytes
