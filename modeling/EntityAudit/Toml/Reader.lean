import EntityAudit.Toml.Document
import EntityAudit.Toml.Moment
import EntityAudit.Toml.Number
import EntityAudit.Toml.Quoted

/-! # Reading TOML

A reader for TOML documents: comments, keys of all kinds, headers, texts, truth values, numbers,
points in time, arrays and inline tables. Arrays and inline tables are nested up to a limit.
-/

namespace EntityAudit.Toml

/-- What is left after blanks, line ends and comments; none if a comment holds a character it must
    not. -/
def skipGaps (inComment : Bool) : List Char → Option (List Char)
  | [] => some []
  | '\n' :: rest => skipGaps false rest
  | '\r' :: '\n' :: rest => skipGaps false rest
  | c :: rest =>
    if inComment then
      if isPrintable c then skipGaps true rest else none
    else if isGap c then skipGaps false rest
    else if c == '#' then skipGaps true rest
    else some (c :: rest)

/-- What is left after the end of the line, before which only blanks and a comment may stand. -/
def endLine (inComment : Bool) : List Char → Option (List Char)
  | [] => some []
  | '\n' :: rest => some rest
  | '\r' :: '\n' :: rest => some rest
  | c :: rest =>
    if inComment then
      if isPrintable c then endLine true rest else none
    else if isGap c then endLine false rest
    else if c == '#' then endLine true rest
    else none

def skipBlanks (cs : List Char) : List Char :=
  cs.dropWhile isGap

def isKeyChar (c : Char) : Bool :=
  c.isAlphanum || c == '_' || c == '-'

def readKeyPart : List Char → Option (String × List Char)
  | '"' :: rest => (readBasic (rest.length + 1) rest).map fun (cs, rest) => (.ofList cs, rest)
  | '\'' :: rest => (readLiteral rest).map fun (cs, rest) => (.ofList cs, rest)
  | cs =>
    match cs.span isKeyChar with
    | ([], _) => none
    | (part, rest) => some (.ofList part, rest)

/-- A key with all its parts, and what follows it and the blanks after it. -/
def readKey : (fuel : Nat) → List Char → Option (List String × List Char)
  | 0, _ => none
  | fuel + 1, cs => do
    let (part, rest) ← readKeyPart cs
    match skipBlanks rest with
    | '.' :: rest => do
      let (parts, rest) ← readKey fuel (skipBlanks rest)
      return (part :: parts, rest)
    | rest => return ([part], rest)

/-- The characters that end a value without quotes, apart from blanks and dots. -/
def isMark (c : Char) : Bool :=
  c == '=' || c == ',' || c == '[' || c == ']' || c == '{' || c == '}' || c == '#' || c == '\r' ||
    c == '\n'

/-- The characters of a value without quotes, and what follows it and the blanks after it. It is
    made of words and dots. A word may follow `blanks`, a dot may not; a quote may stand in a word,
    but not start one, and `inWord` says which of the two it would do. -/
def spanPlain (inWord : Bool) (blanks : List Char) : List Char → List Char × List Char
  | [] => ([], [])
  | c :: rest =>
    if isGap c then spanPlain false (blanks ++ [c]) rest
    else if c == '.' && blanks.isEmpty then consText c (spanPlain false [] rest)
    else if c == '.' || isMark c || (!inWord && (c == '"' || c == '\'')) then ([], c :: rest)
    else
      let (word, rest) := spanPlain true [] rest
      (blanks ++ c :: word, rest)

def ofPlain? (cs : List Char) : Option Toml :=
  if cs == ['t', 'r', 'u', 'e'] then some (.bool true)
  else if cs == ['f', 'a', 'l', 's', 'e'] then some (.bool false)
  else if isNumber cs then some (.number (.ofList cs))
  else if isMoment cs then some (.moment (.ofList cs))
  else none

/-- A value without quotes, and what follows it and the blanks after it. -/
def readPlain (cs : List Char) : Option (Toml × List Char) :=
  let (plain, rest) := spanPlain false [] cs
  (ofPlain? plain).map (·, rest)

/-- The items of an array up to its closing bracket, each read by `value`; a comma may follow the
    last one. -/
def readItems (value : List Char → Option (Toml × List Char)) :
    (fuel : Nat) → List Char → Option (List Toml × List Char)
  | 0, _ => none
  | fuel + 1, cs => do
    match ← skipGaps false cs with
    | ']' :: rest => return ([], rest)
    | cs =>
      let (item, rest) ← value cs
      match ← skipGaps false rest with
      | ',' :: rest =>
        let (items, rest) ← readItems value fuel rest
        return (item :: items, rest)
      | ']' :: rest => return ([item], rest)
      | _ => none

/-- The entries of an inline table up to its closing bracket, after those read before, with values
    read by `value`; a comma may follow the last one. Line ends and comments may stand anywhere but
    inside a key. -/
def readEntries (value : List Char → Option (Toml × List Char)) :
    (fuel : Nat) → Dict Toml → List Char → Option (Dict Toml × List Char)
  | 0, _, _ => none
  | fuel + 1, entries, cs => do
    match ← skipGaps false cs with
    | '}' :: rest => return (entries, rest)
    | cs =>
      let (path, rest) ← readKey (cs.length + 1) cs
      match ← skipGaps false rest with
      | '=' :: rest =>
        let (item, rest) ← value (← skipGaps false rest)
        let entries ← assign item path entries
        match ← skipGaps false rest with
        | ',' :: rest => readEntries value fuel entries rest
        | '}' :: rest => return (entries, rest)
        | _ => none
      | _ => none

/-- A value and what follows it. Arrays and inline tables may be nested `depth` levels deep. -/
def readValue : (depth : Nat) → List Char → Option (Toml × List Char)
  | _, '"' :: rest => (readText ('"' :: rest)).map fun (value, rest) => (.text value, rest)
  | _, '\'' :: rest => (readText ('\'' :: rest)).map fun (value, rest) => (.text value, rest)
  | depth + 1, '[' :: rest =>
    (readItems (readValue depth) (rest.length + 1) rest).map fun (items, rest) =>
      (.array items, rest)
  | depth + 1, '{' :: rest =>
    (readEntries (readValue depth) (rest.length + 1) [] rest).map fun (entries, rest) =>
      (.table .inline entries, rest)
  | _, cs => readPlain cs

def nestingLimit : Nat := 80

def readLine (cs : List Char) : Option (Line × List Char) :=
  match cs with
  | '[' :: '[' :: rest => do
    let (path, rest) ← readKey (rest.length + 1) (skipBlanks rest)
    match rest with
    | ']' :: ']' :: rest => return (.item path, ← endLine false rest)
    | _ => none
  | '[' :: rest => do
    let (path, rest) ← readKey (rest.length + 1) (skipBlanks rest)
    match rest with
    | ']' :: rest => return (.header path, ← endLine false rest)
    | _ => none
  | cs => do
    let (path, rest) ← readKey (cs.length + 1) cs
    match rest with
    | '=' :: rest =>
      let (value, rest) ← readValue nestingLimit (skipBlanks rest)
      return (.assign path value, ← endLine false rest)
    | _ => none

def readLines : (fuel : Nat) → List Char → Option (List Line)
  | 0, _ => none
  | fuel + 1, cs => do
    match ← skipGaps false cs with
    | [] => return []
    | cs =>
      let (line, rest) ← readLine cs
      return line :: (← readLines fuel rest)

def dropMark : List Char → List Char
  | c :: cs => if c.toNat = 0xfeff then cs else c :: cs
  | [] => []

def ofText? (text : String) : Option (Dict Toml) := do
  let cs := dropMark text.toList
  ofLines? (← readLines (cs.length + 1) cs)

end EntityAudit.Toml
