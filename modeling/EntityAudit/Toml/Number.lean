import EntityAudit.Json.Reader

/-! # TOML numbers

Which characters make up a number. The value of a number is of no interest, so only its form is
checked.
-/

namespace EntityAudit.Toml

def unsigned : List Char → List Char
  | '+' :: rest | '-' :: rest => rest
  | cs => cs

/-- Whether every underscore has a digit right before it and right after it. `before` says whether a
    digit stands right before the characters. -/
def isDividedAfter (isDigit : Char → Bool) : (before : Bool) → List Char → Bool
  | _, [] => true
  | before, '_' :: rest => before && rest.head?.any isDigit && isDividedAfter isDigit false rest
  | _, c :: rest => isDividedAfter isDigit (isDigit c) rest

/-- Whether every underscore of a number without its sign stands between two digits. -/
def isDivided (isDigit : Char → Bool) (cs : List Char) : Bool :=
  isDividedAfter isDigit false cs

def isHexDigit (c : Char) : Bool :=
  (Json.hexDigit? c).isSome

def isOctalDigit (c : Char) : Bool :=
  '0' ≤ c && c ≤ '7'

def isBinaryDigit (c : Char) : Bool :=
  c == '0' || c == '1'

/-- Whether the characters are digits, possibly none, divided by underscores. -/
def areDigits (isDigit : Char → Bool) (cs : List Char) : Bool :=
  cs.all (fun c => isDigit c || c == '_') && isDivided isDigit cs

/-- The characters after the digits of a number that keep it from being an integer. -/
def isForeign (c : Char) : Bool :=
  c == ' ' || c == '.' || c == 'e' || c == 'E'

/-- Whether the characters make up an integer in base ten: digits without a needless leading zero,
    or such digits and more parts after underscores. Each underscore stands between two digits of
    any base. -/
def isDecimal (cs : List Char) : Bool :=
  let digits := unsigned cs
  match digits.dropWhile Char.isDigit with
  | [] => digits.length == 1 || digits.head?.any (· != '0')
  | '_' :: parts =>
    digits.head? != some '0' && !parts.any isForeign && isDivided isHexDigit digits
  | _ => false

def isInteger : List Char → Bool
  | '0' :: 'x' :: digits => areDigits isHexDigit digits
  | '0' :: 'o' :: digits => areDigits isOctalDigit digits
  | '0' :: 'b' :: digits => areDigits isBinaryDigit digits
  | cs => isDecimal cs

/-- Digits and underscores at the start, among them at least one digit, and what follows them. -/
def spanDigits? (cs : List Char) : Option (List Char × List Char) :=
  let (run, rest) := cs.span fun c => c.isDigit || c == '_'
  if run.any Char.isDigit then some (run, rest) else none

/-- What follows the digits in front of a point, which have no needless leading zero. -/
def afterWhole? (cs : List Char) : Option (List Char) := do
  let (run, rest) ← spanDigits? cs
  guard (run.head? != some '0' || run.countP Char.isDigit == 1)
  return rest

def afterPlaces? : List Char → Option (List Char)
  | '.' :: rest => (spanDigits? rest).map (·.2)
  | cs => some cs

def afterExponent? : List Char → Option (List Char)
  | 'e' :: rest | 'E' :: rest => (spanDigits? (unsigned rest)).map (·.2)
  | cs => some cs

/-- Whether the characters make up a number with a fraction, an exponent, or both. -/
def isFraction (cs : List Char) : Bool :=
  let digits := unsigned cs
  digits.any (fun c => c == '.' || c == 'e' || c == 'E') &&
    ((afterWhole? digits).bind afterPlaces?).bind afterExponent? == some [] &&
    isDivided Char.isDigit digits

/-- Whether the characters make up a value that is not a finite number. -/
def isSpecial (cs : List Char) : Bool :=
  let name := unsigned cs
  name == ['i', 'n', 'f'] || name == ['n', 'a', 'n']

def isNumber (cs : List Char) : Bool :=
  isInteger cs || isFraction cs || isSpecial cs

end EntityAudit.Toml
