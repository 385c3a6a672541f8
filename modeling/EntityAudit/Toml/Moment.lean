/-! # TOML points in time

A day, a time of day, or both; with both there may be a distance to universal time.
-/

namespace EntityAudit.Toml

/-- A number of exactly `count` digits at the start, and what follows it. -/
def readDigits (count : Nat) (cs : List Char) : Option (Nat × List Char) :=
  let (digits, rest) := cs.span Char.isDigit
  if digits.length == count then
    some (digits.foldl (fun n c => 10 * n + (c.toNat - '0'.toNat)) 0, rest)
  else
    none

def readPair (mark : Char) (cs : List Char) : Option (Nat × Nat × List Char) := do
  let (first, rest) ← readDigits 2 cs
  guard (rest.head? == some mark)
  let (second, rest) ← readDigits 2 (rest.drop 1)
  return (first, second, rest)

def daysOf (year month : Nat) : Nat :=
  if month == 2 then
    if year % 4 == 0 && (year % 100 != 0 || year % 400 == 0) then 29 else 28
  else if month == 4 || month == 6 || month == 9 || month == 11 then 30
  else 31

def afterDay? (cs : List Char) : Option (List Char) := do
  let (year, rest) ← readDigits 4 cs
  guard (rest.head? == some '-')
  let (month, day, rest) ← readPair '-' (rest.drop 1)
  guard (1 ≤ month && month ≤ 12 && 1 ≤ day && day ≤ daysOf year month)
  return rest

/-- What follows the seconds and their fraction, both of which may be missing. -/
def afterSeconds? : List Char → Option (List Char)
  | ':' :: rest => do
    let (second, rest) ← readDigits 2 rest
    guard (second ≤ 60)
    match rest with
    | '.' :: rest =>
      guard (rest.head?.any Char.isDigit)
      return rest.dropWhile Char.isDigit
    | rest => return rest
  | cs => some cs

def afterMinutes? (cs : List Char) : Option (List Char) := do
  let (hour, minute, rest) ← readPair ':' cs
  guard (hour ≤ 23 && minute ≤ 59)
  return rest

def afterTime? (cs : List Char) : Option (List Char) :=
  (afterMinutes? cs).bind afterSeconds?

def afterOffset? : List Char → Option (List Char)
  | 'Z' :: rest | 'z' :: rest => some rest
  | '+' :: rest | '-' :: rest => afterMinutes? rest
  | cs => some cs

def isMoment (cs : List Char) : Bool :=
  match afterDay? cs with
  | some [] => true
  | some (c :: rest) =>
    (c == 'T' || c == 't' || c == ' ') && (afterTime? rest).bind afterOffset? == some []
  | none => afterTime? cs == some []

end EntityAudit.Toml
