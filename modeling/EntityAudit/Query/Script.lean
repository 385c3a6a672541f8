import EntityAudit.Text.Blank

/-! # Scripts of statements

A script holds statements divided by semicolons. Semicolons inside quotes do not divide, and blank
statements do not count.
-/

namespace EntityAudit.Query

/-- The pieces of a script between its semicolons, in order and as they are written. -/
def scriptPieces (inText : Bool) : List Char → List (List Char)
  | [] => [[]]
  | c :: cs =>
    if c == ';' && !inText then
      [] :: scriptPieces inText cs
    else
      match scriptPieces (inText != (c == '\'')) cs with
      | piece :: pieces => (c :: piece) :: pieces
      | [] => [[c]]

/-- The statements of a script, without blank characters around them. -/
def splitScript (text : String) : List String :=
  (scriptPieces false text.toList).filterMap fun piece =>
    let trimmed := Text.trimChars piece
    if trimmed.isEmpty then none else some (String.ofList trimmed)

end EntityAudit.Query
