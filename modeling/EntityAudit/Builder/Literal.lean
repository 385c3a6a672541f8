import EntityAudit.Ty.Basic

/-! # Literal arguments of builder calls

The text of a query is known only if every argument that shapes it is one of finitely many literals.
-/

namespace EntityAudit

inductive Literal where
  /-- A text. Integers count as their decimal form. -/
  | text (value : String)
  | null
  | bool (value : Bool)
  | list (items : List String)
  deriving DecidableEq

namespace Literal

def text? : Literal → Option String
  | .text value => some value
  | _ => none

def texts : Literal → List String
  | .text value => [value]
  | .list items => items
  | _ => []

def isTruthy : Literal → Bool
  | .null => false
  | .bool value => value
  | .text value => value != "" && value != "0"
  | .list items => !items.isEmpty

mutual
/-- The literals a type consists of; none when it holds other values too. -/
def choices? : Ty → Option (List Literal)
  | .null => some [.null]
  | .constBool value => some [.bool value]
  | .constString value => some [.text value]
  | .constInt value => some [.text (toString value.toInt)]
  | .constArray entries => ((entries.map (·.2)).mapM Ty.text?).map fun items => [.list items]
  | .union members => choicesOfAll? members
  | _ => none

def choicesOfAll? : List Ty → Option (List Literal)
  | [] => some []
  | t :: ts => do return (← choices? t) ++ (← choicesOfAll? ts)
end

end Literal

end EntityAudit
