import EntityAudit.Text.Fold
import EntityAudit.Text.Occurs

/-! # Conditions under construction

A query builder keeps a condition as a tree of texts under `AND` and `OR`. Calls of one connective
in a row extend the same node. A part is written in parentheses when it would otherwise read
differently.
-/

namespace EntityAudit

inductive Connective where
  | and
  | or
  deriving DecidableEq

def Connective.separator : Connective → String
  | .and => " AND "
  | .or => " OR "

inductive Condition where
  | text (value : String)
  | compound (connective : Connective) (parts : List Condition)
  deriving Inhabited

namespace Condition

def isEmpty : Condition → Bool
  | .compound _ [] => true
  | _ => false

/-- Several conditions under a connective, the empty ones left out. -/
def ofParts (connective : Connective) (parts : List Condition) : Condition :=
  .compound connective (parts.filter (!·.isEmpty))

def extend (connective : Connective) (condition : Option Condition) (added : List Condition) :
    Condition :=
  match condition with
  | none => ofParts connective added
  | some (.compound same parts) =>
    if same = connective then ofParts connective (parts ++ added)
    else ofParts connective (.compound same parts :: added)
  | some (.text value) => ofParts connective (.text value :: added)

def mentionsConnective (text : String) : Bool :=
  let upper := (Text.raiseCase text).toList
  Text.occursIn Connective.or.separator.toList upper ||
    Text.occursIn Connective.and.separator.toList upper

/-- A part of a condition as it is written among others, given its text. -/
def nested (part : Condition) (text : String) : String :=
  let hasParts := match part with
    | .compound _ parts => parts.length > 1
    | .text _ => false
  if hasParts || mentionsConnective text then "(" ++ text ++ ")" else text

/-- Several parts, given their texts; a single one stands for itself. -/
def joined (connective : Connective) (parts : List Condition) : List String → String
  | [single] => single
  | texts => connective.separator.intercalate (List.zipWith nested parts texts)

mutual
def render : Condition → String
  | .text value => value
  | .compound connective parts => joined connective parts (renderAll parts)

def renderAll : List Condition → List String
  | [] => []
  | part :: parts => render part :: renderAll parts
end

end Condition

end EntityAudit
