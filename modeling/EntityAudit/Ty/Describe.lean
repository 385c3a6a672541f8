import EntityAudit.Ty.Basic

/-! # Types as text

How diagnostics write a type. Literals are written either as their kind or as their value.
-/

namespace EntityAudit.Ty

inductive Detail where
  | kind
  | value
  deriving DecidableEq

/-- `name` with its arguments in angle brackets, or alone when there are none. -/
def applied (name : String) : List String → String
  | [] => name
  | args => name ++ "<" ++ ", ".intercalate args ++ ">"

/-- A container of keys and values; `mixed` keys are left out, and so are `mixed` values after
    them. -/
def describePair (name : String) (key value : Ty) (keyText valueText : String) : String :=
  match key, value with
  | .mixed, .mixed => name
  | .mixed, _ => applied name [valueText]
  | _, _ => applied name [keyText, valueText]

def grouped : Ty → String → String
  | .union _, text => "(" ++ text ++ ")"
  | _, text => text

mutual
def describe (detail : Detail) : Ty → String
  | .mixed => "mixed"
  | .null => "null"
  | .bool => "bool"
  | .int => "int"
  | .float => "float"
  | .string => "string"
  | .constBool b =>
    match detail with
    | .kind => "bool"
    | .value => if b then "true" else "false"
  | .constInt i =>
    match detail with
    | .kind => "int"
    | .value => toString i.toInt
  | .constString s =>
    match detail with
    | .kind => "string"
    | .value => "'" ++ s ++ "'"
  | .object name args => applied name (describeAll detail args)
  | .builder _ => queryBuilderClass
  | .iterable k v => describePair "iterable" k v (describe detail k) (describe detail v)
  | .array k v => describePair "array" k v (describe detail k) (describe detail v)
  | .constArray entries =>
    match detail with
    | .kind => "array"
    | .value => "array\x7b" ++ ", ".intercalate (describeEntries detail entries) ++ "\x7d"
  | .union ms =>
    let parts := (describeNonNull detail ms).eraseDups
    "|".intercalate (if ms.contains .null then parts ++ ["null"] else parts)
  | .intersection ms => "&".intercalate (describeFactors detail ms)
  | .template name => name

def describeAll (detail : Detail) : List Ty → List String
  | [] => []
  | t :: ts => describe detail t :: describeAll detail ts

def describeNonNull (detail : Detail) : List Ty → List String
  | [] => []
  | .null :: ts => describeNonNull detail ts
  | t :: ts => describe detail t :: describeNonNull detail ts

def describeFactors (detail : Detail) : List Ty → List String
  | [] => []
  | t :: ts => grouped t (describe detail t) :: describeFactors detail ts

def describeEntries (detail : Detail) : List (Ty × Ty) → List String
  | [] => []
  | (k, v) :: es =>
    (describe detail k ++ ": " ++ describe detail v) :: describeEntries detail es
end

end EntityAudit.Ty
