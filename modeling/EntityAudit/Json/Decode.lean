import EntityAudit.Json.Reader

/-! # Decoding JSON

Decoders turn a JSON value into another value or say what is wrong with it. A record is written as
an object of its fields, or as an array of them in order, from which trailing ones may be missing.
-/

namespace EntityAudit.Json

inductive DecodeFault where
  | malformed
  | unexpected (wanted : String)
  | unknownField (name : String)
  | repeatedField (name : String)
  | missingField (name : String)
  /-- A record written as an array has too many items. -/
  | tooManyFields
  | unknownVariant (name : String)
  deriving DecidableEq

def DecodeFault.message : DecodeFault → String
  | .malformed => "malformed JSON"
  | .unexpected wanted => "expected " ++ wanted
  | .unknownField name => "unknown field " ++ quoted name
  | .repeatedField name => "repeated field " ++ quoted name
  | .missingField name => "missing field " ++ quoted name
  | .tooManyFields => "too many fields"
  | .unknownVariant name => "unknown variant " ++ quoted name
where
  quoted (name : String) : String := "\"" ++ name ++ "\""

/-- A way to read values of type `α` out of JSON values. -/
abbrev Decoder (α : Type) := Json → Except DecodeFault α

namespace Decoder

def text : Decoder String
  | .string value => .ok value
  | _ => .error (.unexpected "a text")

def flag : Decoder Bool
  | .bool value => .ok value
  | _ => .error (.unexpected "a truth value")

def list {α : Type} (item : Decoder α) : Decoder (List α)
  | .array items => items.mapM item
  | _ => .error (.unexpected "a list")

def nullable {α : Type} (inner : Decoder α) : Decoder (Option α)
  | .null => .ok none
  | value => some <$> inner value

/-- One of several named values: its name, or an object from its name to null. -/
def variant {α : Type} (variants : List (String × α)) : Decoder α
  | .string name | .object [(name, .null)] =>
    match variants.lookup name with
    | some value => .ok value
    | none => .error (.unknownVariant name)
  | _ => .error (.unexpected "a variant")

end Decoder

/-- The given values of a record's fields, by name. -/
abbrev Given := List (String × Json)

/-- The members of an object, each of which must be one of `names` and not given before. -/
def membersOf (names : List String) (seen : Given) : Given → Except DecodeFault Given
  | [] => .ok seen
  | (name, value) :: rest =>
    if !names.contains name then .error (.unknownField name)
    else if (seen.lookup name).isSome then .error (.repeatedField name)
    else membersOf names ((name, value) :: seen) rest

def fieldsOf (names : List String) : Decoder Given
  | .object members => membersOf names [] members
  | .array items =>
    if items.length ≤ names.length then .ok (names.zip items) else .error .tooManyFields
  | _ => .error (.unexpected "a record")

namespace Given

def required {α : Type} (given : Given) (name : String) (decoder : Decoder α) :
    Except DecodeFault α :=
  match given.lookup name with
  | some value => decoder value
  | none => .error (.missingField name)

def withDefault {α : Type} (given : Given) (name : String) (decoder : Decoder α) (default : α) :
    Except DecodeFault α :=
  match given.lookup name with
  | some value => decoder value
  | none => .ok default

end Given

def decodeText {α : Type} (decoder : Decoder α) (text : String) : Except DecodeFault α :=
  match ofText? text with
  | some value => decoder value
  | none => .error .malformed

end EntityAudit.Json
