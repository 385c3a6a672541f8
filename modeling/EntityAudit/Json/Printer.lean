import EntityAudit.Json.Value

/-! # Printing JSON

Values are laid out one member or item per line, indented by two spaces for each level. Texts are
quoted with the shortest escapes; only quotes, backslashes and control characters are escaped.
-/

namespace EntityAudit.Json

def hexDigit (n : Nat) : Char :=
  if n < 10 then Char.ofNat ('0'.toNat + n) else Char.ofNat ('a'.toNat + (n - 10))

def escape (c : Char) : List Char :=
  match c with
  | '"' => ['\\', '"']
  | '\\' => ['\\', '\\']
  | '\x08' => ['\\', 'b']
  | '\x0c' => ['\\', 'f']
  | '\n' => ['\\', 'n']
  | '\r' => ['\\', 'r']
  | '\t' => ['\\', 't']
  | c =>
    if c.toNat < 0x20 then
      ['\\', 'u', '0', '0', hexDigit (c.toNat / 16), hexDigit (c.toNat % 16)]
    else
      [c]

def quote (s : String) : String :=
  "\"" ++ String.ofList (s.toList.flatMap escape) ++ "\""

def indent (level : Nat) : String :=
  String.ofList (List.replicate (2 * level) ' ')

def block (opening closing : String) (level : Nat) : List String → String
  | [] => opening ++ closing
  | parts =>
    opening ++ "\n" ++ ",\n".intercalate (parts.map (indent (level + 1) ++ ·)) ++ "\n" ++
      indent level ++ closing

mutual
def layout (level : Nat) : Json → String
  | .null => "null"
  | .bool true => "true"
  | .bool false => "false"
  | .number digits => digits
  | .string value => quote value
  | .array items => block "[" "]" level (layoutItems (level + 1) items)
  | .object members => block "\x7b" "\x7d" level (layoutMembers (level + 1) members)

def layoutItems (level : Nat) : List Json → List String
  | [] => []
  | item :: items => layout level item :: layoutItems level items

def layoutMembers (level : Nat) : List (String × Json) → List String
  | [] => []
  | (key, value) :: members =>
    (quote key ++ ": " ++ layout level value) :: layoutMembers level members
end

def pretty (value : Json) : String :=
  layout 0 value

end EntityAudit.Json
