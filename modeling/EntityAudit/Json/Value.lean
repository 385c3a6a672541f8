/-! # JSON values

Objects keep their members in the order and number in which they are written, so that a repeated
key can be told from a single one. Numbers are kept as written.
-/

namespace EntityAudit

inductive Json where
  | null
  | bool (value : Bool)
  /-- A number, as written. -/
  | number (digits : String)
  | string (value : String)
  | array (items : List Json)
  | object (members : List (String × Json))
  deriving Inhabited

end EntityAudit
