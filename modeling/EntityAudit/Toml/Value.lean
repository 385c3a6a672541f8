import EntityAudit.Dict

/-! # TOML values

Tables remember how they came to be, because that decides whether a document may still add to them.
Numbers and points in time are kept as written.
-/

namespace EntityAudit

inductive TableOrigin where
  /-- A header inside it was met before one of its own. -/
  | implied
  | header
  /-- It stands before a dot in a key. -/
  | dotted
  | inline
  deriving DecidableEq

inductive Toml where
  | text (value : String)
  | bool (value : Bool)
  | number (digits : String)
  | moment (written : String)
  | array (items : List Toml)
  | table (origin : TableOrigin) (entries : List (String × Toml))
  | tables (items : List (List (String × Toml)))
  deriving Inhabited

end EntityAudit
