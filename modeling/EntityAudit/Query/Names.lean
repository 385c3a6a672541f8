import EntityAudit.Mapping.Gateway
import EntityAudit.Query.Reading

/-! # Names in statements

Classes, aliases and join paths are resolved in reading order, which yields one table of aliases for
the whole statement, subselects included. Uses of aliases and of properties are judged against the
complete table.
-/

namespace EntityAudit.Query

inductive Component where
  | entity (record : EntityRecord)
  | result
  deriving DecidableEq

abbrev Aliases := Dict Component

def Aliases.record? (aliases : Aliases) (aliasName : String) : Option EntityRecord :=
  match aliases.get? aliasName with
  | some (.entity record) => some record
  | _ => none

inductive NameFault where
  | undefinedClass (name : String)
  | repeatedAlias (aliasName : String)
  /-- A join path starts at a name that stands for no class. -/
  | undefinedJoinRoot (aliasName : String)
  | noAssociation (className field : String)
  | undefinedAlias (aliasName : String)
  | notAClass (aliasName : String)
  /-- The path leads to a collection where a single value must stand. -/
  | collection
  | noProperty (className field : String)
  deriving DecidableEq

/-- Why the names of a statement cannot be resolved. -/
inductive NameFailure where
  /-- A name has no meaning; the token to point at, none for the end of the text. -/
  | fault (cause : NameFault) (found : Option Token)
  | lookup (failure : Failure)
  deriving DecidableEq

structure Resolved where
  aliases : Aliases := []
  /-- The record of the class mentioned last. -/
  subject : Option EntityRecord := none

/-- A resolution step; look-ups teach the gateway, whether the step succeeds or not. -/
abbrev Resolve := EStateM NameFailure Gateway

def Resolve.record? (className : String) : Resolve (Option EntityRecord) :=
  fun gateway =>
    match Gateway.record? className gateway with
    | .ok record gateway => .ok record gateway
    | .error failure gateway => .error (.lookup failure) gateway

/-- Declare the alias in `token`, which must be new. -/
def Resolved.declare (r : Resolved) (token : Token) (component : Component) : Resolve Resolved :=
  if r.aliases.has token.value then
    throw (.fault (.repeatedAlias token.value) (some token))
  else
    return { r with aliases := r.aliases.put token.value component }

/-- Resolve one mention. Uses of aliases and properties are left for later. -/
def Resolved.step (r : Resolved) : Mention → Resolve Resolved
  | .className token => do
    match ← Resolve.record? token.value with
    | some record => return { r with subject := some record }
    | none => throw (.fault (.undefinedClass token.value) (some token))
  | .joinRoot token next =>
    match r.aliases.record? token.value with
    | some record => return { r with subject := some record }
    | none => throw (.fault (.undefinedJoinRoot token.value) next)
  | .joinField token next =>
    match r.subject with
    | none => return r
    | some parent =>
      match parent.association? token.value with
      | none => throw (.fault (.noAssociation parent.className token.value) next)
      | some association => do
        match ← Resolve.record? association.target with
        | some record => return { r with subject := some record }
        | none => throw (.lookup (.notMapped association.target))
  | .entityAlias token =>
    match r.subject with
    | none => return r
    | some record => r.declare token (.entity record)
  | .resultAlias token => r.declare token .result
  | .variable _ | .path _ _ _ => return r

def resolveAliases (mentions : List Mention) : Resolve Aliases := do
  return (← mentions.foldlM Resolved.step {}).aliases

def checkAlias (aliases : Aliases) : Mention → Except NameFailure Unit
  | .variable token | .path token _ _ =>
    if aliases.has token.value then .ok ()
    else .error (.fault (.undefinedAlias token.value) (some token))
  | _ => .ok ()

def checkProperty (aliases : Aliases) : Mention → Except NameFailure Unit
  | .path aliasName field allowsCollection =>
    match aliases.record? aliasName.value with
    | none => .error (.fault (.notAClass aliasName.value) (some field))
    | some record =>
      match record.association? field.value with
      | some association =>
        if association.cardinality = .toMany ∧ allowsCollection = false then
          .error (.fault .collection (some field))
        else
          .ok ()
      | none =>
        if record.hasField field.value then .ok ()
        else .error (.fault (.noProperty record.className field.value) (some field))
  | _ => .ok ()

/-- Judge all uses of names: those of aliases first, then those of properties. -/
def checkUses (aliases : Aliases) (mentions : List Mention) : Except NameFailure Unit := do
  mentions.forM (checkAlias aliases)
  mentions.forM (checkProperty aliases)

end EntityAudit.Query
