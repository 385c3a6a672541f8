import EntityAudit.Mapping.Schema
import EntityAudit.Path
import EntityAudit.Text.Blank
import EntityAudit.Toml.Reader

/-! # Settings

Settings come from a TOML document. The path of the mapping may refer to environment variables; what
a reference is replaced by is not looked into again.
-/

namespace EntityAudit

/-- The values of the environment variables that are set. -/
abbrev Environment := String → Option String

structure Settings where
  dir : String := "."
  version : String := "1"
  reportDynamic : Bool := false
  mapping : Option String := none
  deriving DecidableEq

namespace Settings

/-- Replace references to environment variables. `name` is the name of the reference being read,
    backwards. -/
def expandFrom (env : Environment) :
    (name : Option (List Char)) → List Char → Except ConfigurationFault (List Char)
  | none, [] => .ok []
  | none, '$' :: '{' :: rest => expandFrom env (some []) rest
  | none, c :: rest => do return c :: (← expandFrom env none rest)
  | some name, [] => .error (.openReference (String.ofList name.reverse))
  | some name, '}' :: rest =>
    if name.isEmpty then .error .emptyReference
    else
      match env (String.ofList name.reverse) with
      | some value => do return value.toList ++ (← expandFrom env none rest)
      | none => .error (.unsetVariable (String.ofList name.reverse))
  | some name, c :: rest => expandFrom env (some (c :: name)) rest

def expand (env : Environment) (text : String) : Except ConfigurationFault String :=
  (expandFrom env none text.toList).map String.ofList

def referencesFrom : (name : Option (List Char)) → List Char → List String
  | none, '$' :: '{' :: rest => referencesFrom (some []) rest
  | none, _ :: rest => referencesFrom none rest
  | some name, '}' :: rest => String.ofList name.reverse :: referencesFrom none rest
  | some name, c :: rest => referencesFrom (some (c :: name)) rest
  | _, [] => []

/-- The entries of a table that has no other keys than `keys`. -/
def entriesOf? (keys : List String) (entries : Dict Toml) : Option (Dict Toml) :=
  if entries.keys.all keys.contains then some entries else none

/-- Whether builders with unknown texts are reported, as the section on the analysis says: a table,
    or an array of its values in order. -/
def reportDynamic? : Toml → Option Bool
  | .table _ entries => do
    match (← entriesOf? ["report_dynamic_query_builders"] entries).get?
        "report_dynamic_query_builders" with
    | none => return false
    | some (.bool value) => return value
    | some _ => none
  | .array [] => some false
  | .array (.bool value :: _) => some value
  | _ => none

/-- The path of the mapping file, as the section on the metadata says: a table, or an array of its
    values in order, of which the path must not be missing. -/
def mapping? : Toml → Option (Option String)
  | .table _ entries => do
    match (← entriesOf? ["mapping"] entries).get? "mapping" with
    | none => return none
    | some (.text value) => return some value
    | some _ => none
  | .array (.text value :: _) => some (some value)
  | _ => none

def ofDocument? (document : Dict Toml) : Option Settings := do
  let entries ← entriesOf? ["version", "analysis", "metadata"] document
  let version ← match ← entries.get? "version" with
    | .text value => some value
    | _ => none
  let reportDynamic ← match entries.get? "analysis" with
    | some part => reportDynamic? part
    | none => some false
  let mapping ← match entries.get? "metadata" with
    | some part => mapping? part
    | none => some none
  return { version, reportDynamic, mapping }

def supportedVersion : String := "1"

/-- The settings, provided that they make sense. Blank characters around the version do not
    count. -/
def validate (s : Settings) : Except ConfigurationFault Settings :=
  if Text.trim s.version != supportedVersion then .error (.unsupportedVersion s.version)
  else if (s.mapping.map Text.isBlankText).getD false then .error .blankMapping
  else .ok s

/-- The names of the environment variables that a settings text refers to. -/
def references (text : String) : List String :=
  match ((Toml.ofText? text).bind ofDocument?).bind (·.mapping) with
  | some mapping => referencesFrom none mapping.toList
  | none => []

/-- The settings that a text holds, with references to environment variables replaced. -/
def ofText (env : Environment) (text : String) : Except ConfigurationFault Settings := do
  let some settings := (Toml.ofText? text).bind ofDocument?
    | throw (.notSettings "not a settings document")
  let mapping ← settings.mapping.mapM (expand env)
  validate { settings with mapping }

def resolve (s : Settings) (path : String) : String :=
  Path.join s.dir path

/-- The path of the mapping file as seen from the directory of the settings. -/
def mappingPath? (s : Settings) : Option String :=
  s.mapping.map s.resolve

def withMapping (s : Settings) (path : String) : Settings :=
  { s with mapping := some path }

/-- The settings that the file at `path` holds, given what reading it came to. -/
def ofFile (env : Environment) (path : String) (content : Except String String) :
    Except ConfigurationFault Settings :=
  match content with
  | .error reason => .error (.unreadableSettings path reason)
  | .ok text =>
    match ofText env text with
    | .error cause => .error (.invalidSettings path cause)
    | .ok settings => .ok { settings with dir := (Path.parent? path).getD "." }

end Settings

namespace SchemaFile

/-- The source of mappings that the file at `path` describes, given what reading it came to. -/
def sourceOfFile (path : String) (content : Except String String) : Except Failure Source := do
  match content with
  | .error reason => throw (.configuration (.unreadableMapping path reason))
  | .ok text => return (← catalogOfText text).toSource

end SchemaFile

/-- The gateway to the mapping file, given how files are read; nothing is behind it when no mapping
    is set. -/
def Settings.gateway {m : Type → Type} [Monad m] (s : Settings)
    (read : String → m (Except String String)) : m Gateway :=
  match s.mappingPath? with
  | some path => do return Gateway.ofLoader (SchemaFile.sourceOfFile path (← read path))
  | none => return Gateway.unconfigured

end EntityAudit
