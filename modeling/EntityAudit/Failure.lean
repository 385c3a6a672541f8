import EntityAudit.Ty.Basic

/-! # Failures

Why a check, a look-up or a load fails. Failures are causes; `message` is the one place that words
them.
-/

namespace EntityAudit

/-- A builder call that the query builder itself would reject. -/
inductive BuilderFault where
  /-- `method` was called with only `passed` arguments. -/
  | tooFewArguments (method : BuilderMethod) (passed : Nat)
  /-- An index was set for an alias that no root entity has. -/
  | unknownRoot (aliasName : String)
  /-- A join was made before any root entity had an alias. -/
  | noRoot
  deriving DecidableEq

def BuilderFault.message : BuilderFault → String
  | .tooFewArguments method passed =>
    "Too few arguments to function " ++ Ty.queryBuilderClass ++ "::" ++ method.name ++ "(), " ++
      toString passed ++ " passed and at least " ++ toString method.arity ++ " expected"
  | .unknownRoot aliasName =>
    "[Semantical Error] Specified root alias " ++ aliasName ++
      " must be set before invoking indexBy()."
  | .noRoot => "No alias was set before invoking getRootAlias()."

/-- A computation that has no result and takes the whole run down with it. -/
inductive Breakdown where
  /-- The index after the greatest integer. -/
  | overflow
  /-- A call with an argument that is none of any values. -/
  | noChoice
  deriving DecidableEq

def Breakdown.message : Breakdown → String
  | .overflow => "attempt to add with overflow"
  | .noChoice => "index out of bounds: the len is 0 but the index is 0"

/-- Why an expression has no type. -/
inductive Fault where
  | rejected (fault : BuilderFault)
  | breakdown (cause : Breakdown)
  deriving DecidableEq

inductive MappingFault where
  | repeatedProperty (property className : String)
  | repeatedClass (className : String)
  | reported (text : String)
  deriving DecidableEq

def MappingFault.message : MappingFault → String
  | .repeatedProperty property className =>
    "Property \"" ++ property ++ "\" in \"" ++ className ++
      "\" was already declared, but it must be declared only once"
  | .repeatedClass className => "Class \"" ++ className ++ "\" is mapped more than once"
  | .reported text => text

inductive FormatFault where
  | notAMapping (detail : String)
  | reported (text : String)
  deriving DecidableEq

def FormatFault.message : FormatFault → String
  | .notAMapping detail => "Failed to parse mapping file: " ++ detail
  | .reported text => text

/-- A set-up under which nothing can be checked. -/
inductive ConfigurationFault where
  | noSource
  /-- Queries are to be checked, but no mapping is set. -/
  | mappingRequired
  | unreadableMapping (path reason : String)
  | unreadableSettings (path reason : String)
  | invalidSettings (path : String) (cause : ConfigurationFault)
  | notSettings (detail : String)
  | unsupportedVersion (version : String)
  | blankMapping
  | openReference (name : String)
  | emptyReference
  | unsetVariable (name : String)
  | reported (text : String)
  deriving DecidableEq

/-- The wording of a faulty set-up, with the marker of its kind in front. -/
def ConfigurationFault.message : ConfigurationFault → String
  | .noSource => "Configuration error: metadata store is not configured"
  | .mappingRequired =>
    "Configuration error: Please provide the `metadata.mapping` setting for the DQL validation."
  | .unreadableMapping path reason =>
    "Configuration error: Failed to read mapping file " ++ path ++ ": " ++ reason
  | .unreadableSettings path reason =>
    "Configuration error: failed to read config file " ++ path ++ ": " ++ reason
  | .invalidSettings path cause =>
    "Configuration error: invalid config file " ++ path ++ ": " ++ cause.message
  | .notSettings detail => "Configuration error: failed to parse config: " ++ detail
  | .unsupportedVersion version =>
    "Configuration error: unsupported config version: " ++ version
  | .blankMapping => "Configuration error: metadata.mapping must not be empty"
  | .openReference name =>
    "Configuration error: unterminated env var reference: $\x7b" ++ name
  | .emptyReference => "Configuration error: invalid env var reference: $\x7b\x7d"
  | .unsetVariable name =>
    "Configuration error: missing env var for config expansion: " ++ name
  | .reported text => "Configuration error: " ++ text

inductive Failure where
  | configuration (fault : ConfigurationFault)
  | metadata (fault : MappingFault)
  | notMapped (className : String)
  | serialization (fault : FormatFault)
  | builder (fault : BuilderFault)
  /-- Any other failure reported by the source of the mapping. -/
  | reported (text : String)
  | breakdown (cause : Breakdown)
  deriving DecidableEq

namespace Failure

def message : Failure → String
  | .configuration fault => fault.message
  | .metadata fault => "Metadata error: " ++ fault.message
  | .notMapped className =>
    "Class '" ++ className ++ "' is not a valid entity or mapped super class"
  | .serialization fault => "Serialization error: " ++ fault.message
  | .builder fault => fault.message
  | .reported text => text
  | .breakdown cause => cause.message

def isFatal : Failure → Bool
  | .configuration _ | .breakdown _ => true
  | _ => false

/-- The failure of a load as every later use sees it: a faulty set-up, whatever the cause. -/
def asConfiguration : Failure → ConfigurationFault
  | .configuration fault => fault
  | failure => .reported failure.message

end Failure

end EntityAudit
