import EntityAudit.Command.Help
import EntityAudit.Command.Host
import EntityAudit.Json.Printer
import EntityAudit.Mapping.Document
import EntityAudit.Query.Compile
import EntityAudit.Query.Script
import EntityAudit.Settings

/-! # Running commands -/

namespace EntityAudit

inductive CommandFault where
  | usage (fault : UsageFault)
  | failure (cause : Failure)
  | unreadable (path reason : String)
  | unreadableInput (reason : String)
  | noWorkingDir (reason : String)
  | noQueries
  | noStatements (name : String)
  | rejected
  deriving DecidableEq

def CommandFault.message : CommandFault → String
  | .usage fault => fault.message
  | .failure cause => cause.message
  | .unreadable path reason => "failed to read " ++ path ++ ": " ++ reason
  | .unreadableInput reason => "failed to read stdin: " ++ reason
  | .noWorkingDir reason => "failed to read current directory: " ++ reason
  | .noQueries => "no DQL provided (pass files or pipe DQL to stdin)"
  | .noStatements name => "no DQL statements found in " ++ name
  | .rejected => "dql check failed"

structure Report where
  output : List String := []
  errors : List String := []
  fault : Option CommandFault := none
  deriving DecidableEq

def Report.errorLines (r : Report) : List String :=
  r.errors ++ (r.fault.map (·.message)).toList

def Report.exitCode (r : Report) : Nat :=
  if r.fault.isSome then 1 else 0

def checkStatement (header text : String) : StateM Gateway (Option String) :=
  fun gateway =>
    match Query.compile text gateway with
    | .ok _ gateway => (none, gateway)
    | .error rejection gateway =>
      (some ("[ERROR] " ++ header ++ ": " ++ rejection.message), gateway)

/-- The complaints about statements, which are numbered from `number` on. -/
def checkStatements (name : String) : (number : Nat) → List String → StateM Gateway (List String)
  | _, [] => return []
  | number, text :: texts => do
    let complaint ← checkStatement (name ++ ":stmt" ++ toString number) text
    return complaint.toList ++ (← checkStatements name (number + 1) texts)

/-- The complaints about named scripts, up to the first one that holds no statement. -/
def checkScripts : List (String × String) → StateM Gateway (List String × Option CommandFault)
  | [] => return ([], none)
  | (name, text) :: scripts => do
    match Query.splitScript text with
    | [] => return ([], some (.noStatements name))
    | statements =>
      let complaints ← checkStatements name 1 statements
      let (later, fault) ← checkScripts scripts
      return (complaints ++ later, fault)

def reportScripts (scripts : List (String × String)) (gateway : Gateway) : Report :=
  let (errors, fault) := (checkScripts scripts gateway).1
  { errors, fault := fault.or (if errors.isEmpty then none else some .rejected) }

section

variable {m : Type → Type} [Monad m] (host : Host m)

def environmentFor (text : String) : m Environment := do
  let values ← (Settings.references text).mapM fun name => do return (name, ← host.envValue? name)
  return fun name => (values.lookup name).join

def loadSettings (path : String) : ExceptT CommandFault m Settings := do
  let content ← host.fileText path
  let env ← match content with
    | .ok text => (environmentFor host text : m Environment)
    | .error _ => pure fun _ => none
  match Settings.ofFile env path content with
  | .ok settings => return settings
  | .error fault => throw (.failure (.configuration fault))

/-- The settings that options ask for: those of the file if there is one, with the mapping replaced
    by one seen from the working directory. -/
def settingsFor (options : CommandOptions) : ExceptT CommandFault m Settings := do
  let settings ←
    if ← host.exists? options.config then loadSettings host options.config else pure {}
  match options.mapping with
  | none => return settings
  | some path =>
    if Path.isAbsolute path then return settings.withMapping path
    else
      match ← host.workingDir with
      | .ok dir => return settings.withMapping (Path.join dir path)
      | .error reason => throw (.noWorkingDir reason)

def readScripts (files : List String) : ExceptT CommandFault m (List (String × String)) := do
  if files.isEmpty then
    match ← host.readInput with
    | .error reason => throw (.unreadableInput reason)
    | .ok text => if Text.isBlankText text then throw .noQueries else return [("stdin", text)]
  else
    files.mapM fun path => do
      match ← host.fileText path with
      | .ok text => return (path, text)
      | .error reason => throw (.unreadable path reason)

def ask {α : Type} (lookup : Lookup α) (gateway : Gateway) :
    ExceptT CommandFault m (α × Gateway) :=
  match lookup gateway with
  | .ok answer gateway => return (answer, gateway)
  | .error failure _ => throw (.failure failure)

def runCheck (options : CommandOptions) (files : List String) : ExceptT CommandFault m Report := do
  let settings ← settingsFor host options
  let gateway ← (settings.gateway host.fileText : m Gateway)
  unless gateway.isConfigured do
    throw (.failure (.configuration .mappingRequired))
  let (_, gateway) ← ask Gateway.source? gateway
  let scripts ← readScripts host files
  return reportScripts scripts gateway

def runShow (options : CommandOptions) (className : String) : ExceptT CommandFault m Report := do
  let settings ← settingsFor host options
  let gateway ← (settings.gateway host.fileText : m Gateway)
  let (record, _) ← ask (Gateway.requireRecord className) gateway
  return { output := [record.toJson.pretty] }

def Command.run : Command → ExceptT CommandFault m Report
  | .help topic => return { output := helpLines topic }
  | .check options files => runCheck host options files
  | .show options className => runShow host options className

def runArguments (arguments : List String) : m Report := do
  match Command.ofArguments arguments with
  | .error fault => return { fault := some (.usage fault) }
  | .ok command =>
    match ← (command.run host).run with
    | .ok report => return report
    | .error fault => return { fault := some fault }

end

end EntityAudit
