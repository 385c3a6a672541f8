import EntityAudit.Dict

/-! # Command-line arguments

The first argument is a command; each command has one subcommand and two options with values, which
may stand anywhere after the command.
-/

namespace EntityAudit

inductive CommandWord where
  | dql
  | mapping
  deriving DecidableEq

def CommandWord.word : CommandWord → String
  | .dql => "dql"
  | .mapping => "mapping"

def CommandWord.subcommand : CommandWord → String
  | .dql => "check"
  | .mapping => "show"

inductive HelpTopic where
  | root
  | command (word : CommandWord)
  | subcommand (word : CommandWord)
  deriving DecidableEq

structure CommandOptions where
  config : String := "ormcheck.toml"
  /-- The path of a mapping file that replaces the one in the settings. -/
  mapping : Option String := none
  deriving DecidableEq

inductive Command where
  | help (topic : HelpTopic)
  /-- Compile the queries in files, or those on standard input when there are no files. -/
  | check (options : CommandOptions) (files : List String)
  | show (options : CommandOptions) (className : String)
  deriving DecidableEq

inductive UsageFault where
  | unknownCommand (word : String)
  | missingValue (option : String)
  | unknownArgument (argument : String)
  | unknownSubcommand (word : String)
  | unexpectedArgument (argument : String)
  | missingSubcommand (command : CommandWord)
  | missingClass
  deriving DecidableEq

def UsageFault.message : UsageFault → String
  | .unknownCommand word => "unknown command: " ++ word
  | .missingValue option => option ++ " requires a value"
  | .unknownArgument argument => "unknown argument: " ++ argument
  | .unknownSubcommand word => "unknown subcommand: " ++ word
  | .unexpectedArgument argument => "unexpected argument: " ++ argument
  | .missingSubcommand command =>
      "missing subcommand: expected `ormcheck " ++ command.word ++ " " ++ command.subcommand ++ "`"
  | .missingClass => "missing class name: `ormcheck mapping show <CLASS>`"

/-- A text without `mark` at its start, however often it stands there. -/
def dropMarks (mark : List Char) : (fuel : Nat) → List Char → List Char
  | 0, cs => cs
  | fuel + 1, cs => if mark.isPrefixOf cs then dropMarks mark fuel (cs.drop mark.length) else cs

/-- The value of an argument `option=value`; repeated beginnings are left out. -/
def valueOf? (option argument : String) : Option String :=
  let mark := option.toList ++ ['=']
  let cs := argument.toList
  if mark.isPrefixOf cs then some (String.ofList (dropMarks mark cs.length cs)) else none

structure ArgumentDraft where
  options : CommandOptions := {}
  hasSubcommand : Bool := false
  operands : List String := []
  deriving DecidableEq

namespace ArgumentDraft

def withConfig (draft : ArgumentDraft) (path : String) : ArgumentDraft :=
  { draft with options := { draft.options with config := path } }

def withMapping (draft : ArgumentDraft) (path : String) : ArgumentDraft :=
  { draft with options := { draft.options with mapping := some path } }

def addWord (command : CommandWord) (draft : ArgumentDraft) (word : String) :
    Except UsageFault ArgumentDraft :=
  if !draft.hasSubcommand && word == command.subcommand then
    .ok { draft with hasSubcommand := true }
  else if word.toList.head? == some '-' then .error (.unknownArgument word)
  else if !draft.hasSubcommand then .error (.unknownSubcommand word)
  else if command == .mapping && !draft.operands.isEmpty then .error (.unexpectedArgument word)
  else .ok { draft with operands := draft.operands ++ [word] }

/-- Help is on the subcommand once that is given. -/
def helpTopic (command : CommandWord) (draft : ArgumentDraft) : HelpTopic :=
  if draft.hasSubcommand then .subcommand command else .command command

def read (command : CommandWord) (draft : ArgumentDraft) :
    List String → Except UsageFault (HelpTopic ⊕ ArgumentDraft)
  | [] => .ok (.inr draft)
  | ["--config"] => .error (.missingValue "--config")
  | ["--mapping"] => .error (.missingValue "--mapping")
  | "--config" :: path :: rest => read command (draft.withConfig path) rest
  | "--mapping" :: path :: rest => read command (draft.withMapping path) rest
  | word :: rest =>
      match valueOf? "--config" word, valueOf? "--mapping" word with
      | some path, _ => read command (draft.withConfig path) rest
      | none, some path => read command (draft.withMapping path) rest
      | none, none =>
          if word == "-h" || word == "--help" then .ok (.inl (draft.helpTopic command))
          else do read command (← draft.addWord command word) rest

/-- The command that arguments amount to. Without a subcommand they ask for help, unless a mapping
    file is given. -/
def toCommand (command : CommandWord) (draft : ArgumentDraft) : Except UsageFault Command :=
  if draft.hasSubcommand then
    match command, draft.operands with
    | .dql, files => .ok (.check draft.options files)
    | .mapping, className :: _ => .ok (.show draft.options className)
    | .mapping, [] => .error .missingClass
  else if draft.options.mapping.isSome then .error (.missingSubcommand command)
  else .ok (.help (.command command))

end ArgumentDraft

namespace Command

def ofWord (command : CommandWord) (arguments : List String) : Except UsageFault Command := do
  match ← ArgumentDraft.read command {} arguments with
  | .inl topic => return .help topic
  | .inr draft => draft.toCommand command

def ofArguments : List String → Except UsageFault Command
  | [] => .ok (.help .root)
  | word :: rest =>
      if word == "-h" || word == "--help" then .ok (.help .root)
      else if word == CommandWord.dql.word then ofWord .dql rest
      else if word == CommandWord.mapping.word then ofWord .mapping rest
      else .error (.unknownCommand word)

end Command

end EntityAudit
