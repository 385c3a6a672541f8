import EntityAudit.Command.Host
import EntityAudit.Dict
import EntityAudit.Path

/-! # Described files

A file tree describes the files below a working directory and follows paths part by part, the way a
file system does.
-/

namespace EntityAudit

inductive FileEntry where
  | file (text : String)
  | directory
  deriving DecidableEq

/-- The files below a working directory, and what else a command may ask for. -/
structure FileTree where
  /-- The working directory, an absolute path. -/
  workingDir : String
  /-- The files and directories by path from the working directory. -/
  entries : List (String × FileEntry)
  environment : Dict String := []
  input : String := ""

namespace FileTree

def parts (path : String) : List String :=
  path.splitOn "/"

def names (path : String) : List String :=
  (parts path).filter fun part => part != "" && part != "."

/-- The entries by the names that lead to them from the root. -/
def located (tree : FileTree) : List (List String × FileEntry) :=
  (names tree.workingDir, .directory) ::
    tree.entries.map fun (path, entry) => (names tree.workingDir ++ names path, entry)

/-- What stands at the place that names lead to from the root. A place on the way to an entry is a
    directory. -/
def entryAt? (tree : FileTree) (place : List String) : Option FileEntry :=
  match tree.located.lookup place with
  | some entry => some entry
  | none =>
    if tree.located.any fun (other, _) => place.isPrefixOf other then some .directory else none

def follow (tree : FileTree) (place : List String) : List String → Except FileFault (List String)
  | [] => .ok place
  | part :: rest =>
    match tree.entryAt? place with
    | none => .error .missing
    | some (.file _) => .error .notDirectory
    | some .directory =>
      if part == "" || part == "." then follow tree place rest
      else if part == ".." then follow tree place.dropLast rest
      else follow tree (place ++ [part]) rest

def find (tree : FileTree) (path : String) : Except FileFault FileEntry := do
  if path.toList.contains '\x00' then throw .nullCharacter
  if path.isEmpty then throw .missing
  let start := if Path.isAbsolute path then [] else names tree.workingDir
  match tree.entryAt? (← tree.follow start (parts path)) with
  | some entry => return entry
  | none => throw .missing

def fileText (tree : FileTree) (path : String) : Except FileFault String := do
  match ← tree.find path with
  | .file text => return text
  | .directory => throw .isDirectory

def host (tree : FileTree) : Host Id where
  fileText path := (tree.fileText path).mapError (·.message)
  exists? path := (tree.find path).toBool
  envValue? name := tree.environment.get? name
  readInput := .ok tree.input
  workingDir := .ok tree.workingDir

end FileTree

end EntityAudit
