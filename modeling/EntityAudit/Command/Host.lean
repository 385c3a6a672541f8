/-! # Hosts

What a command asks of the system it runs on. Commands are written against this interface, so that
they can run on real files and on a description of files alike.
-/

namespace EntityAudit

inductive FileFault where
  | missing
  | notDirectory
  | isDirectory
  | nullCharacter
  deriving DecidableEq

def FileFault.message : FileFault → String
  | .missing => "No such file or directory (os error 2)"
  | .notDirectory => "Not a directory (os error 20)"
  | .isDirectory => "Is a directory (os error 21)"
  | .nullCharacter => "file name contained an unexpected NUL byte"

/-- The services of a system. A file that cannot be read is answered with the reason. -/
structure Host (m : Type → Type) where
  fileText : String → m (Except String String)
  exists? : String → m Bool
  envValue? : String → m (Option String)
  readInput : m (Except String String)
  workingDir : m (Except String String)

end EntityAudit
