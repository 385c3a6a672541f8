import EntityAudit.Command.Run

/-! # The program

Runs commands on the files of the system.
-/

namespace EntityAudit

def reasonOf : IO.Error → String
  | .noFileOrDirectory _ _ _ => FileFault.missing.message
  | .inappropriateType _ code _ =>
    if code = 21 then FileFault.isDirectory.message else FileFault.notDirectory.message
  | e => toString e

/-- What a system action comes to; a failure is given as text. -/
def attempt {α : Type} (action : IO α) : IO (Except String α) := do
  try
    return .ok (← action)
  catch e =>
    return .error (reasonOf e)

partial def readAll (stream : IO.FS.Stream) : IO String := do
  let rec go (bytes : ByteArray) : IO ByteArray := do
    let chunk ← stream.read 65536
    if chunk.isEmpty then return bytes else go (bytes ++ chunk)
  match String.fromUTF8? (← go .empty) with
  | some text => return text
  | none => throw (IO.userError "stream did not contain valid UTF-8")

def systemHost : Host IO where
  fileText path := attempt (IO.FS.readFile path)
  exists? path := do
    match ← attempt (IO.FS.Handle.mk path .read) with
    | .ok _ => return true
    | .error _ => return false
  envValue? name := IO.getEnv name
  readInput := do attempt (readAll (← IO.getStdin))
  workingDir := attempt (do return (← IO.currentDir).toString)

end EntityAudit

def main (arguments : List String) : IO UInt32 := do
  let report ← EntityAudit.runArguments EntityAudit.systemHost arguments
  report.output.forM IO.println
  report.errorLines.forM IO.eprintln
  return report.exitCode.toUInt32
