/-! # File paths

Paths are texts whose parts are divided by slashes. Joining never normalises; taking the parent
leaves out trailing slashes and trailing parts that consist of a single dot.
-/

namespace EntityAudit.Path

def isAbsolute (path : String) : Bool :=
  path.toList.head? == some '/'

def join (base path : String) : String :=
  if isAbsolute path || base.isEmpty then path
  else if base.toList.getLast? == some '/' then base ++ path
  else base ++ "/" ++ path

/-- A path, given backwards, without slashes and single-dot parts at its end. The root and a dot at
    the very start stay. -/
def trimBackwards : List Char → List Char
  | '/' :: rest => if rest.isEmpty then ['/'] else trimBackwards rest
  | '.' :: rest => if rest.head? == some '/' then trimBackwards rest else '.' :: rest
  | cs => cs

/-- The path without its last part; none for the root and the empty path. -/
def parent? (path : String) : Option String :=
  match trimBackwards path.toList.reverse with
  | [] => none
  | ['/'] => none
  | cs => some (String.ofList (trimBackwards (cs.dropWhile (· != '/'))).reverse)

end EntityAudit.Path
