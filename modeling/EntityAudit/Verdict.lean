/-! # Three-valued answers

The answer to "does this type hold every value of that one" is `yes`, `no`, or `maybe` when the
declarations at hand do not decide it.
-/

namespace EntityAudit

/-- A three-valued answer, ordered `no < maybe < yes`. -/
inductive Verdict where
  | no
  | maybe
  | yes
  deriving DecidableEq

namespace Verdict

def ofBool : Bool → Verdict
  | true => .yes
  | false => .no

/-- The lesser of two answers: both must hold. -/
def and : Verdict → Verdict → Verdict
  | .no, _ | _, .no => .no
  | .yes, b => b
  | a, .yes => a
  | .maybe, .maybe => .maybe

/-- The greater of two answers: either may hold. -/
def or : Verdict → Verdict → Verdict
  | .yes, _ | _, .yes => .yes
  | .no, b => b
  | a, .no => a
  | .maybe, .maybe => .maybe

/-- The least of all answers, `yes` when there is none. -/
def all (vs : List Verdict) : Verdict :=
  vs.foldl and .yes

/-- The greatest of all answers, `no` when there is none. -/
def any (vs : List Verdict) : Verdict :=
  vs.foldl or .no

/-- The answer all of `vs` share, `maybe` when they differ and `yes` when there is none. -/
def agree : List Verdict → Verdict
  | [] => .yes
  | v :: rest => if rest.all (· == v) then v else .maybe

end Verdict

end EntityAudit
