import EntityAudit.Dict
import EntityAudit.Ty.Merge

/-! # Binding generic parameters

A binding gives types to the generic parameters of a class. Parameters it does not mention become
`mixed`. Unions and intersections are merged again after the replacement.
-/

namespace EntityAudit.Ty

mutual
def substitute (binding : Dict Ty) : Ty → Ty
  | .template name => (binding.get? name).getD .mixed
  | .object name args => .object name (substituteAll binding args)
  | .iterable k v => .iterable (substitute binding k) (substitute binding v)
  | .array k v => .array (substitute binding k) (substitute binding v)
  | .union ms => unite (substituteAll binding ms)
  | .intersection ms => meet (substituteAll binding ms)
  | t => t

def substituteAll (binding : Dict Ty) : List Ty → List Ty
  | [] => []
  | t :: ts => substitute binding t :: substituteAll binding ts
end

theorem substituteAll_eq_map (binding : Dict Ty) (ts : List Ty) :
    substituteAll binding ts = ts.map (substitute binding) := by
  induction ts with
  | nil => rfl
  | cons t ts ih => simp [substituteAll, ih]

end EntityAudit.Ty
