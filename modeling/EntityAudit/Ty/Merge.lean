import EntityAudit.Ty.Basic

/-! # Unions and intersections in merged form

`unite` and `meet` build a union or an intersection out of any types. Members that are unions (or
intersections) themselves are opened one level, each member is kept at its first place only, and a
single member stands for itself. In a union `mixed` absorbs everything and null comes last.
-/

namespace EntityAudit.Ty

/-- One member stands for itself, none for `mixed`; several are combined by `combine`. -/
def pack (combine : List Ty → Ty) : List Ty → Ty
  | [] => .mixed
  | [t] => t
  | ts => combine ts

def unite (types : List Ty) : Ty :=
  let flat := types.flatMap members
  if flat.contains .mixed then
    .mixed
  else
    let others := (flat.filter (· != .null)).eraseDups
    pack .union (if flat.contains .null then others ++ [.null] else others)

/-- What a type brings into an intersection: its members, or nothing for `mixed`. -/
def factors : Ty → List Ty
  | .intersection ms => ms
  | .mixed => []
  | t => [t]

def meet (types : List Ty) : Ty :=
  pack .intersection (types.flatMap factors).eraseDups

def addNull (t : Ty) : Ty :=
  unite [t, .null]

def removeNull : Ty → Ty
  | .union ms => unite (ms.filter (· != .null))
  | t => t

end EntityAudit.Ty
