import EntityAudit.Class.Builtin
import EntityAudit.Verdict

/-! # Acceptance between types

`Ty.accepts table a b` tells whether every value of `b` is a value of `a`, given the known classes.
A union on the right is accepted as far as its members agree, an intersection as far as its most
acceptable member is.
-/

namespace EntityAudit

namespace Ty

mutual
/-- Compare with `other` through `leaf`, member by member where `other` is a union or an
    intersection. -/
def spread (leaf : Ty → Verdict) : Ty → Verdict
  | .union ms => Verdict.agree (spreadAll leaf ms)
  | .intersection ms => Verdict.any (spreadAll leaf ms)
  | other => leaf other

def spreadAll (leaf : Ty → Verdict) : List Ty → List Verdict
  | [] => []
  | t :: ts => spread leaf t :: spreadAll leaf ts
end

/-- `decide` where the right side is known to be a particular type, `maybe` where it may be
    anything. -/
def unlessOpen (decide : Ty → Verdict) : Ty → Verdict
  | .mixed | .template _ => .maybe
  | other => decide other

/-- Compare a type that is neither a union nor an intersection with `other`. -/
def against (decide : Ty → Verdict) (other : Ty) : Verdict :=
  spread (unlessOpen decide) other

end Ty

/-- Whether objects of the class `other` may be objects of `name`, when `name` is not among the
    ancestors of `other`: some may if `other` is an ancestor of `name`, if a class is not known, or
    if a common subclass could exist. -/
def ClassTable.unrelated (table : ClassTable) (name other : String) : Verdict :=
  if table.descends (.raw name) other then
    .maybe
  else
    match table.find? name, table.find? other with
    | some a, some b =>
      if !a.isFinal && !b.isFinal && (a.isInterface || b.isInterface) then .maybe else .no
    | _, _ => .maybe

/-- Whether objects of `other` are objects of the class `name`, where `byArgs` judges the generic
    arguments that `other` has when seen as `name`. -/
def ClassTable.acceptsClass (table : ClassTable) (name : String) (byArgs : List Ty → Verdict)
    (other : ClassType) : Verdict :=
  match table.ancestor? other name with
  | some seen => byArgs seen.args
  | none => table.unrelated name other.name

namespace Ty

mutual
/-- Whether every value of the second type is a value of the first. -/
def accepts (table : ClassTable) : Ty → Ty → Verdict
  | .mixed, _ | .template _, _ => .yes
  | .intersection ms, other => Verdict.all (acceptsEach table ms other)
  | .union ms, other => spread (fun t => Verdict.any (acceptsEach table ms t)) other
  | .null, other =>
    against (fun
      | .null => .yes
      | _ => .no) other
  | .bool, other =>
    against (fun
      | .bool | .constBool _ => .yes
      | _ => .no) other
  | .constBool a, other =>
    against (fun
      | .constBool b => .ofBool (a == b)
      | .bool => .maybe
      | _ => .no) other
  | .int, other =>
    against (fun
      | .int | .constInt _ => .yes
      | _ => .no) other
  | .constInt a, other =>
    against (fun
      | .constInt b => .ofBool (a == b)
      | .int => .maybe
      | _ => .no) other
  | .float, other =>
    against (fun
      | .float => .yes
      | _ => .no) other
  | .string, other =>
    against (fun
      | .string | .constString _ => .yes
      | _ => .no) other
  | .constString a, other =>
    against (fun
      | .constString b => .ofBool (a == b)
      | .string => .maybe
      | _ => .no) other
  | .iterable key value, other =>
    against (fun
      | .array k v | .iterable k v => (accepts table key k).and (accepts table value v)
      | .constArray entries =>
        Verdict.all (entries.map (fun e => accepts table key e.1) ++
          entries.map (fun e => accepts table value e.2))
      | .object name args =>
        match table.ancestor? ⟨name, args⟩ ClassName.traversable with
        | some seen =>
          (accepts table key (seen.args[0]?.getD .mixed)).and
            (accepts table value (seen.args[1]?.getD .mixed))
        | none => if table.has name then .no else .maybe
      | _ => .no) other
  | .array key value, other =>
    against (fun
      | .array k v => (accepts table key k).and (accepts table value v)
      | .constArray entries =>
        Verdict.all (entries.map (fun e => accepts table key e.1) ++
          entries.map (fun e => accepts table value e.2))
      | .iterable _ _ => .maybe
      | _ => .no) other
  | .constArray _, other => against (fun _ => .no) other
  | .object name args, other =>
    let byArgs := fun actual =>
      if args.isEmpty || actual.isEmpty then .yes
      else Verdict.all (acceptsArgs table args actual)
    against (fun
      | .object n as => table.acceptsClass name byArgs ⟨n, as⟩
      | .builder _ => table.acceptsClass name byArgs (.raw queryBuilderClass)
      | .iterable _ _ =>
        if table.descends ⟨name, args⟩ ClassName.traversable then .maybe else .no
      | _ => .no) other
  | .builder _, other =>
    against (fun
      | .object n as => table.acceptsClass queryBuilderClass (fun _ => .yes) ⟨n, as⟩
      | .builder _ => .yes
      | _ => .no) other

def acceptsEach (table : ClassTable) : List Ty → Ty → List Verdict
  | [], _ => []
  | t :: ts, other => accepts table t other :: acceptsEach table ts other

/-- The answers of generic arguments about the actual ones; a missing one is `mixed`. -/
def acceptsArgs (table : ClassTable) : List Ty → List Ty → List Verdict
  | [], _ => []
  | t :: ts, [] => accepts table t .mixed :: acceptsArgs table ts []
  | t :: ts, actual :: rest => accepts table t actual :: acceptsArgs table ts rest
end

end Ty

end EntityAudit
