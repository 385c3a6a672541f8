import EntityAudit.Class.Basic

/-! # Class hierarchies

Questions about a class are answered along its parents. Hierarchies may contain cycles, repeated
parents and parents that are not known, so the search opens each known class at most once.
-/

namespace EntityAudit.ClassTable

/-- Look at the `pending` class types in order and answer with the first `hit`. A class type without
    one is replaced by what `expand` makes of it, the first time its class is met. -/
def search {β : Type} (expand : ClassType → ClassInfo → List ClassType)
    (hit : ClassType → Option β) (unopened : Dict ClassInfo) : List ClassType → Option β
  | [] => none
  | c :: pending =>
    match hit c with
    | some answer => some answer
    | none =>
      match _found : unopened.get? (Text.foldCase c.name) with
      | none => search expand hit unopened pending
      | some info =>
        search expand hit (unopened.remove (Text.foldCase c.name)) (expand c info ++ pending)
termination_by pending => (unopened.length, pending.length)
decreasing_by
  · exact Prod.Lex.right _ (by simp)
  · exact Prod.Lex.left _ _ (Dict.length_remove_lt _found)

theorem search_cons {β : Type} (expand : ClassType → ClassInfo → List ClassType)
    (hit : ClassType → Option β) (unopened : Dict ClassInfo) (c : ClassType)
    (pending : List ClassType) :
    search expand hit unopened (c :: pending) =
      match hit c with
      | some answer => some answer
      | none =>
        match unopened.get? (Text.foldCase c.name) with
        | none => search expand hit unopened pending
        | some info =>
          search expand hit (unopened.remove (Text.foldCase c.name))
            (expand c info ++ pending) := by
  rw [search]
  cases hit c with
  | some answer => rfl
  | none =>
    dsimp only
    split <;> simp_all

/-- The parents of a class with its generic arguments carried into them. -/
def parentsOf (c : ClassType) (info : ClassInfo) : List ClassType :=
  info.parents.map (ClassType.substitute (info.binding c.args))

/-- `c` seen as its ancestor `ancestor`, with the generic arguments that follow from its own. A
    class is its own ancestor. -/
def ancestor? (table : ClassTable) (c : ClassType) (ancestor : String) : Option ClassType :=
  search parentsOf (fun c => if Text.sameFold c.name ancestor then some c else none)
    table.classes [c]

def descends (table : ClassTable) (c : ClassType) (ancestor : String) : Bool :=
  (table.ancestor? c ancestor).isSome

/-- The type of the result of `method` called on `c`. Parents are searched depth first, in the order
    they are declared. -/
def methodType? (table : ClassTable) (c : ClassType) (method : String) : Option Ty :=
  search parentsOf
    (fun c => do
      let info ← table.find? c.name
      let found ← info.method? method
      return found.returns.substitute (info.binding c.args))
    table.classes [c]

/-- The type that `property` of an object of `className` is read with. Parents are searched depth
    first, the one declared last before the others. -/
def propertyType? (table : ClassTable) (className property : String) : Option Ty :=
  search (fun _ info => info.parents.reverse)
    (fun c => do
      let info ← table.find? c.name
      let found ← info.property? property
      return found.readable)
    table.classes [.raw className]

/-- Whether `className` has another class, `ancestor`, among its ancestors. -/
def isSubclass (table : ClassTable) (className ancestor : String) : Bool :=
  !Text.sameFold className ancestor && table.descends (.raw className) ancestor

/-- The type bound to the generic parameter `template` of `ancestor` when `c` is seen as that
    ancestor; none when the parameter is left open. -/
def templateType? (table : ClassTable) (c : ClassType) (ancestor template : String) :
    Option Ty := do
  let seen ← table.ancestor? c ancestor
  let info ← table.find? ancestor
  let index ← info.templates.idxOf? template
  match ← seen.args[index]? with
  | .mixed | .template _ => none
  | bound => some bound

end EntityAudit.ClassTable
