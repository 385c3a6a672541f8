import EntityAudit.Proofs.Code.BuilderUse
import EntityAudit.Proofs.Outcome

/-! # Which calls a builder variable follows

A statement makes builder calls on a variable wherever an expression holds them
(`Expr.builderChains`), but only those that its own chain of method calls starts with are recorded
for the variable (`Expr.leadingCalls`). A variable follows a statement exactly if the two are the
same.
-/

namespace EntityAudit

variable {e : Expr}

namespace Expr

/-- The calls of an expression that consists of builder calls on the variable `name`. -/
def builderChain? (name : String) : Expr → Option (List (BuilderCall Expr))
  | .var other => if other = name then some [] else none
  | .call receiver method args => do
    let calls ← receiver.builderChain? name
    let builderMethod ← BuilderMethod.ofName? method
    return calls ++ [⟨builderMethod, args⟩]
  | _ => none

mutual
/-- The chains of builder calls on the variable `name` in an expression, in every position. A chain
    that only starts a longer one does not count; `goesOn` says that the expression is the start of
    one. -/
def builderChains (name : String) (goesOn : Bool) : Expr → List (List (BuilderCall Expr))
  | .call receiver method args =>
    let whole := builderChain? name (.call receiver method args)
    (if goesOn then [] else whole.toList) ++ builderChains name whole.isSome receiver ++
      builderChainsOfAll name args
  | .dynamicCall receiver method args =>
    builderChains name false receiver ++ builderChains name false method ++
      builderChainsOfAll name args
  | .array items => builderChainsOfItems name items
  | .new _ args | .function _ args => builderChainsOfAll name args
  | .property object _ => builderChains name false object
  | .concat left right => builderChains name false left ++ builderChains name false right
  | .null | .bool _ | .int _ | .text _ | .var _ | .this | .classConst _ => []

def builderChainsOfAll (name : String) : List Expr → List (List (BuilderCall Expr))
  | [] => []
  | e :: es => builderChains name false e ++ builderChainsOfAll name es

def builderChainsOfItems (name : String) :
    List (Option Expr × Expr) → List (List (BuilderCall Expr))
  | [] => []
  | (none, value) :: items => builderChains name false value ++ builderChainsOfItems name items
  | (some key, value) :: items =>
    builderChains name false key ++ builderChains name false value ++
      builderChainsOfItems name items
end

def leadingCalls (name : String) : Expr → List (BuilderCall Expr)
  | .call receiver method args =>
    (builderChain? name (.call receiver method args)).getD (leadingCalls name receiver)
  | .dynamicCall receiver _ _ => leadingCalls name receiver
  | _ => []

variable {name : String}

theorem builderChain?_call {receiver method args calls} :
    builderChain? name (.call receiver method args) = some calls ↔
      ∃ before builderMethod, receiver.builderChain? name = some before ∧
        BuilderMethod.ofName? method = some builderMethod ∧
        calls = before ++ [⟨builderMethod, args⟩] := by
  rw [builderChain?]
  simp only [Option.bind_eq_bind, Option.bind_eq_some_iff, Option.pure_def, Option.some.injEq]
  constructor
  · rintro ⟨before, starts, builderMethod, named, rfl⟩
    exact ⟨before, builderMethod, starts, named, rfl⟩
  · rintro ⟨before, builderMethod, starts, named, rfl⟩
    exact ⟨before, starts, builderMethod, named, rfl⟩

theorem root?_of_builderChain? {calls} (found : e.builderChain? name = some calls) :
    e.root? = some name := by
  fun_induction builderChain? name e generalizing calls with
  | case1 => rfl
  | case2 => cases found
  | case3 receiver method args ih =>
    obtain ⟨before, starts, -⟩ := Option.bind_eq_some_iff.mp found
    exact ih starts
  | case4 => cases found

theorem root?_of_leadingCalls (found : e.leadingCalls name ≠ []) : e.root? = some name := by
  fun_induction leadingCalls name e with
  | case1 receiver method args ih =>
    cases whole : builderChain? name (.call receiver method args) with
    | none =>
      rw [whole] at found
      exact ih found
    | some calls => exact root?_of_builderChain? whole
  | case2 receiver method args ih => exact ih found
  | case3 => contradiction

theorem leadingCalls_mem_builderChains (found : e.leadingCalls name ≠ []) :
    e.leadingCalls name ∈ e.builderChains name false := by
  fun_induction leadingCalls name e with
  | case1 receiver method args ih =>
    rw [builderChains]
    cases whole : builderChain? name (.call receiver method args) with
    | none =>
      rw [whole] at found
      simp [ih found]
    | some calls => simp
  | case2 receiver method args ih =>
    rw [builderChains]
    simp [ih found]
  | case3 => contradiction

theorem exists_chain?_of_root? (root : e.root? = some name) :
    ∃ chain, e.chain? = some chain ∧ chain.root = name := by
  fun_induction root? e with
  | case1 other =>
    cases root
    exact ⟨_, rfl, rfl⟩
  | case2 receiver method args ih =>
    obtain ⟨chain, walked, same⟩ := ih root
    rw [chain?, walked]
    refine ⟨_, rfl, ?_⟩
    dsimp only
    split <;> exact same
  | case3 receiver method args ih =>
    obtain ⟨chain, walked, same⟩ := ih root
    rw [chain?, walked]
    exact ⟨_, rfl, same⟩
  | case4 => cases root

/-- What is followed of a chain is the longest beginning of it that has builder calls only. -/
theorem chain?_leadingCalls : ∀ {e : Expr} {chain : Chain}, e.chain? = some chain →
    (e.builderChain? chain.root).isSome = chain.isUnbroken ∧
    (chain.built = none → e.leadingCalls chain.root = []) ∧
    ∀ built, chain.built = some built →
      built.builderChain? chain.root = some (e.leadingCalls chain.root)
  | .var other, chain, walked => by
    cases walked
    simp [builderChain?, leadingCalls]
  | .call receiver method args, chain, walked => by
    obtain ⟨inner, below, rfl⟩ := Option.map_eq_some_iff.mp walked
    obtain ⟨unbroken, none, starts⟩ := chain?_leadingCalls below
    have whole : (builderChain? inner.root (.call receiver method args)).isSome =
        (inner.isUnbroken && (BuilderMethod.ofName? method).isSome) := by
      rw [← unbroken, builderChain?]
      cases receiver.builderChain? inner.root <;> cases BuilderMethod.ofName? method <;> rfl
    by_cases goes : (inner.isUnbroken && (BuilderMethod.ofName? method).isSome) = true
    · obtain ⟨calls, found⟩ := Option.isSome_iff_exists.mp (whole.trans goes)
      rw [if_pos goes, leadingCalls, found]
      refine ⟨?_, by simp, ?_⟩
      · rw [Bool.and_eq_true] at goes
        exact goes.1.symm
      · rintro _ ⟨⟩
        exact found
    · have missing : builderChain? inner.root (.call receiver method args) = Option.none := by
        rw [← Option.not_isSome_iff_eq_none, whole]
        exact goes
      rw [if_neg goes, leadingCalls, missing]
      exact ⟨rfl, none, starts⟩
  | .dynamicCall receiver method args, chain, walked => by
    obtain ⟨inner, below, rfl⟩ := Option.map_eq_some_iff.mp walked
    obtain ⟨-, none, starts⟩ := chain?_leadingCalls below
    exact ⟨rfl, none, starts⟩

end Expr

/-- The lists of calls of the builders that a type has among its members. -/
def Ty.shapes (t : Ty) : List (List (BuilderCall Ty)) :=
  t.members.filterMap fun
    | .builder calls => some calls
    | _ => none

/-- `next` has the builders of `t` with the calls `made` added to each. -/
structure Ty.Extends (t next : Ty) (made : List (BuilderCall Ty)) : Prop where
  known : next.isKnownBuilder = true
  shapes : ∀ shape, shape ∈ next.shapes ↔ ∃ before ∈ t.shapes, shape = before ++ made

theorem Ty.mem_shapes {t : Ty} {calls} : calls ∈ t.shapes ↔ .builder calls ∈ t.members := by
  simp only [Ty.shapes, List.mem_filterMap]
  constructor
  · rintro ⟨m, inside, found⟩
    cases m <;> simp at found
    exact found ▸ inside
  · intro inside
    exact ⟨_, inside, rfl⟩

theorem Ty.shapes_ne_nil {t : Ty} (known : t.isKnownBuilder = true) : t.shapes ≠ [] := by
  obtain ⟨some, builders⟩ := Ty.isKnownBuilder_iff.mp known
  obtain ⟨m, inside⟩ := List.exists_mem_of_ne_nil _ some
  obtain ⟨calls, rfl⟩ := builders m inside
  exact List.ne_nil_of_mem (Ty.mem_shapes.mpr inside)

namespace Scope

variable {s : Scope} {name : String} {t : Ty}

theorem typesOf_eq_map {args types} (typed : s.typesOf args = .ok types) :
    types = args.map s.argType := by
  induction args generalizing types with
  | nil =>
    cases typed
    rfl
  | cons arg args ih =>
    rw [Scope.typesOf, except_bind_ok] at typed
    obtain ⟨type, first, typed⟩ := typed
    obtain ⟨others, rest, done⟩ := except_bind_ok.mp typed
    cases done
    rw [List.map_cons, Scope.argType, first, ih rest]

theorem typeOf_builderChain? (found : s.varType? name = some t) (known : t.isKnownBuilder = true) :
    ∀ {e : Expr} {calls : List (BuilderCall Expr)} {next : Ty}, e.builderChain? name = some calls →
      s.typeOf e = .ok next → t.Extends next (calls.map s.record)
  | .var other, calls, next, chain, typed => by
    rw [Expr.builderChain?] at chain
    split at chain
    · rename_i same
      cases chain
      rw [Scope.typeOf, same, found] at typed
      cases typed
      exact ⟨known, by simp⟩
    · cases chain
  | .call receiver method args, calls, next, chain, typed => by
    obtain ⟨before, builderMethod, starts, named, rfl⟩ := Expr.builderChain?_call.mp chain
    obtain ⟨receiverType, types, receiverTyped, argsTyped, called⟩ := Scope.typeOf_call_ok typed
    have inner := typeOf_builderChain? found known starts receiverTyped
    obtain ⟨_, result, still, members⟩ :=
      callType_builderMethod named s.table inner.known types
    obtain rfl := Except.ok.inj (called.symm.trans result)
    obtain rfl := typesOf_eq_map argsTyped
    refine ⟨still, fun shape => ?_⟩
    rw [Ty.mem_shapes, members, List.map_append]
    simp only [← Ty.mem_shapes, inner.shapes]
    constructor
    · rintro ⟨_, ⟨first, inside, rfl⟩, rfl⟩
      exact ⟨first, inside, List.append_assoc _ _ _⟩
    · rintro ⟨first, inside, rfl⟩
      exact ⟨_, ⟨first, inside, rfl⟩, (List.append_assoc _ _ _).symm⟩

theorem advance_built {after built isUnbroken} (found : s.varType? name = some t)
    (known : t.isKnownBuilder = true) (walked : e.chain? = some ⟨name, some built, isUnbroken⟩)
    (passed : s.advance e = .ok after) :
    ∃ next, after.varType? name = some next ∧
      t.Extends next ((e.leadingCalls name).map s.record) := by
  have chain := (Expr.chain?_leadingCalls walked).2.2 built rfl
  rw [Scope.advance, walked] at passed
  simp only [found, Option.map_some, Option.getD_some, Ty.isBuilder_of_isKnownBuilder known,
    if_true] at passed
  obtain ⟨next, typed, done⟩ := except_bind_ok.mp passed
  have extended := typeOf_builderChain? found known chain typed
  rw [Ty.isBuilder_of_isKnownBuilder extended.known, if_pos rfl] at done
  cases done
  exact ⟨next, by simp, extended⟩

/-- Evaluating an expression adds to a builder in a variable the calls that the expression starts
    with. -/
theorem advance_extends {after} (found : s.varType? name = some t) (known : t.isKnownBuilder = true)
    (passed : s.advance e = .ok after) :
    ∃ next, after.varType? name = some next ∧
      t.Extends next ((e.leadingCalls name).map s.record) := by
  have unchanged : e.leadingCalls name = [] → after.varType? name = s.varType? name →
      ∃ next, after.varType? name = some next ∧
        t.Extends next ((e.leadingCalls name).map s.record) := by
    intro none same
    exact ⟨t, same.trans found, known, by simp [none]⟩
  by_cases root : e.root? = some name
  · obtain ⟨⟨_, built, isUnbroken⟩, walked, rfl⟩ := Expr.exists_chain?_of_root? root
    cases built with
    | some built => exact advance_built found known walked passed
    | none =>
      refine unchanged ((Expr.chain?_leadingCalls walked).2.1 rfl) ?_
      rw [Scope.advance, walked] at passed
      cases passed
      rfl
  · have none : e.leadingCalls name = [] := by
      by_contra some
      exact root (Expr.root?_of_leadingCalls some)
    refine unchanged none ?_
    rcases Scope.advance_cases passed with rfl | ⟨chain, _, _, new, walked, -, -, -, -, rfl⟩
    · rfl
    · have differs : chain.root ≠ name := by
        rintro rfl
        exact root (Expr.root?_of_chain? walked)
      simp [differs]

end Scope

def Stmt.evaluated? : Stmt → Option Expr
  | .expr value _ | .assign _ value _ | .branch value _ _ _ => some value
  | .ret value _ => value

def Stmt.assigns (name : String) : Stmt → Bool
  | .assign other _ _ => other == name
  | _ => false

theorem eq_nil_of_extends_self {α : Type} {lists : List (List α)} {added} (some : added ≠ [])
    (all : ∀ list ∈ lists, ∃ before ∈ lists, list = before ++ added) : lists = [] := by
  have none : ∀ length, ∀ list ∈ lists, list.length ≠ length := by
    intro length
    induction length using Nat.strongRecOn with
    | ind length ih =>
      rintro list inside rfl
      obtain ⟨before, within, rfl⟩ := all list inside
      have shorter : before.length < (before ++ added).length := by
        have := List.length_pos_iff.mpr some
        simp
        omega
      exact ih before.length shorter before within rfl
  exact List.eq_nil_iff_forall_not_mem.mpr fun list inside => none list.length list inside rfl

namespace Scope

variable {s after : Scope} {name : String} {t : Ty} {stmt : Stmt} {value : Expr}

theorem apply_extends (evaluates : stmt.evaluated? = some value)
    (free : stmt.assigns name = false) (found : s.varType? name = some t)
    (known : t.isKnownBuilder = true) (applied : s.apply stmt = .ok after) :
    ∃ next, after.varType? name = some next ∧
      t.Extends next ((value.leadingCalls name).map s.record) := by
  cases stmt with
  | expr e line =>
    cases evaluates
    exact advance_extends found known applied
  | assign other e line =>
    cases evaluates
    obtain ⟨type, -, applied⟩ := except_bind_ok.mp applied
    obtain ⟨passed, advanced, done⟩ := except_bind_ok.mp applied
    cases done
    have other : other ≠ name := by simpa [Stmt.assigns] using free
    simpa [other] using advance_extends found known advanced
  | branch e holds fails line =>
    cases evaluates
    exact advance_extends found known applied
  | ret e line =>
    cases evaluates
    exact advance_extends found known applied

/-- A statement adds to the builders in a variable that it does not assign the calls that its own
    chain of method calls starts with. So if it makes one chain of builder calls on the variable, the
    variable follows that chain exactly if the statement starts with it; a chain in any other
    position leaves the variable as it is. -/
theorem apply_follows_leading (evaluates : stmt.evaluated? = some value)
    (free : stmt.assigns name = false) (found : s.varType? name = some t)
    (known : t.isKnownBuilder = true) (applied : s.apply stmt = .ok after) :
    ∃ next, after.varType? name = some next ∧
      t.Extends next ((value.leadingCalls name).map s.record) ∧
      ∀ calls, value.builderChains name false = [calls] →
        (t.Extends next (calls.map s.record) ↔ value.leadingCalls name = calls) ∧
        (value.leadingCalls name ≠ calls → ∀ shape, shape ∈ next.shapes ↔ shape ∈ t.shapes) := by
  obtain ⟨next, now, extended⟩ := apply_extends evaluates free found known applied
  refine ⟨next, now, extended, fun calls only => ?_⟩
  have either : value.leadingCalls name = calls ∨ value.leadingCalls name = [] := by
    by_contra neither
    rw [not_or] at neither
    have inside := Expr.leadingCalls_mem_builderChains neither.2
    rw [only, List.mem_singleton] at inside
    exact neither.1 inside
  have kept : value.leadingCalls name ≠ calls → ∀ shape, shape ∈ next.shapes ↔ shape ∈ t.shapes := by
    intro nested shape
    rw [extended.shapes, either.resolve_left nested]
    simp
  refine ⟨⟨fun follows => ?_, fun own => own ▸ extended⟩, kept⟩
  by_contra nested
  have some : calls.map s.record ≠ [] := by
    rw [ne_eq, List.map_eq_nil_iff]
    rintro rfl
    exact nested (either.resolve_left nested)
  have none : t.shapes = [] := eq_nil_of_extends_self some fun shape inside =>
    (follows.shapes shape).mp ((kept nested shape).mpr inside)
  exact Ty.shapes_ne_nil known none

/-- A chain that ends in asking for the query, with a builder of two shapes. -/
theorem apply_follows_leading_query :
    let s : Scope := { table := {}, locals := [("qb", .union [.builder [],
      .builder [⟨.distinct, []⟩]])] }
    let value : Expr := .call (.call (.var "qb") "select" [.text "e"]) "getQuery" []
    ∃ after next, s.apply (.expr value 1) = .ok after ∧ after.varType? "qb" = some next ∧
      ∀ shape, shape ∈ next.shapes ↔
        ∃ before ∈ [[], [⟨.distinct, []⟩]], shape = before ++ [⟨.select, [.constString "e"]⟩] := by
  intro s value
  obtain ⟨after, applied⟩ : ∃ after, s.apply (.expr value 1) = .ok after := ⟨_, rfl⟩
  have free : (Stmt.expr value 1).assigns "qb" = false := rfl
  obtain ⟨next, now, extended, -⟩ := apply_follows_leading rfl free rfl rfl applied
  exact ⟨after, next, applied, now, extended.shapes⟩

/-- A chain that is an argument of a function is made on the builder and not recorded. -/
theorem apply_misses_nested_chain :
    let s : Scope := { table := {}, locals := [("qb", .builder [])] }
    let value : Expr := .function "f" [.call (.var "qb") "select" [.text "e"]]
    value.builderChains "qb" false = [[⟨.select, [.text "e"]⟩]] ∧
      ∃ after, s.apply (.expr value 1) = .ok after ∧ after.varType? "qb" = some (.builder []) ∧
        ¬ (Ty.builder []).Extends (.builder []) [s.record ⟨.select, [.text "e"]⟩] := by
  intro s value
  refine ⟨rfl, s, rfl, rfl, fun extended => ?_⟩
  obtain ⟨before, inside, same⟩ := (extended.shapes []).mp (by simp [Ty.shapes, Ty.members])
  simp at same

end Scope

end EntityAudit
