import EntityAudit.Code.Visit
import EntityAudit.Proofs.Class.Alike
import Mathlib.Data.List.Forall2

/-! # Code among the same classes

Scopes that differ in the order of their classes only give every expression the same type, so the
same nodes are visited on the same lines.
-/

namespace EntityAudit

namespace ClassTable.Alike

variable {table table' : ClassTable} (alike : table.Alike table')
include alike

theorem objectCallType_eq : table.objectCallType = table'.objectCallType := by
  funext object method args
  simp only [objectCallType, repositoryBuilder, alike.descends_eq, alike.methodType?_eq,
    alike.repositoryEntity?_eq]

theorem callType_eq : table.callType = table'.callType := by
  have single : table.callOn = table'.callOn := by
    funext receiver method args
    simp only [callOn, alike.objectCallType_eq]
  funext receiver method args
  simp only [callType, single]

end ClassTable.Alike

/-- The scopes differ in the order of their classes only. -/
structure Scope.Alike (s s' : Scope) : Prop where
  table : s.table.Alike s'.table
  owner : s.owner = s'.owner
  locals : s.locals = s'.locals

namespace Scope

variable {s s' : Scope}

theorem Alike.varType?_eq (alike : s.Alike s') : s.varType? = s'.varType? := by
  funext name
  rw [varType?, varType?, alike.locals]

theorem Alike.assign (alike : s.Alike s') (name : String) (type : Ty) :
    (s.assign name type).Alike (s'.assign name type) where
  table := alike.table
  owner := alike.owner
  locals := congrArg (Dict.put · name type) alike.locals

theorem Alike.merge {other other'} (alike : s.Alike s') (others : other.Alike other') :
    (s.merge other).Alike (s'.merge other') where
  table := alike.table
  owner := alike.owner
  locals := by
    unfold Scope.merge
    rw [alike.locals, others.locals]

mutual
theorem typeOf_alike (alike : s.Alike s') : ∀ e : Expr, s.typeOf e = s'.typeOf e
  | .array items => by simp only [typeOf, addItems_alike alike items]
  | .var name => by simp only [typeOf, alike.varType?_eq]
  | .this => by simp only [typeOf, alike.owner]
  | .property object name => by
    simp only [typeOf, typeOf_alike alike object, propertyType, alike.table.propertyType?_eq]
  | .call receiver method args => by
    simp only [typeOf, typeOf_alike alike receiver, typesOf_alike alike args,
      alike.table.callType_eq]
  | .concat left right => by simp only [typeOf, typeOf_alike alike left, typeOf_alike alike right]
  | .null | .bool _ | .int _ | .text _ | .classConst _ | .new _ _ | .dynamicCall _ _ _
  | .function _ _ => by simp only [typeOf]

theorem typesOf_alike (alike : s.Alike s') : ∀ es : List Expr, s.typesOf es = s'.typesOf es
  | [] => rfl
  | e :: es => by simp only [typesOf, typeOf_alike alike e, typesOf_alike alike es]

theorem addItems_alike (alike : s.Alike s') : ∀ (items : List (Option Expr × Expr))
    (draft : ArrayDraft), s.addItems draft items = s'.addItems draft items
  | [], _ => rfl
  | (none, value) :: items, draft => by
    simp only [addItems, typeOf_alike alike value, addItems_alike alike items]
  | (some key, value) :: items, draft => by
    simp only [addItems, typeOf_alike alike key, typeOf_alike alike value,
      addItems_alike alike items]
end

/-- Inference fails the same either way, or the scopes afterwards are alike. -/
inductive Step : Except Fault Scope → Except Fault Scope → Prop
  | ok {after after'} (alike : after.Alike after') : Step (.ok after) (.ok after')
  | error (fault : Fault) : Step (.error fault) (.error fault)

theorem advance_alike (alike : s.Alike s') (e : Expr) : Step (s.advance e) (s'.advance e) := by
  unfold advance
  rw [alike.varType?_eq]
  split
  next root built _ _ =>
    rw [typeOf_alike alike built]
    split
    · cases s'.typeOf built with
      | error fault => exact .error fault
      | ok advanced =>
        cases grown : advanced.isBuilder with
        | true =>
          simp only [bind, Except.bind, grown]
          exact .ok (alike.assign root advanced)
        | false =>
          simp only [bind, Except.bind, grown]
          exact .ok alike
    · exact .ok alike
  next => exact .ok alike

theorem apply_alike (alike : s.Alike s') (stmt : Stmt) : Step (s.apply stmt) (s'.apply stmt) := by
  cases stmt with
  | expr value line => exact advance_alike alike value
  | branch condition holds fails line => exact advance_alike alike condition
  | ret value line =>
    cases value with
    | none => exact .ok alike
    | some value => exact advance_alike alike value
  | assign name value line =>
    dsimp only [apply]
    rw [typeOf_alike alike value]
    have advanced := advance_alike alike value
    cases s'.typeOf value with
    | error fault => exact .error fault
    | ok type =>
      generalize s.advance value = after at advanced
      generalize s'.advance value = after' at advanced
      cases advanced with
      | error fault => exact .error fault
      | ok alike => exact .ok (alike.assign name type)

theorem pass_alike (alike : s.Alike s') (stmt : Stmt) : (s.pass stmt).Alike (s'.pass stmt) := by
  have applied := apply_alike alike stmt
  unfold pass
  generalize s.apply stmt = after at applied
  generalize s'.apply stmt = after' at applied
  cases applied with
  | ok alike => exact alike
  | error fault => exact alike

end Scope

/-- The same node on the same line, in scopes that differ in the order of their classes only. -/
structure Visit.Alike (visit visit' : Visit) : Prop where
  node : visit.node = visit'.node
  line : visit.line = visit'.line
  scope : visit.scope.Alike visit'.scope

namespace Scope

variable {s s' : Scope}

/-- Code was walked in step. -/
structure WalkAlike (walked walked' : List Visit × Option Scope) : Prop where
  visits : List.Forall₂ Visit.Alike walked.1 walked'.1
  final : Option.Rel Scope.Alike walked.2 walked'.2

theorem visitCalls_alike (alike : s.Alike s') (e : Expr) (line : Nat) :
    List.Forall₂ Visit.Alike (s.visitCalls e line) (s'.visitCalls e line) := by
  unfold visitCalls
  rw [List.forall₂_map_left_iff, List.forall₂_map_right_iff]
  exact List.forall₂_same.mpr fun call _ => ⟨rfl, rfl, alike⟩

theorem visitBreakdown_alike (alike : s.Alike s') (stmt : Stmt) (line : Nat) :
    List.Forall₂ Visit.Alike (s.visitBreakdown stmt line) (s'.visitBreakdown stmt line) := by
  have applied := apply_alike alike stmt
  unfold visitBreakdown
  generalize s.apply stmt = after at applied
  generalize s'.apply stmt = after' at applied
  cases applied with
  | ok => exact .nil
  | error fault =>
    cases fault with
    | rejected => exact .nil
    | breakdown cause => exact .cons ⟨rfl, rfl, alike⟩ .nil

theorem meet_alike {a a' b b'} (first : Option.Rel Scope.Alike a a')
    (second : Option.Rel Scope.Alike b b') : Option.Rel Scope.Alike (meet a b) (meet a' b') := by
  cases first with
  | none => exact second
  | some alike =>
    cases second with
    | none => exact .some alike
    | some others => exact .some (alike.merge others)

mutual
theorem walk_alike : ∀ (stmt : Stmt) {s s' : Scope}, s.Alike s' →
    WalkAlike (s.walk stmt) (s'.walk stmt)
  | .expr value line, _, _, alike =>
    ⟨List.rel_append (visitCalls_alike alike value line) (visitBreakdown_alike alike _ line),
      .some (pass_alike alike (.expr value line))⟩
  | .assign name value line, _, _, alike =>
    ⟨List.rel_append (visitCalls_alike alike value line) (visitBreakdown_alike alike _ line),
      .some (pass_alike alike (.assign name value line))⟩
  | .branch condition holds fails line, _, _, alike => by
    have inner := pass_alike alike (.branch condition holds fails line)
    have first := walkAll_alike holds inner
    have second := walkAll_alike fails inner
    have called := List.rel_append (visitCalls_alike alike condition line)
      (visitBreakdown_alike alike (.branch condition holds fails line) line)
    exact ⟨List.rel_append (List.rel_append called first.visits) second.visits,
      meet_alike first.final second.final⟩
  | .ret (some value) line, _, _, alike => ⟨visitCalls_alike alike value line, .none⟩
  | .ret none _, _, _, _ => ⟨.nil, .none⟩

theorem walkAll_alike : ∀ (stmts : List Stmt) {s s' : Scope}, s.Alike s' →
    WalkAlike (s.walkAll stmts) (s'.walkAll stmts)
  | [], _, _, alike => ⟨.nil, .some alike⟩
  | stmt :: stmts, s, s', alike => by
    have first := walk_alike stmt alike
    rw [walkAll, walkAll]
    generalize s.walk stmt = walked at first
    generalize s'.walk stmt = walked' at first
    obtain ⟨visits, final⟩ := first
    obtain ⟨here, after⟩ := walked
    obtain ⟨here', after'⟩ := walked'
    cases final with
    | none => exact ⟨visits, .none⟩
    | some alike =>
      have later := walkAll_alike stmts alike
      exact ⟨List.rel_append visits later.visits, later.final⟩
end

end Scope

theorem ClassDecl.visits_alike {table table'} (alike : table.Alike table') (c : ClassDecl) :
    List.Forall₂ Visit.Alike (c.visits table) (c.visits table') := by
  have owner := congrFun alike.find?_eq c.name
  have properties : List.Forall₂ Visit.Alike
      (c.properties.map fun p => ⟨.property p.name, p.line, { table, owner := table.find? c.name }⟩)
      (c.properties.map fun p =>
        ⟨.property p.name, p.line, { table := table', owner := table'.find? c.name }⟩) := by
    rw [List.forall₂_map_left_iff, List.forall₂_map_right_iff]
    exact List.forall₂_same.mpr fun p _ => ⟨rfl, rfl, alike, owner, rfl⟩
  apply List.rel_append properties
  have start (m : MethodDecl) : (Scope.ofMethod table (table.find? c.name) m.params).Alike
      (Scope.ofMethod table' (table'.find? c.name) m.params) :=
    ⟨alike, owner, rfl⟩
  induction c.methods with
  | nil => exact .nil
  | cons m ms ih =>
    rw [List.flatMap_cons, List.flatMap_cons]
    exact List.rel_append (Scope.walkAll_alike m.body (start m)).visits ih

end EntityAudit
