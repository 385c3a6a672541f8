import EntityAudit.Proofs.Builder.Known
import EntityAudit.Proofs.Outcome

/-! # Statements that fail

`Expr.inferredCalls` lists the method calls that inference evaluates, and `Scope.rejection?` tells
which of them a builder rejects. A statement fails at the first of its calls that is rejected,
unless the index of an array item overflows first, and has changed nothing by then.
-/

namespace EntityAudit

namespace Scope

/-- The variable at the root of a chain, if it holds a builder, with the builder calls of the
    chain. -/
def tracked? (s : Scope) (e : Expr) : Option (String × Expr) := do
  let chain ← e.chain?
  let built ← chain.built
  let type ← s.varType? chain.root
  if type.isBuilder then some (chain.root, built) else none

theorem built_of_tracked? {s : Scope} {e place} (tracked : s.tracked? e = some place) :
    ∃ chain, e.chain? = some chain ∧ chain.built = some place.2 := by
  simp only [tracked?, Option.bind_eq_bind, Option.bind_eq_some_iff,
    Option.ite_none_right_eq_some] at tracked
  obtain ⟨chain, walked, built, held, -, -, -, same⟩ := tracked
  cases same
  exact ⟨chain, walked, held⟩

theorem advance_eq (s : Scope) (e : Expr) :
    s.advance e = (s.tracked? e).elim (.ok s) fun place => do
      let advanced ← s.typeOf place.2
      return if advanced.isBuilder then s.assign place.1 advanced else s := by
  unfold advance tracked?
  rcases e.chain? with _ | ⟨root, _ | built, isUnbroken⟩
  · rfl
  · rfl
  · dsimp only [bind, Option.bind]
    cases s.varType? root with
    | none => rfl
    | some type => cases holds : type.isBuilder <;> simp [holds]

/-- A step on a running scope; what it did until it fails stays done. -/
abbrev Action := EStateM Fault Scope

namespace Action

def infer (e : Expr) : Action Ty := fun s =>
  match s.typeOf e with
  | .ok type => .ok type s
  | .error fault => .error fault s

def bindVar (name : String) (type : Ty) : Action Unit :=
  modify (·.assign name type)

def advanceRoot (e : Expr) : Action Unit := do
  match (← get).tracked? e with
  | some (root, built) =>
    let advanced ← infer built
    if advanced.isBuilder then bindVar root advanced
  | none => return ()

end Action

end Scope

open Scope.Action in
/-- Carry a statement out. Of a branch only the condition is evaluated. -/
def Stmt.run : Stmt → Scope.Action Unit
  | .expr value _ => advanceRoot value
  | .assign name value _ => do
    let type ← infer value
    advanceRoot value
    bindVar name type
  | .branch condition _ _ _ => advanceRoot condition
  | .ret (some value) _ => advanceRoot value
  | .ret none _ => return ()

namespace Scope

/-- The end of a step that comes to `next`, and leaves `s` alone when that is a failure. -/
def settle (s : Scope) (next : Except Fault Scope) :
    EStateM.Result Fault Scope Unit :=
  match next with
  | .ok after => .ok () after
  | .error fault => .error fault s

theorem advanceRoot_eq (s : Scope) (e : Expr) :
    Action.advanceRoot e s = s.settle (s.advance e) := by
  rw [Action.advanceRoot, get_bind, advance_eq]
  rcases s.tracked? e with _ | ⟨root, built⟩
  · rfl
  · change (Action.infer built >>= _) s = _
    rw [Option.elim_some]
    cases typed : s.typeOf built with
    | error fault =>
      have failed : Action.infer built s = .error fault s := by rw [Action.infer, typed]
      rw [bind_of_error failed]
      rfl
    | ok advanced =>
      have inferred : Action.infer built s = .ok advanced s := by rw [Action.infer, typed]
      rw [bind_of_ok inferred]
      change _ = s.settle (.ok _)
      split <;> rfl

theorem run_eq (s : Scope) (stmt : Stmt) : stmt.run s = s.settle (s.apply stmt) := by
  cases stmt with
  | expr value line => exact s.advanceRoot_eq value
  | branch condition holds fails line => exact s.advanceRoot_eq condition
  | ret value line =>
    cases value with
    | none => rfl
    | some value => exact s.advanceRoot_eq value
  | assign name value line =>
    have advanced := s.advanceRoot_eq value
    rw [Stmt.run, Scope.apply]
    cases typed : s.typeOf value with
    | error fault =>
      have failed : Action.infer value s = .error fault s := by rw [Action.infer, typed]
      rw [bind_of_error failed]
      rfl
    | ok type =>
      have inferred : Action.infer value s = .ok type s := by rw [Action.infer, typed]
      rw [bind_of_ok inferred]
      cases passed : s.advance value with
      | error fault =>
        rw [passed] at advanced
        rw [bind_of_error advanced]
        rfl
      | ok after =>
        rw [passed] at advanced
        rw [bind_of_ok advanced]
        rfl

end Scope

namespace Expr

mutual
/-- The method calls that inference evaluates, in their order. Nothing is known about the results of
    functions and of methods with computed names, so that no argument of those is looked at. -/
def inferredCalls : Expr → List MethodCall
  | .call receiver method args =>
    inferredCalls receiver ++ inferredCallsOfAll args ++ [⟨receiver, some method, args⟩]
  | .array items => inferredCallsOfItems items
  | .property object _ => inferredCalls object
  | .concat left right => inferredCalls left ++ inferredCalls right
  | .null | .bool _ | .int _ | .text _ | .var _ | .this | .classConst _ | .new _ _
  | .dynamicCall _ _ _ | .function _ _ => []

def inferredCallsOfAll : List Expr → List MethodCall
  | [] => []
  | e :: es => inferredCalls e ++ inferredCallsOfAll es

def inferredCallsOfItems : List (Option Expr × Expr) → List MethodCall
  | [] => []
  | (none, value) :: items => inferredCalls value ++ inferredCallsOfItems items
  | (some key, value) :: items =>
    inferredCalls key ++ inferredCalls value ++ inferredCallsOfItems items
end

end Expr

def Stmt.value? : Stmt → Option Expr
  | .expr value _ | .assign _ value _ | .branch value _ _ _ | .ret (some value) _ => some value
  | .ret none _ => none

/-- The calls that are evaluated to advance the builder at the root of a chain. -/
def Scope.advanceCalls (s : Scope) (e : Expr) : List MethodCall :=
  (s.tracked? e).elim [] (·.2.inferredCalls)

/-- The calls that carrying a statement out evaluates, in their order. -/
def Scope.evaluatedCalls (s : Scope) : Stmt → List MethodCall
  | .assign _ value _ => value.inferredCalls ++ s.advanceCalls value
  | .expr value _ | .branch value _ _ _ | .ret (some value) _ => s.advanceCalls value
  | .ret none _ => []

def fault? {α : Type} : Except Fault α → Option Fault
  | .ok _ => none
  | .error fault => some fault

/-- Why a builder rejects that the text of its query is asked for. -/
def Ty.textFault? : Ty → Option Fault
  | .builder calls => fault? (queryCandidates calls)
  | _ => none

/-- Why a call fails: it asks a builder for the text of a query that the builder rejects. -/
def Scope.rejection? (s : Scope) (call : MethodCall) : Option Fault :=
  if call.method.map Text.foldCase = some "getdql" then
    (s.typeOf call.receiver).toOption.bind fun t => t.members.findSome? Ty.textFault?
  else none

theorem fault?_eq_some {α : Type} {x : Except Fault α} {fault} :
    fault? x = some fault ↔ x = .error fault := by
  cases x <;> simp [fault?]

section Rejections

variable {α β : Type} {s : Scope}

theorem fault?_map (x : Except Fault α) (f : α → β) :
    fault? (do return f (← x)) = fault? x := by
  cases x <;> rfl

theorem fault?_mapM (f : α → Except Fault β) (as : List α) :
    fault? (as.mapM f) = as.findSome? fun a => fault? (f a) := by
  induction as with
  | nil => rfl
  | cons a as ih =>
    rw [List.mapM_cons, List.findSome?_cons, ← ih]
    cases f a with
    | error fault => rfl
    | ok b => cases as.mapM f <;> rfl

theorem fault?_callOn (table : ClassTable) (t : Ty) (method : String) (args : List Ty) :
    fault? (table.callOn t method args) =
      if Text.foldCase method = "getdql" then t.textFault? else none := by
  cases t with
  | builder calls =>
    split
    next asks =>
      rw [callOn_getDQL table calls asks]
      exact fault?_map (queryCandidates calls) textType
    next asks =>
      rw [ClassTable.callOn, builderCallType]
      cases BuilderMethod.ofName? method with
      | some => rfl
      | none =>
        dsimp only
        split <;> first | rfl | contradiction
  | _ => exact (ite_self none).symm

theorem fault?_callType (table : ClassTable) (t : Ty) (method : String) (args : List Ty) :
    fault? (table.callType t method args) =
      if Text.foldCase method = "getdql" then t.members.findSome? Ty.textFault? else none := by
  cases t with
  | union members =>
    rw [ClassTable.callType, fault?_map, fault?_mapM]
    simp only [fault?_callOn]
    split
    next => rfl
    next => exact List.findSome?_eq_none_iff.mpr fun _ _ => rfl
  | _ =>
    rw [callType_of_not_union rfl, fault?_callOn]
    exact congrArg (if Text.foldCase method = "getdql" then · else none)
      List.findSome?_singleton.symm

end Rejections

/-- A computation fails as the first of `calls` that is rejected does, unless an index overflows. -/
def Scope.FailsAt {α : Type} (s : Scope) (x : Except Fault α) (calls : List MethodCall) : Prop :=
  x = .error (.breakdown .overflow) ∨ fault? x = calls.findSome? s.rejection?

namespace Scope.FailsAt

variable {α β : Type} {s : Scope} {x : Except Fault α} {calls more : List MethodCall}

theorem bind {f : α → Except Fault β} (first : s.FailsAt x calls)
    (second : ∀ a, x = .ok a → s.FailsAt (f a) more) : s.FailsAt (x >>= f) (calls ++ more) := by
  rcases first with rfl | first
  · exact .inl rfl
  · rw [FailsAt, List.findSome?_append, ← first]
    cases x with
    | error fault => exact .inr rfl
    | ok a => exact second a rfl

theorem map (fails : s.FailsAt x calls) (f : α → β) : s.FailsAt (do return f (← x)) calls := by
  rcases fails with rfl | same
  · exact .inl rfl
  · exact .inr ((fault?_map x f).trans same)

theorem note (draft : ArrayDraft) (key : Ty) : s.FailsAt (draft.note key) [] := by
  unfold ArrayDraft.note
  split
  · split
    · exact .inl rfl
    · exact .inr rfl
  · exact .inr rfl
  · exact .inr rfl

theorem error_iff (fails : s.FailsAt x calls) :
    x = .error (.breakdown .overflow) ∨
      ∀ fault, x = .error fault ↔ calls.findSome? s.rejection? = some fault :=
  fails.imp_right fun same fault => by rw [← same, fault?_eq_some]

end Scope.FailsAt

mutual
theorem Scope.failsAt_typeOf (s : Scope) : ∀ e : Expr, s.FailsAt (s.typeOf e) e.inferredCalls
  | .call receiver method args => by
    rw [Scope.typeOf, Expr.inferredCalls, List.append_assoc]
    refine (Scope.failsAt_typeOf s receiver).bind fun t typed => ?_
    refine (Scope.failsAt_typesOf s args).bind fun types _ => .inr ?_
    rw [fault?_callType, List.findSome?_singleton, Scope.rejection?, typed]
    simp only [Option.map_some, Option.some.injEq]
    rfl
  | .array items => (Scope.failsAt_addItems s items {}).map _
  | .property object name => (Scope.failsAt_typeOf s object).map _
  | .concat left right => by
    rw [Scope.typeOf, Expr.inferredCalls]
    exact (Scope.failsAt_typeOf s left).bind fun _ _ => (Scope.failsAt_typeOf s right).map _
  | .null | .bool _ | .int _ | .text _ | .var _ | .this | .classConst _ | .new _ _
  | .dynamicCall _ _ _ | .function _ _ => .inr rfl

theorem Scope.failsAt_typesOf (s : Scope) : ∀ es : List Expr,
    s.FailsAt (s.typesOf es) (Expr.inferredCallsOfAll es)
  | [] => .inr rfl
  | e :: es => by
    rw [Scope.typesOf, Expr.inferredCallsOfAll]
    exact (Scope.failsAt_typeOf s e).bind fun _ _ => (Scope.failsAt_typesOf s es).map _

theorem Scope.failsAt_addItems (s : Scope) : ∀ (items : List (Option Expr × Expr))
    (draft : ArrayDraft), s.FailsAt (s.addItems draft items) (Expr.inferredCallsOfItems items)
  | [], _ => .inr rfl
  | (none, value) :: items, draft => by
    rw [Scope.addItems, Expr.inferredCallsOfItems]
    refine (Scope.FailsAt.note draft _).bind fun _ _ => ?_
    exact (Scope.failsAt_typeOf s value).bind fun _ _ => Scope.failsAt_addItems s items _
  | (some key, value) :: items, draft => by
    rw [Scope.addItems, Expr.inferredCallsOfItems, List.append_assoc]
    refine (Scope.failsAt_typeOf s key).bind fun _ _ => ?_
    refine (Scope.FailsAt.note draft _).bind fun _ _ => ?_
    exact (Scope.failsAt_typeOf s value).bind fun _ _ => Scope.failsAt_addItems s items _
end

namespace Scope

variable {s : Scope}

theorem failsAt_advance (s : Scope) (e : Expr) : s.FailsAt (s.advance e) (s.advanceCalls e) := by
  rw [advance_eq, advanceCalls]
  cases s.tracked? e with
  | none => exact .inr rfl
  | some place => exact (s.failsAt_typeOf place.2).map _

theorem failsAt_apply (s : Scope) (stmt : Stmt) :
    s.FailsAt (s.apply stmt) (s.evaluatedCalls stmt) := by
  cases stmt with
  | expr value line => exact s.failsAt_advance value
  | branch condition holds fails line => exact s.failsAt_advance condition
  | ret value line =>
    cases value with
    | none => exact .inr rfl
    | some value => exact s.failsAt_advance value
  | assign name value line =>
    exact (s.failsAt_typeOf value).bind fun type _ => (s.failsAt_advance value).map _

theorem exists_of_rejection? {call fault} (rejected : s.rejection? call = some fault) :
    ∃ method t calls, call.method = some method ∧ Text.foldCase method = "getdql" ∧
      s.typeOf call.receiver = .ok t ∧ .builder calls ∈ t.members ∧
      queryCandidates calls = .error fault := by
  simp only [rejection?, Option.ite_none_right_eq_some, Option.map_eq_some_iff,
    Option.bind_eq_some_iff] at rejected
  obtain ⟨⟨method, named, asks⟩, t, typed, rejected⟩ := rejected
  obtain ⟨member, inside, failed⟩ := List.exists_of_findSome?_eq_some rejected
  cases member with
  | builder calls =>
    refine ⟨method, t, calls, named, asks, ?_, inside, ?_⟩
    · cases receiver : s.typeOf call.receiver with
      | error => rw [receiver] at typed; cases typed
      | ok => rw [receiver] at typed; cases typed; rfl
    · exact fault?_eq_some.mp failed
  | _ => cases failed

end Scope

mutual
theorem Expr.inferredCalls_sublist : ∀ e : Expr, e.inferredCalls.Sublist e.methodCalls
  | .call receiver method args => by
    rw [Expr.inferredCalls, Expr.methodCalls]
    exact (receiver.inferredCalls_sublist.append
      (Expr.inferredCallsOfAll_sublist args)).append (List.Sublist.refl _)
  | .array items => Expr.inferredCallsOfItems_sublist items
  | .property object _ => object.inferredCalls_sublist
  | .concat left right => left.inferredCalls_sublist.append right.inferredCalls_sublist
  | .null | .bool _ | .int _ | .text _ | .var _ | .this | .classConst _ | .new _ _
  | .dynamicCall _ _ _ | .function _ _ => List.nil_sublist _

theorem Expr.inferredCallsOfAll_sublist : ∀ es : List Expr,
    (Expr.inferredCallsOfAll es).Sublist (Expr.methodCallsOfAll es)
  | [] => List.nil_sublist _
  | e :: es => e.inferredCalls_sublist.append (Expr.inferredCallsOfAll_sublist es)

theorem Expr.inferredCallsOfItems_sublist : ∀ items : List (Option Expr × Expr),
    (Expr.inferredCallsOfItems items).Sublist (Expr.methodCallsOfItems items)
  | [] => List.nil_sublist _
  | (none, value) :: items =>
    value.inferredCalls_sublist.append (Expr.inferredCallsOfItems_sublist items)
  | (some key, value) :: items =>
    (key.inferredCalls_sublist.append value.inferredCalls_sublist).append
      (Expr.inferredCallsOfItems_sublist items)
end

theorem Expr.methodCalls_of_built : ∀ {e : Expr} {chain : Chain} {built : Expr},
    e.chain? = some chain → chain.built = some built → built.methodCalls ⊆ e.methodCalls
  | .var _, _, _, walked, held => by
    cases walked
    cases held
  | .call receiver method args, chain, built, walked, held => by
    obtain ⟨inner, below, rfl⟩ := Option.map_eq_some_iff.mp walked
    split at held
    next =>
      cases held
      exact List.Subset.refl _
    next =>
      rw [Expr.methodCalls, List.append_assoc]
      exact List.subset_append_of_subset_left _ (Expr.methodCalls_of_built below held)
  | .dynamicCall receiver method args, chain, built, walked, held => by
    obtain ⟨inner, below, rfl⟩ := Option.map_eq_some_iff.mp walked
    rw [Expr.methodCalls, List.append_assoc, List.append_assoc]
    exact List.subset_append_of_subset_left _ (Expr.methodCalls_of_built below held)

namespace Scope

variable {s : Scope}

theorem advanceCalls_subset (s : Scope) (e : Expr) : s.advanceCalls e ⊆ e.methodCalls := by
  rw [advanceCalls]
  cases tracked : s.tracked? e with
  | none => exact List.nil_subset _
  | some place =>
    obtain ⟨chain, walked, held⟩ := built_of_tracked? tracked
    exact List.Subset.trans place.2.inferredCalls_sublist.subset
      (Expr.methodCalls_of_built walked held)

theorem evaluatedCalls_of_value {stmt} :
    ∀ call ∈ s.evaluatedCalls stmt, ∃ e, stmt.value? = some e ∧ call ∈ e.methodCalls := by
  intro call inside
  cases stmt with
  | expr value line => exact ⟨value, rfl, s.advanceCalls_subset value inside⟩
  | branch condition holds fails line =>
    exact ⟨condition, rfl, s.advanceCalls_subset condition inside⟩
  | ret value line =>
    cases value with
    | none => cases inside
    | some value => exact ⟨value, rfl, s.advanceCalls_subset value inside⟩
  | assign name value line =>
    refine ⟨value, rfl, ?_⟩
    rcases List.mem_append.mp inside with inferred | advanced
    · exact value.inferredCalls_sublist.subset inferred
    · exact s.advanceCalls_subset value advanced

/-- A statement that fails leaves the scope as it was. Unless the index of an array item overflows, it
    fails, as inference does, with the fault of the first call among those evaluated that asks a
    builder for the text of a query which the builder rejects; such a call stands in the expression of
    the statement. -/
theorem failed_statement_changes_nothing (s : Scope) (stmt : Stmt) :
    (∀ after, stmt.run s = .ok () after ↔ s.apply stmt = .ok after) ∧
    (∀ fault after, stmt.run s = .error fault after ↔ s.apply stmt = .error fault ∧ after = s) ∧
    (s.apply stmt = .error (.breakdown .overflow) ∨ ∀ fault, s.apply stmt = .error fault ↔
      (s.evaluatedCalls stmt).findSome? s.rejection? = some fault) ∧
    (∀ e, s.typeOf e = .error (.breakdown .overflow) ∨ ∀ fault, s.typeOf e = .error fault ↔
      e.inferredCalls.findSome? s.rejection? = some fault) ∧
    (∀ call ∈ s.evaluatedCalls stmt, ∃ e, stmt.value? = some e ∧ call ∈ e.methodCalls) ∧
    (∀ e : Expr, e.inferredCalls.Sublist e.methodCalls) ∧
    ∀ call fault, s.rejection? call = some fault → ∃ method t calls, call.method = some method ∧
      Text.foldCase method = "getdql" ∧ s.typeOf call.receiver = .ok t ∧
      .builder calls ∈ t.members ∧ queryCandidates calls = .error fault := by
  refine ⟨fun after => ?_, fun fault after => ?_, (s.failsAt_apply stmt).error_iff,
    fun e => (s.failsAt_typeOf e).error_iff, evaluatedCalls_of_value,
    Expr.inferredCalls_sublist, fun _ _ => exists_of_rejection?⟩
  · rw [run_eq]
    cases s.apply stmt <;> simp [settle]
  · rw [run_eq]
    cases s.apply stmt <;> simp [settle, eq_comm]

end Scope

end EntityAudit
