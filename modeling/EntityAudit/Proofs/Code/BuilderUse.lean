import EntityAudit.Proofs.Code.Paths
import EntityAudit.Proofs.Code.Scopes

/-! # Uses of a builder

The calls that an expression makes on a builder in a variable, and the methods whose builder can be
followed: after its first statement they use it only in chains of builder calls with steady
arguments, in reassignments, or to ask for the query.
-/

namespace EntityAudit

variable {fixed : List String}

namespace Expr

mutual
/-- Whether an expression is written as a value: a scalar, the name of a class, or an array of
    such values. -/
def isLiteral : Expr → Bool
  | .null | .bool _ | .int _ | .text _ | .classConst _ => true
  | .array items => areLiteralItems items
  | _ => false

def areLiteralItems : List (Option Expr × Expr) → Bool
  | [] => true
  | (none, value) :: items => isLiteral value && areLiteralItems items
  | (some key, value) :: items => isLiteral key && isLiteral value && areLiteralItems items
end

/-- The builder calls of a chain, from the first to the last. Asking for the query at the end is no
    builder call, and the calls before a builder is opened are made on something else. -/
def builderCalls : Expr → List (BuilderCall Expr)
  | .call receiver method args =>
    match BuilderMethod.ofName? method with
    | some builderMethod => builderCalls receiver ++ [⟨builderMethod, args⟩]
    | none => if asksForQuery method then builderCalls receiver else []
  | _ => []

end Expr

/-- The builder calls of an event that are made on the builder in the variable `qb`. -/
def Event.builderCalls (qb : String) : Event → List (BuilderCall Expr)
  | .eval value => if value.root? = some qb then value.builderCalls else []
  | .assign name value =>
    if name = qb ∨ value.root? = some qb then value.builderCalls else []

/-- The type of an argument; nothing is known about one that is rejected. -/
def Scope.argType (s : Scope) (arg : Expr) : Ty :=
  match s.typeOf arg with
  | .ok type => type
  | .error _ => .mixed

def Scope.record (s : Scope) (call : BuilderCall Expr) : BuilderCall Ty :=
  ⟨call.method, call.args.map s.argType⟩

/-- The builder calls made on a path, with arguments as they are at the start of the method. -/
def Path.shape (start : Scope) (qb : String) (path : Path) : List (BuilderCall Ty) :=
  (path.flatMap (·.builderCalls qb)).map start.record

/-- What a path comes to for the query of the chain `receiver` at its end. -/
def Path.outcome (start : Scope) (qb : String) (receiver : Expr) (path : Path) :
    Except Fault (Option (List String)) :=
  queryCandidates (path.shape start qb ++ receiver.builderCalls.map start.record)

/-- Whether an argument is the same wherever it stands: one of the `fixed` variables, or a literal
    in which no index overflows. -/
def Expr.isSteady (fixed : List String) : Expr → Bool
  | .var name => fixed.contains name
  | e => e.isLiteral && (Scope.typeOf { table := {} } e).isOk

/-- Whether an expression is a chain of builder calls on the variable `qb`. -/
def Expr.isBuilderChain (fixed : List String) (qb : String) : Expr → Bool
  | .var name => name == qb
  | .call receiver method args =>
    receiver.isBuilderChain fixed qb && (BuilderMethod.ofName? method).isSome &&
      args.all (·.isSteady fixed)
  | _ => false

/-- Whether an expression is a chain of builder calls on the variable `qb`, possibly with the query
    asked for at its end. -/
def Expr.isBuilderUse (fixed : List String) (qb : String) : Expr → Bool
  | .call receiver method args =>
    (Expr.call receiver method args).isBuilderChain fixed qb ||
      asksForQuery method && args.isEmpty && receiver.isBuilderChain fixed qb
  | e => e.isBuilderChain fixed qb

/-- Whether an event uses the builder in the variable `qb` in one of the styles that are followed,
    or has nothing to do with it. -/
def Event.isFollowed (fixed : List String) (qb : String) : Event → Bool
  | .eval value => value.isBuilderUse fixed qb || !value.mentions qb
  | .assign name value =>
    if name = qb then value.isBuilderChain fixed qb else !value.mentions qb

def Ty.isManager (table : ClassTable) (t : Ty) : Bool :=
  !t.members.isEmpty && t.members.all fun
    | .object name args =>
      table.descends ⟨name, args⟩ ClassName.objectManager &&
        !table.descends ⟨name, args⟩ ClassName.queryBuilder
    | _ => false

/-- Whether an expression opens a builder of an entity manager, possibly with builder calls made on
    it at once. -/
def Scope.opensBuilder (s : Scope) (fixed : List String) : Expr → Bool
  | .call receiver method args =>
    if (BuilderMethod.ofName? method).isSome then
      s.opensBuilder fixed receiver && args.all (·.isSteady fixed)
    else
      Text.sameFold method "createQueryBuilder" && args.isEmpty &&
        match s.typeOf receiver with
        | .ok type => type.isManager s.table
        | .error _ => false
  | _ => false

def Event.assigns (name : String) : Event → Bool
  | .eval _ => false
  | .assign other _ => other == name

def Scope.unassignedParams (start : Scope) (body : List Stmt) : List String :=
  start.locals.keys.filter fun name => (Stmt.eventsAll body).all (!·.assigns name)

/-- The parameters that a body never assigns, of those with a type in merged form. -/
def Scope.fixedParams (start : Scope) (body : List Stmt) : List String :=
  (start.unassignedParams body).filter fun name =>
    ((start.varType? name).map Ty.isMerged).getD false

/-- Whether a body opens a builder in the variable `qb` in its first statement and uses that
    variable only in ways that are followed afterwards, with `fixed` variables for arguments. -/
def Scope.tracksBuilder (start : Scope) (fixed : List String) (qb : String) : List Stmt → Bool
  | .assign name value _ :: rest =>
    name == qb && start.opensBuilder fixed value &&
      (Stmt.eventsAll rest).all (·.isFollowed fixed qb)
  | _ => false

theorem Scope.tracksBuilder_iff {start : Scope} {qb body} :
    start.tracksBuilder fixed qb body = true ↔
      ∃ value line rest, body = .assign qb value line :: rest ∧
        start.opensBuilder fixed value = true ∧
        ∀ event ∈ Stmt.eventsAll rest, event.isFollowed fixed qb = true := by
  unfold tracksBuilder
  split
  next name value line rest =>
    simp only [Bool.and_eq_true, beq_iff_eq, List.all_eq_true]
    constructor
    · rintro ⟨⟨rfl, opens⟩, followed⟩
      exact ⟨value, line, rest, rfl, opens, followed⟩
    · rintro ⟨_, _, _, ⟨⟩, opens, followed⟩
      exact ⟨⟨rfl, opens⟩, followed⟩
  next other =>
    constructor
    · exact fun no => absurd no Bool.false_ne_true
    · rintro ⟨value, line, rest, rfl, -⟩
      exact (other _ _ _ _ rfl).elim

/-- Whether a site asks for the query of the builder in the variable `qb`. -/
def Site.asksFor (qb : String) (site : Site) : Bool :=
  (site.call.method.map asksForQuery).getD false && site.call.receiver.root? == some qb

mutual
theorem Expr.typeOf_of_isLiteral (s other : Scope) : ∀ {e : Expr}, e.isLiteral = true →
    s.typeOf e = other.typeOf e
  | .null, _ | .bool _, _ | .int _, _ | .text _, _ | .classConst _, _ => rfl
  | .array items, literal => by
    rw [Scope.typeOf, Scope.typeOf, Expr.addItems_of_areLiteral s other literal]

theorem Expr.addItems_of_areLiteral (s other : Scope) {draft} :
    ∀ {items : List (Option Expr × Expr)}, Expr.areLiteralItems items = true →
      s.addItems draft items = other.addItems draft items
  | [], _ => rfl
  | (none, value) :: items, literal => by
    simp only [Expr.areLiteralItems, Bool.and_eq_true] at literal
    simp only [Scope.addItems, Expr.typeOf_of_isLiteral s other literal.1,
      Expr.addItems_of_areLiteral s other literal.2]
  | (some key, value) :: items, literal => by
    simp only [Expr.areLiteralItems, Bool.and_eq_true] at literal
    simp only [Scope.addItems, Expr.typeOf_of_isLiteral s other literal.1.1,
      Expr.typeOf_of_isLiteral s other literal.1.2, Expr.addItems_of_areLiteral s other literal.2]
end

mutual
theorem Expr.methodCalls_of_isLiteral : ∀ {e : Expr}, e.isLiteral = true → e.methodCalls = []
  | .null, _ | .bool _, _ | .int _, _ | .text _, _ | .classConst _, _ => rfl
  | .array _, literal => Expr.methodCallsOfItems_of_areLiteral literal

theorem Expr.methodCallsOfItems_of_areLiteral : ∀ {items : List (Option Expr × Expr)},
    Expr.areLiteralItems items = true → Expr.methodCallsOfItems items = []
  | [], _ => rfl
  | (none, value) :: items, literal => by
    simp only [Expr.areLiteralItems, Bool.and_eq_true] at literal
    rw [Expr.methodCallsOfItems, Expr.methodCalls_of_isLiteral literal.1,
      Expr.methodCallsOfItems_of_areLiteral literal.2, List.append_nil]
  | (some key, value) :: items, literal => by
    simp only [Expr.areLiteralItems, Bool.and_eq_true] at literal
    rw [Expr.methodCallsOfItems, Expr.methodCalls_of_isLiteral literal.1.1,
      Expr.methodCalls_of_isLiteral literal.1.2,
      Expr.methodCallsOfItems_of_areLiteral literal.2, List.append_nil, List.append_nil]
end

theorem Expr.isSteady_cases {e} (steady : e.isSteady fixed = true) :
    (∃ name ∈ fixed, e = .var name) ∨
      e.isLiteral = true ∧ ∃ t, ∀ s : Scope, s.typeOf e = .ok t := by
  unfold isSteady at steady
  split at steady
  next name => exact .inl ⟨name, List.contains_iff_mem.mp steady, rfl⟩
  next =>
    rw [Bool.and_eq_true] at steady
    refine .inr ⟨steady.1, ?_⟩
    cases typed : Scope.typeOf { table := {} } e with
    | error => rw [typed] at steady; cases steady.2
    | ok t => exact ⟨t, fun s => (Expr.typeOf_of_isLiteral s _ steady.1).trans typed⟩

theorem Expr.methodCallsOfAll_of_isSteady {args} (steady : args.all (·.isSteady fixed) = true) :
    Expr.methodCallsOfAll args = [] := by
  induction args with
  | nil => rfl
  | cons arg args ih =>
    rw [List.all_cons, Bool.and_eq_true] at steady
    have first : arg.methodCalls = [] := by
      rcases Expr.isSteady_cases steady.1 with ⟨name, -, rfl⟩ | ⟨literal, -⟩
      · rfl
      · exact Expr.methodCalls_of_isLiteral literal
    rw [Expr.methodCallsOfAll, first, ih steady.2, List.append_nil]

theorem BuilderMethod.ofName?_of_asksForQuery {method} (asks : asksForQuery method = true) :
    ofName? method = none := by
  rw [ofName?_congr asks]
  decide

theorem asksForQuery_of_createQueryBuilder {method}
    (named : Text.sameFold method "createQueryBuilder" = true) : asksForQuery method = false := by
  have folded := Text.sameFold_iff.mp named
  rw [asksForQuery, Text.sameFold, folded]
  decide

theorem Expr.chain?_of_isBuilderChain {qb} :
    ∀ {e : Expr}, e.isBuilderChain fixed qb = true →
      ∃ built, e.chain? = some ⟨qb, built, true⟩ ∧ (built = some e ∨ built = none ∧ e = .var qb)
  | .var name, chain => by
    obtain rfl : name = qb := by simpa [Expr.isBuilderChain] using chain
    exact ⟨none, rfl, .inr ⟨rfl, rfl⟩⟩
  | .call receiver method args, chain => by
    simp only [Expr.isBuilderChain, Bool.and_eq_true] at chain
    obtain ⟨built, known, -⟩ := Expr.chain?_of_isBuilderChain chain.1.1
    refine ⟨some (.call receiver method args), ?_, .inl rfl⟩
    simp [Expr.chain?, known, chain.1.2]

theorem Expr.root?_of_isBuilderChain {qb} {e : Expr} (builds : e.isBuilderChain fixed qb = true) :
    e.root? = some qb := by
  obtain ⟨built, walked, -⟩ := Expr.chain?_of_isBuilderChain builds
  exact Expr.root?_of_chain? walked

theorem Expr.chain_of_isBuilderUse {qb e} (use : e.isBuilderUse fixed qb = true) :
    ∃ chain, chain.isBuilderChain fixed qb = true ∧ e.builderCalls = chain.builderCalls ∧
      (∀ s : Scope, s.advance e = s.advance chain) ∧ e.root? = some qb := by
  by_cases builds : e.isBuilderChain fixed qb = true
  · exact ⟨e, builds, rfl, fun _ => rfl, Expr.root?_of_isBuilderChain builds⟩
  · cases e with
    | call receiver method args =>
      simp only [Expr.isBuilderUse, builds, Bool.false_or, Bool.and_eq_true] at use
      obtain ⟨⟨asks, -⟩, inner⟩ := use
      have other := BuilderMethod.ofName?_of_asksForQuery asks
      have calls : (Expr.call receiver method args).builderCalls = receiver.builderCalls := by
        simp [Expr.builderCalls, other, asks]
      have root : (Expr.call receiver method args).root? = some qb := by
        rw [Expr.root?, Expr.root?_of_isBuilderChain inner]
      refine ⟨receiver, inner, calls, fun s => ?_, root⟩
      obtain ⟨built, walked, -⟩ := Expr.chain?_of_isBuilderChain inner
      have outer : (Expr.call receiver method args).chain? = some ⟨qb, built, false⟩ := by
        simp [Expr.chain?, walked, other]
      rw [Scope.advance, Scope.advance, walked, outer]
      cases built <;> rfl
    | _ => exact absurd use builds

theorem Expr.method_of_isBuilderChain {qb} :
    ∀ {e : Expr}, e.isBuilderChain fixed qb = true → ∀ made ∈ e.methodCalls,
      ∃ method, made.method = some method ∧ (BuilderMethod.ofName? method).isSome = true
  | .var name, _, made, inside => by simp [Expr.methodCalls] at inside
  | .call receiver method args, builds, made, inside => by
    simp only [Expr.isBuilderChain, Bool.and_eq_true] at builds
    rw [Expr.methodCalls, Expr.methodCallsOfAll_of_isSteady builds.2, List.append_nil,
      List.mem_append, List.mem_singleton] at inside
    rcases inside with earlier | rfl
    · exact Expr.method_of_isBuilderChain builds.1.1 made earlier
    · exact ⟨method, rfl, builds.1.2⟩

/-- Where followed code asks for the query of the builder, it does so at the end of a chain. -/
theorem Event.receiver_isBuilderChain {qb : String} {event : Event}
    (followed : event.isFollowed fixed qb = true) {call : MethodCall}
    (inside : call ∈ event.value.methodCalls)
    (asks : (call.method.map asksForQuery).getD false = true)
    (root : call.receiver.root? = some qb) :
    call.receiver.isBuilderChain fixed qb = true := by
  have outside : ∀ {e : Expr}, e.isBuilderChain fixed qb = true → call ∉ e.methodCalls := by
    intro e builds member
    obtain ⟨method, named, isMethod⟩ := Expr.method_of_isBuilderChain builds call member
    rw [named, Option.map_some, Option.getD_some] at asks
    rw [BuilderMethod.ofName?_of_asksForQuery asks] at isMethod
    contradiction
  have mentioned : event.value.mentions qb = true := by
    by_contra other
    have absent := Expr.receiver_not_mentions (Bool.not_eq_true _ |>.mp other) call inside
    rw [Expr.mentions_of_root? root] at absent
    contradiction
  cases event with
  | assign name value =>
    by_cases own : name = qb
    · rw [Event.isFollowed, if_pos own] at followed
      exact absurd inside (outside followed)
    · rw [Event.isFollowed, if_neg own] at followed
      rw [Event.value] at mentioned
      rw [mentioned] at followed
      contradiction
  | eval value =>
    rw [Event.value] at mentioned inside
    rw [Event.isFollowed, mentioned, Bool.not_true, Bool.or_false] at followed
    cases value with
    | call receiver method args =>
      simp only [Expr.isBuilderUse, Bool.or_eq_true, Bool.and_eq_true, List.isEmpty_iff]
        at followed
      rcases followed with builds | ⟨⟨-, rfl⟩, inner⟩
      · exact absurd inside (outside builds)
      · simp only [Expr.methodCalls, Expr.methodCallsOfAll, List.append_nil, List.mem_append,
          List.mem_singleton] at inside
        rcases inside with earlier | rfl
        · exact absurd earlier (outside inner)
        · exact inner
    | _ => exact absurd inside (outside followed)

end EntityAudit
