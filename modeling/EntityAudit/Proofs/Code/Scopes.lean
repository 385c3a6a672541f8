import EntityAudit.Proofs.Builder.Known

/-! # Scopes along statements

Which variables an expression has to do with, and what evaluating an expression, an assignment or a
meeting of branches does to a variable.
-/

namespace EntityAudit

namespace Expr

mutual
def mentions (name : String) : Expr → Bool
  | .var other => other == name
  | .array items => mentionedByItem name items
  | .new _ args | .function _ args => mentionedByAny name args
  | .property object _ => mentions name object
  | .call receiver _ args => mentions name receiver || mentionedByAny name args
  | .dynamicCall receiver method args =>
    mentions name receiver || mentions name method || mentionedByAny name args
  | .concat left right => mentions name left || mentions name right
  | .null | .bool _ | .int _ | .text _ | .this | .classConst _ => false

def mentionedByAny (name : String) : List Expr → Bool
  | [] => false
  | e :: es => mentions name e || mentionedByAny name es

def mentionedByItem (name : String) : List (Option Expr × Expr) → Bool
  | [] => false
  | (none, value) :: items => mentions name value || mentionedByItem name items
  | (some key, value) :: items =>
    mentions name key || mentions name value || mentionedByItem name items
end

def root? : Expr → Option String
  | .var name => some name
  | .call receiver _ _ | .dynamicCall receiver _ _ => root? receiver
  | _ => none

end Expr

theorem Expr.root?_of_chain? : ∀ {e : Expr} {chain : Chain}, e.chain? = some chain →
    e.root? = some chain.root
  | .var name, chain, found => by
    cases found
    rfl
  | .call receiver method args, chain, found => by
    obtain ⟨inner, known, rfl⟩ := Option.map_eq_some_iff.mp found
    rw [Expr.root?, Expr.root?_of_chain? known]
    split <;> rfl
  | .dynamicCall receiver method args, chain, found => by
    obtain ⟨inner, known, rfl⟩ := Option.map_eq_some_iff.mp found
    rw [Expr.root?, Expr.root?_of_chain? known]

theorem Expr.mentions_of_root? : ∀ {e : Expr} {name : String}, e.root? = some name →
    e.mentions name = true
  | .var _, name, found => by
    cases found
    simp [Expr.mentions]
  | .call receiver method args, name, found => by
    have inner : receiver.mentions name = true := Expr.mentions_of_root? found
    rw [Expr.mentions, inner, Bool.true_or]
  | .dynamicCall receiver method args, name, found => by
    have inner : receiver.mentions name = true := Expr.mentions_of_root? found
    rw [Expr.mentions, inner, Bool.true_or, Bool.true_or]

theorem Expr.root?_of_not_mentions {e : Expr} {qb} (other : e.mentions qb = false) :
    e.root? ≠ some qb := by
  intro root
  rw [Expr.mentions_of_root? root] at other
  contradiction

mutual
theorem Expr.receiver_not_mentions {name} : ∀ {e : Expr}, e.mentions name = false →
    ∀ made ∈ e.methodCalls, made.receiver.mentions name = false
  | .call receiver method args, other, made, inside => by
    simp only [Expr.mentions, Bool.or_eq_false_iff] at other
    simp only [Expr.methodCalls, List.mem_append, List.mem_singleton] at inside
    rcases inside with (before | arg) | rfl
    · exact Expr.receiver_not_mentions other.1 made before
    · exact Expr.receiver_not_mentions_any other.2 made arg
    · exact other.1
  | .dynamicCall receiver method args, other, made, inside => by
    simp only [Expr.mentions, Bool.or_eq_false_iff] at other
    simp only [Expr.methodCalls, List.mem_append, List.mem_singleton] at inside
    rcases inside with ((before | computed) | arg) | rfl
    · exact Expr.receiver_not_mentions other.1.1 made before
    · exact Expr.receiver_not_mentions other.1.2 made computed
    · exact Expr.receiver_not_mentions_any other.2 made arg
    · exact other.1.1
  | .array items, other, made, inside => Expr.receiver_not_mentions_item other made inside
  | .new _ args, other, made, inside => Expr.receiver_not_mentions_any other made inside
  | .function _ args, other, made, inside => Expr.receiver_not_mentions_any other made inside
  | .property object _, other, made, inside =>
    Expr.receiver_not_mentions (e := object) other made inside
  | .concat left right, other, made, inside => by
    simp only [Expr.mentions, Bool.or_eq_false_iff] at other
    rcases List.mem_append.mp inside with first | second
    · exact Expr.receiver_not_mentions other.1 made first
    · exact Expr.receiver_not_mentions other.2 made second
  | .null, _, made, inside | .bool _, _, made, inside | .int _, _, made, inside
  | .text _, _, made, inside | .var _, _, made, inside | .this, _, made, inside
  | .classConst _, _, made, inside => by simp [Expr.methodCalls] at inside

theorem Expr.receiver_not_mentions_any {name} : ∀ {es : List Expr},
    Expr.mentionedByAny name es = false →
      ∀ made ∈ Expr.methodCallsOfAll es, made.receiver.mentions name = false
  | [], _, made, inside => by simp [Expr.methodCallsOfAll] at inside
  | e :: es, other, made, inside => by
    simp only [Expr.mentionedByAny, Bool.or_eq_false_iff] at other
    rcases List.mem_append.mp inside with first | rest
    · exact Expr.receiver_not_mentions other.1 made first
    · exact Expr.receiver_not_mentions_any other.2 made rest

theorem Expr.receiver_not_mentions_item {name} : ∀ {items : List (Option Expr × Expr)},
    Expr.mentionedByItem name items = false →
      ∀ made ∈ Expr.methodCallsOfItems items, made.receiver.mentions name = false
  | [], _, made, inside => by simp [Expr.methodCallsOfItems] at inside
  | (none, value) :: items, other, made, inside => by
    simp only [Expr.mentionedByItem, Bool.or_eq_false_iff] at other
    rcases List.mem_append.mp inside with first | rest
    · exact Expr.receiver_not_mentions other.1 made first
    · exact Expr.receiver_not_mentions_item other.2 made rest
  | (some key, value) :: items, other, made, inside => by
    simp only [Expr.mentionedByItem, Bool.or_eq_false_iff] at other
    simp only [Expr.methodCallsOfItems, List.mem_append] at inside
    rcases inside with (first | second) | rest
    · exact Expr.receiver_not_mentions other.1.1 made first
    · exact Expr.receiver_not_mentions other.1.2 made second
    · exact Expr.receiver_not_mentions_item other.2 made rest
end

namespace Scope

theorem keys_foldl_join {known entries : Dict Ty} (distinct : known.keys.Nodup) :
    (entries.foldl merge.join known).keys.Nodup := by
  induction entries generalizing known with
  | nil => exact distinct
  | cons entry entries ih =>
    refine ih ?_
    rw [merge.join]
    split <;> exact Dict.nodup_keys_put distinct _ _

/-- The type of a variable where two branches meet that give it the types `a` and `b`. -/
def meetTypes : Option Ty → Option Ty → Option Ty
  | some a, some b => some (.unite [a, b])
  | some a, none => some a
  | none, b => b

theorem get?_join (known : Dict Ty) (entry : String × Ty) (name : String) :
    (merge.join known entry).get? name =
      if entry.1 = name then meetTypes (known.get? name) (some entry.2) else known.get? name := by
  rw [merge.join]
  by_cases same : entry.1 = name
  · subst same
    cases found : known.get? entry.1 <;> simp [meetTypes]
  · cases found : known.get? entry.1 <;> simp [same]

theorem get?_foldl_join (known : Dict Ty) {entries : Dict Ty} (distinct : entries.keys.Nodup)
    (name : String) :
    (entries.foldl merge.join known).get? name =
      meetTypes (known.get? name) (entries.get? name) := by
  induction entries generalizing known with
  | nil => cases h : known.get? name <;> simp [Dict.get?, meetTypes, h]
  | cons entry entries ih =>
    obtain ⟨key, type⟩ := entry
    simp only [Dict.keys, List.map_cons, List.nodup_cons] at distinct
    rw [List.foldl_cons, ih _ distinct.2, get?_join, Dict.get?]
    by_cases same : key = name
    · subst same
      have absent := Dict.get?_eq_none_of_not_mem distinct.1
      rw [if_pos rfl, if_pos rfl, absent]
      cases known.get? key <;> rfl
    · rw [if_neg same, if_neg same]

theorem varType?_merge (s : Scope) {other} (distinct : other.locals.keys.Nodup) (name : String) :
    (s.merge other).varType? name = meetTypes (s.varType? name) (other.varType? name) :=
  get?_foldl_join s.locals distinct name

@[simp] theorem varType?_assign (s : Scope) (name other : String) (type : Ty) :
    (s.assign name type).varType? other = if name = other then some type else s.varType? other :=
  Dict.get?_put s.locals name other type

end Scope

theorem Scope.keys_ofMethod (table : ClassTable) (owner : Option ClassInfo)
    (params : List ParamDecl) : (Scope.ofMethod table owner params).locals.keys.Nodup := by
  have all : ∀ vars : Dict Ty, vars.keys.Nodup →
      (params.foldl (fun vars p => vars.put p.name p.type) vars).keys.Nodup := by
    induction params with
    | nil => exact fun _ distinct => distinct
    | cons p params ih => exact fun vars distinct => ih _ (Dict.nodup_keys_put distinct _ _)
  exact all [] List.nodup_nil

theorem Scope.typeOf_call {s : Scope} {receiver receiverType args types}
    (typed : s.typeOf receiver = .ok receiverType) (argsTyped : s.typesOf args = .ok types)
    (method : String) :
    s.typeOf (.call receiver method args) = s.table.callType receiverType method types := by
  rw [Scope.typeOf, typed, argsTyped]
  rfl

theorem Scope.typeOf_call_ok {s : Scope} {receiver method args t}
    (typed : s.typeOf (.call receiver method args) = .ok t) :
    ∃ receiverType types, s.typeOf receiver = .ok receiverType ∧ s.typesOf args = .ok types ∧
      s.table.callType receiverType method types = .ok t := by
  rw [Scope.typeOf] at typed
  cases first : s.typeOf receiver with
  | error fault => rw [first] at typed; cases typed
  | ok receiverType =>
    cases rest : s.typesOf args with
    | error fault => rw [first, rest] at typed; cases typed
    | ok types =>
      rw [first, rest] at typed
      exact ⟨receiverType, types, rfl, rfl, typed⟩

theorem Scope.isKnownBuilder_of_chain? {s : Scope} {root t} (found : s.varType? root = some t)
    (known : t.isKnownBuilder = true) :
    ∀ {e : Expr} {chain : Chain}, e.chain? = some chain → chain.root = root →
      (chain.isUnbroken = true → ∀ next, s.typeOf e = .ok next → next.isKnownBuilder = true) ∧
        ∀ built next, chain.built = some built → s.typeOf built = .ok next →
          next.isKnownBuilder = true
  | .var name, chain, walked, same => by
    cases walked
    subst same
    refine ⟨fun _ next typed => ?_, by simp⟩
    simp only [Scope.typeOf, found, Option.getD_some, Except.ok.injEq] at typed
    exact typed ▸ known
  | .call receiver method args, chain, walked, same => by
    obtain ⟨inner, below, rfl⟩ := Option.map_eq_some_iff.mp walked
    by_cases goes : (inner.isUnbroken && (BuilderMethod.ofName? method).isSome) = true
    · rw [if_pos goes] at same ⊢
      rw [Bool.and_eq_true] at goes
      obtain ⟨builderMethod, named⟩ := Option.isSome_iff_exists.mp goes.2
      have start := (Scope.isKnownBuilder_of_chain? found known below same).1 goes.1
      have whole : ∀ next, s.typeOf (.call receiver method args) = .ok next →
          next.isKnownBuilder = true := by
        intro next typed
        obtain ⟨receiverType, types, receiverTyped, -, called⟩ := Scope.typeOf_call_ok typed
        obtain ⟨_, result, still, -⟩ :=
          callType_builderMethod named s.table (start receiverType receiverTyped) types
        obtain rfl := Except.ok.inj (called.symm.trans result)
        exact still
      refine ⟨fun _ => whole, ?_⟩
      rintro _ next ⟨⟩ typed
      exact whole next typed
    · rw [if_neg goes] at same ⊢
      exact ⟨by simp, (Scope.isKnownBuilder_of_chain? found known below same).2⟩
  | .dynamicCall receiver method args, chain, walked, same => by
    obtain ⟨inner, below, rfl⟩ := Option.map_eq_some_iff.mp walked
    exact ⟨by simp, (Scope.isKnownBuilder_of_chain? found known below same).2⟩

theorem Scope.advance_cases {s after : Scope} {e} (passed : s.advance e = .ok after) :
    after = s ∨ ∃ chain built old new, e.chain? = some chain ∧ chain.built = some built ∧
      s.varType? chain.root = some old ∧ old.isBuilder = true ∧ s.typeOf built = .ok new ∧
        after = s.assign chain.root new := by
  rw [Scope.advance] at passed
  split at passed
  · rename_i root built unbroken walked
    split at passed
    · rename_i tracked
      cases found : s.varType? root with
      | none => simp [found] at tracked
      | some old =>
        rw [found] at tracked
        cases typed : s.typeOf built with
        | error fault => rw [typed] at passed; cases passed
        | ok new =>
          rw [typed] at passed
          simp only [bind, Except.bind, pure, Except.pure, Except.ok.injEq] at passed
          split at passed
          · exact .inr ⟨_, built, old, new, walked, rfl, found, tracked, typed, passed.symm⟩
          · exact .inl passed.symm
    · exact .inl (Except.ok.inj passed).symm
  · exact .inl (Except.ok.inj passed).symm

theorem Scope.varType?_advance {s after : Scope} {e} (passed : s.advance e = .ok after) {name}
    (other : e.mentions name = false) : after.varType? name = s.varType? name := by
  rcases Scope.advance_cases passed with rfl | ⟨chain, _, _, new, walked, -, -, -, -, rfl⟩
  · rfl
  · have differs : chain.root ≠ name := by
      rintro rfl
      have occurs := Expr.mentions_of_root? (Expr.root?_of_chain? walked)
      rw [occurs] at other
      contradiction
    simp [differs]

theorem Scope.pass_assign {s after : Scope} {value type} (typed : s.typeOf value = .ok type)
    (passed : s.advance value = .ok after) (name : String) (line : Nat) :
    s.pass (.assign name value line) = after.assign name type := by
  simp only [Scope.pass, Scope.apply, typed, passed]
  rfl

theorem Scope.pass_assign_cases (s : Scope) (name : String) (value : Expr) (line : Nat) :
    s.pass (.assign name value line) = s ∨
      ∃ type after, s.advance value = .ok after ∧
        s.pass (.assign name value line) = after.assign name type := by
  cases typed : s.typeOf value with
  | error fault =>
    left
    simp only [Scope.pass, Scope.apply, typed]
    rfl
  | ok type =>
    cases passed : s.advance value with
    | error fault =>
      left
      simp only [Scope.pass, Scope.apply, typed, passed]
      rfl
    | ok after => exact .inr ⟨type, after, rfl, Scope.pass_assign typed passed name line⟩

theorem Scope.typeOf_built {s : Scope} : ∀ {e built : Expr} {chain : Chain} {t : Ty},
    e.chain? = some chain → chain.built = some built → s.typeOf e = .ok t → t ≠ .mixed →
      ∃ builtType, s.typeOf built = .ok builtType
  | .var name, built, chain, t, walked, own, _, _ => by
    cases walked
    contradiction
  | .call receiver method args, built, chain, t, walked, own, typed, definite => by
    obtain ⟨inner, below, rfl⟩ := Option.map_eq_some_iff.mp walked
    split at own
    · cases own
      exact ⟨t, typed⟩
    · obtain ⟨receiverType, types, receiverTyped, -, called⟩ := Scope.typeOf_call_ok typed
      refine Scope.typeOf_built below own receiverTyped ?_
      rintro rfl
      rw [callType_of_not_union rfl] at called
      exact definite (Except.ok.inj called).symm
  | .dynamicCall receiver method args, built, chain, t, walked, own, typed, definite =>
    absurd (Except.ok.inj typed).symm definite

theorem Scope.advance_of_typeOf {s : Scope} {e t} (typed : s.typeOf e = .ok t)
    (definite : t ≠ .mixed) : ∃ after, s.advance e = .ok after := by
  rw [Scope.advance]
  split
  · rename_i root built unbroken walked
    obtain ⟨builtType, builtTyped⟩ := Scope.typeOf_built walked rfl typed definite
    split
    · rw [builtTyped]
      exact ⟨_, rfl⟩
    · exact ⟨s, rfl⟩
  · exact ⟨s, rfl⟩

end EntityAudit
