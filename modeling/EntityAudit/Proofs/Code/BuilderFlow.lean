import EntityAudit.Proofs.Code.BuilderUse

/-! # Builders along paths

A method opens a builder in a variable and calls it in any mixture of styles. Where the query is
asked for, the texts found are those of the paths to that place: each path is replayed with the
builder calls made on it, and no text is lost or invented where branches meet.
-/

namespace EntityAudit

variable {name : String}

/-- A scope has the `fixed` variables as the scope `start` has them. -/
structure Scope.Keeps (start : Scope) (fixed : List String) (s : Scope) : Prop where
  distinct : s.locals.keys.Nodup
  /-- A fixed variable is in merged form and still has its type. -/
  like : ∀ name ∈ fixed, ∃ declared t, start.varType? name = some declared ∧
    declared.isMerged = true ∧ s.varType? name = some t ∧ declared.IsLike t

namespace Scope.Keeps

variable {start s other : Scope} {fixed : List String}

theorem assign (keeps : start.Keeps fixed s) {type : Ty} (allowed : name ∈ fixed → ∀ declared,
      start.varType? name = some declared → declared.IsLike type) :
    start.Keeps fixed (s.assign name type) where
  distinct := Dict.nodup_keys_put keeps.distinct name type
  like := by
    intro own inside
    obtain ⟨declared, t, known, merged, found, like⟩ := keeps.like own inside
    by_cases same : name = own
    · subst same
      exact ⟨declared, type, known, merged, by simp, allowed inside declared known⟩
    · exact ⟨declared, t, known, merged, by simpa [same] using found, like⟩

theorem merge (keeps : start.Keeps fixed s) (others : start.Keeps fixed other) :
    start.Keeps fixed (s.merge other) where
  distinct := Scope.keys_foldl_join keeps.distinct
  like := by
    intro name inside
    obtain ⟨declared, a, known, merged, first, likeFirst⟩ := keeps.like name inside
    obtain ⟨_, b, again, -, second, likeSecond⟩ := others.like name inside
    obtain rfl : declared = _ := Option.some.inj (known.symm.trans again)
    refine ⟨declared, .unite [a, b], known, merged, ?_, likeFirst.unite merged likeSecond⟩
    rw [Scope.varType?_merge s others.distinct, first, second, Scope.meetTypes]

theorem typeOf_isSteady (keeps : start.Keeps fixed s) {e} (steady : e.isSteady fixed = true) :
    ∃ t, s.typeOf e = .ok t ∧ Literal.choices? t = Literal.choices? (start.argType e) := by
  rcases Expr.isSteady_cases steady with ⟨name, inside, rfl⟩ | ⟨-, t, typed⟩
  · obtain ⟨declared, t, known, -, found, like⟩ := keeps.like name inside
    have declaredType : start.argType (.var name) = declared := by
      simp [Scope.argType, Scope.typeOf, known]
    exact ⟨t, by simp [Scope.typeOf, found], declaredType ▸ like.choices?⟩
  · exact ⟨t, typed s, by rw [Scope.argType, typed start]⟩

theorem typesOf_isSteady (keeps : start.Keeps fixed s) {args}
    (steady : args.all (·.isSteady fixed) = true) :
    ∃ types, s.typesOf args = .ok types ∧
      types.map Literal.choices? = (args.map start.argType).map Literal.choices? := by
  induction args with
  | nil => exact ⟨[], rfl, rfl⟩
  | cons arg args ih =>
    rw [List.all_cons, Bool.and_eq_true] at steady
    obtain ⟨t, typed, same⟩ := keeps.typeOf_isSteady steady.1
    obtain ⟨types, rest, others⟩ := ih steady.2
    refine ⟨t :: types, by rw [Scope.typesOf, typed, rest]; rfl, ?_⟩
    rw [List.map_cons, List.map_cons, List.map_cons, same, others]

theorem advance (keeps : start.Keeps fixed s) {after e} (passed : s.advance e = .ok after) :
    start.Keeps fixed after := by
  rcases Scope.advance_cases passed with
    rfl | ⟨chain, built, old, new, walked, own, found, tracked, typed, rfl⟩
  · exact keeps
  · refine keeps.assign fun inside declared known => ?_
    obtain ⟨_, t, again, merged, had, like⟩ := keeps.like chain.root inside
    obtain rfl : declared = _ := Option.some.inj (known.symm.trans again)
    obtain rfl : old = t := Option.some.inj (found.symm.trans had)
    obtain ⟨before, now⟩ := like.isKnownBuilder merged tracked
    exact .inr ⟨before, (Scope.isKnownBuilder_of_chain? found now walked rfl).2 built new own typed⟩

theorem typeOf_isBuilderChain (keeps : start.Keeps fixed s) {qb t shapes}
    (found : s.varType? qb = some t) (represents : t.Represents shapes) :
    ∀ {e : Expr}, e.isBuilderChain fixed qb = true →
      ∃ next, s.typeOf e = .ok next ∧
        next.Represents (shapes.map (· ++ e.builderCalls.map start.record))
  | .var name, chain => by
    obtain rfl : name = qb := by simpa [Expr.isBuilderChain] using chain
    exact ⟨t, by simp [Scope.typeOf, found], by simpa [Expr.builderCalls] using represents⟩
  | .call receiver method args, chain => by
    simp only [Expr.isBuilderChain, Bool.and_eq_true] at chain
    obtain ⟨⟨inner, isMethod⟩, steady⟩ := chain
    obtain ⟨builderMethod, named⟩ := Option.isSome_iff_exists.mp isMethod
    obtain ⟨before, typed, already⟩ := typeOf_isBuilderChain keeps found represents inner
    obtain ⟨types, argsTyped, same⟩ := keeps.typesOf_isSteady steady
    obtain ⟨next, called, now⟩ := already.call named s.table same
    refine ⟨next, (Scope.typeOf_call typed argsTyped method).trans called, ?_⟩
    simpa [Expr.builderCalls, named, Scope.record, Function.comp_def] using now

end Scope.Keeps

/-- A scope has the builder of the variable `qb` as the paths to it have made it. -/
structure Scope.Tracks (start : Scope) (fixed : List String) (qb : String) (s : Scope)
    (paths : List Path) : Prop where
  /-- The fixed variables are as they were. -/
  keeps : start.Keeps fixed s
  /-- The type of the variable stands for the calls made on the paths. -/
  builder : ∃ t, s.varType? qb = some t ∧ t.Represents (paths.map (Path.shape start qb))

theorem Path.shape_append (start : Scope) (qb : String) (path : Path) (event : Event) :
    Path.shape start qb (path ++ [event]) =
      path.shape start qb ++ (event.builderCalls qb).map start.record := by
  simp [Path.shape]

namespace Scope.Tracks

variable {start s : Scope} {fixed : List String} {qb : String} {before : List Path}

theorem step {after event} (keeps : start.Keeps fixed after) {t}
    (found : after.varType? qb = some t)
    (represents : t.Represents ((before.map (Path.shape start qb)).map
      (· ++ (event.builderCalls qb).map start.record))) :
    start.Tracks fixed qb after (Path.follow before [[event]]) where
  keeps := keeps
  builder := by
    refine ⟨t, found, ?_⟩
    simpa [Path.follow_singleton, Function.comp_def, Path.shape_append] using represents

theorem frame (tracks : start.Tracks fixed qb s before) {after event}
    (keeps : start.Keeps fixed after) (same : after.varType? qb = s.varType? qb)
    (nothing : event.builderCalls qb = []) :
    start.Tracks fixed qb after (Path.follow before [[event]]) := by
  obtain ⟨t, found, represents⟩ := tracks.builder
  refine step keeps (same.trans found) ?_
  simpa [nothing, Function.comp_def] using represents

theorem advance_isBuilderChain (tracks : start.Tracks fixed qb s before) {e}
    (builds : e.isBuilderChain fixed qb = true) :
    ∃ after next, s.advance e = .ok after ∧ s.typeOf e = .ok next ∧
      start.Keeps fixed after ∧ after.varType? qb = some next ∧
        next.Represents ((before.map (Path.shape start qb)).map
          (· ++ e.builderCalls.map start.record)) := by
  obtain ⟨t, found, represents⟩ := tracks.builder
  obtain ⟨next, typed, now⟩ := tracks.keeps.typeOf_isBuilderChain found represents builds
  obtain ⟨built, walked, rfl | ⟨rfl, rfl⟩⟩ := Expr.chain?_of_isBuilderChain builds
  · have passed : s.advance e = .ok (s.assign qb next) := by
      simp [Scope.advance, walked, found, Ty.isBuilder_of_isKnownBuilder represents.known, typed,
        Ty.isBuilder_of_isKnownBuilder now.known]
    exact ⟨_, next, passed, typed, tracks.keeps.advance passed, by simp, now⟩
  · have same : next = t := by simpa [Scope.typeOf, found, eq_comm] using typed
    exact ⟨s, next, by simp [Scope.advance, walked], typed, tracks.keeps, same ▸ found, now⟩

theorem eval (tracks : start.Tracks fixed qb s before) {value}
    (followed : (Event.eval value).isFollowed fixed qb = true) (line : Nat) :
    start.Tracks fixed qb (s.pass (.expr value line)) (Path.follow before [[.eval value]]) := by
  rw [Scope.pass, Scope.apply]
  by_cases use : value.isBuilderUse fixed qb = true
  · obtain ⟨chain, builds, calls, same, root⟩ := Expr.chain_of_isBuilderUse use
    obtain ⟨after, next, passed, -, keeps, found, represents⟩ :=
      tracks.advance_isBuilderChain builds
    have event : (Event.eval value).builderCalls qb = chain.builderCalls := by
      simp [Event.builderCalls, root, calls]
    rw [same, passed]
    exact step keeps found (event ▸ represents)
  · have other : value.mentions qb = false := by
      simpa [Event.isFollowed, use] using followed
    have nothing : (Event.eval value).builderCalls qb = [] := by
      simp [Event.builderCalls, Expr.root?_of_not_mentions other]
    cases passed : s.advance value with
    | error fault => exact tracks.frame tracks.keeps rfl nothing
    | ok after =>
      exact tracks.frame (tracks.keeps.advance passed) (Scope.varType?_advance passed other)
        nothing

theorem assign (tracks : start.Tracks fixed qb s before) {value}
    (followed : (Event.assign name value).isFollowed fixed qb = true) (free : name ∉ fixed)
    (line : Nat) :
    start.Tracks fixed qb (s.pass (.assign name value line))
      (Path.follow before [[.assign name value]]) := by
  by_cases own : name = qb
  · subst own
    have builds : value.isBuilderChain fixed name = true := by
      simpa [Event.isFollowed] using followed
    obtain ⟨after, next, passed, typed, keeps, -, represents⟩ :=
      tracks.advance_isBuilderChain builds
    have event : (Event.assign name value).builderCalls name = value.builderCalls := by
      simp [Event.builderCalls]
    rw [Scope.pass_assign typed passed]
    exact step (keeps.assign fun inside => absurd inside free) (by simp)
      (event ▸ represents)
  · have other : value.mentions qb = false := by
      simpa [Event.isFollowed, own] using followed
    have nothing : (Event.assign name value).builderCalls qb = [] := by
      simp [Event.builderCalls, own, Expr.root?_of_not_mentions other]
    rcases s.pass_assign_cases name value line with same | ⟨type, after, passed, same⟩
    · rw [same]
      exact tracks.frame tracks.keeps rfl nothing
    · rw [same]
      refine tracks.frame ((tracks.keeps.advance passed).assign
        fun inside => absurd inside free) ?_ nothing
      simp [own, Scope.varType?_advance passed other]

theorem merge {other first second both} (left : start.Tracks fixed qb s first)
    (right : start.Tracks fixed qb other second)
    (all : ∀ path, path ∈ both ↔ path ∈ first ∨ path ∈ second) :
    start.Tracks fixed qb (s.merge other) both := by
  obtain ⟨a, found, represents⟩ := left.builder
  obtain ⟨b, again, others⟩ := right.builder
  refine ⟨left.keeps.merge right.keeps,
    ⟨.unite [a, b], ?_, represents.unite others fun shape => ?_⟩⟩
  · rw [Scope.varType?_merge s right.keeps.distinct, found, again, Scope.meetTypes]
  · simp only [List.mem_map, all]
    grind

end Scope.Tracks

/-- Events that are followed and do not assign the fixed variables keep track of the builder. -/
theorem Scope.Tracks.flowInvariant (start : Scope) (fixed : List String) (qb : String) :
    FlowInvariant (fun event => event.isFollowed fixed qb = true ∧
      ∀ name ∈ fixed, event.assigns name = false) (start.Tracks fixed qb) where
  eval line allowed tracks := tracks.eval allowed.1 line
  assign line allowed tracks :=
    tracks.assign allowed.1 (fun inside => by simpa [Event.assigns] using allowed.2 _ inside) line
  merge left right all := left.merge right all

theorem Ty.Represents.unite_fresh {types} (some : types ≠ [])
    (fresh : ∀ t ∈ types, t = .builder []) :
    (Ty.unite types).Represents [[]] := by
  have known : ∀ t ∈ types, t.isKnownBuilder = true := by
    intro t inside
    rw [fresh t inside]
    rfl
  obtain ⟨united, members⟩ := Ty.unite_knownBuilders some known
  refine ⟨united, fun outline => ?_⟩
  constructor
  · rintro ⟨calls, member, rfl⟩
    obtain ⟨t, inside, own⟩ := (members _).mp member
    rw [fresh t inside] at own
    obtain rfl : calls = [] := by simpa [Ty.members] using own
    exact ⟨[], by simp, rfl⟩
  · rintro ⟨shape, only, rfl⟩
    obtain rfl : shape = [] := by simpa using only
    obtain ⟨t, inside⟩ := List.exists_mem_of_ne_nil _ some
    exact ⟨[], (members _).mpr ⟨t, inside, by simp [fresh t inside, Ty.members]⟩, rfl⟩

theorem mapM_eq_ok {ε α β : Type} {f : α → Except ε β} {g : α → β} {xs : List α}
    (all : ∀ x ∈ xs, f x = .ok (g x)) : xs.mapM f = .ok (xs.map g) := by
  induction xs with
  | nil => rfl
  | cons x xs ih =>
    rw [List.mapM_cons, all x (by simp), ih fun y inside => all y (by simp [inside])]
    rfl

theorem callType_createQueryBuilder {table : ClassTable} {t : Ty}
    (manager : t.isManager table = true)
    {method : String} (named : Text.sameFold method "createQueryBuilder" = true) :
    ∃ opened, table.callType t method [] = .ok opened ∧ opened.Represents [[]] := by
  have folded : Text.foldCase method = "createquerybuilder" :=
    (Text.sameFold_iff.mp named).trans (by decide)
  simp only [Ty.isManager, Bool.and_eq_true, Bool.not_eq_true', List.isEmpty_eq_false_iff,
    List.all_eq_true] at manager
  obtain ⟨some, managers⟩ := manager
  have opens : ∀ m ∈ t.members, table.callOn m method [] = .ok (.builder []) := by
    intro m inside
    have descends := managers m inside
    cases m with
    | object name args =>
      simp only [Bool.and_eq_true, Bool.not_eq_true'] at descends
      simp [ClassTable.callOn, ClassTable.objectCallType, folded, descends]
    | _ => simp at descends
  by_cases single : t.isUnion = false
  · rw [Ty.members_of_not_union single] at opens
    refine ⟨.builder [], ?_, .builder []⟩
    rw [callType_of_not_union single, opens t (by simp)]
  · cases t with
    | union ms =>
      refine ⟨.unite (ms.map fun _ => .builder []), ?_, .unite_fresh ?_ (by simp)⟩
      · have all : ms.mapM (fun member => table.callOn member method []) =
            .ok (ms.map fun _ => .builder []) := mapM_eq_ok opens
        simp only [ClassTable.callType, all]
        rfl
      · simpa [Ty.members] using some
    | _ => simp [Ty.isUnion] at single

theorem Scope.Keeps.typeOf_opensBuilder {start : Scope} {fixed} (keeps : start.Keeps fixed start) :
    ∀ {e : Expr}, start.opensBuilder fixed e = true →
      ∃ t, start.typeOf e = .ok t ∧ t.Represents [e.builderCalls.map start.record]
  | .call receiver method args, opens => by
    rw [Scope.opensBuilder] at opens
    cases named : BuilderMethod.ofName? method with
    | some builderMethod =>
      rw [named, Option.isSome_some, if_pos rfl, Bool.and_eq_true] at opens
      obtain ⟨t, typed, represents⟩ := keeps.typeOf_opensBuilder opens.1
      obtain ⟨types, argsTyped, same⟩ := keeps.typesOf_isSteady opens.2
      obtain ⟨next, called, now⟩ := represents.call named start.table same
      have calls : (Expr.call receiver method args).builderCalls.map start.record =
          receiver.builderCalls.map start.record ++ [start.record ⟨builderMethod, args⟩] := by
        simp [Expr.builderCalls, named]
      rw [calls]
      exact ⟨next, (Scope.typeOf_call typed argsTyped method).trans called, now⟩
    | none =>
      rw [named, Option.isSome_none, if_neg (by decide)] at opens
      simp only [Bool.and_eq_true, List.isEmpty_iff] at opens
      obtain ⟨⟨creates, rfl⟩, manager⟩ := opens
      have calls : (Expr.call receiver method []).builderCalls = [] := by
        simp [Expr.builderCalls, named, asksForQuery_of_createQueryBuilder creates]
      rw [calls]
      cases typed : start.typeOf receiver with
      | error fault => rw [typed] at manager; contradiction
      | ok t =>
        rw [typed] at manager
        obtain ⟨opened, called, fresh⟩ := callType_createQueryBuilder manager creates
        exact ⟨opened, (Scope.typeOf_call typed rfl method).trans called, fresh⟩

theorem Scope.Tracks.opened {start : Scope} {fixed qb value} (keeps : start.Keeps fixed start)
    (opens : start.opensBuilder fixed value = true) (free : qb ∉ fixed) (line : Nat) :
    start.Tracks fixed qb (start.pass (.assign qb value line)) [[.assign qb value]] := by
  obtain ⟨t, typed, represents⟩ := keeps.typeOf_opensBuilder opens
  have definite : t ≠ .mixed := by
    rintro rfl
    exact absurd represents.known (by decide)
  obtain ⟨after, passed⟩ := Scope.advance_of_typeOf typed definite
  have shape : Path.shape start qb [.assign qb value] = value.builderCalls.map start.record := by
    simp [Path.shape, Event.builderCalls]
  rw [Scope.pass_assign typed passed]
  refine ⟨(keeps.advance passed).assign fun inside => absurd inside free, t, by simp, ?_⟩
  simpa [shape] using represents

theorem Scope.fixedParams_spec {start : Scope} {body} (inside : name ∈ start.fixedParams body) :
    (∀ event ∈ Stmt.eventsAll body, event.assigns name = false) ∧
      ∃ declared, start.varType? name = some declared ∧ declared.isMerged = true := by
  simp only [Scope.fixedParams, Scope.unassignedParams, List.mem_filter, List.all_eq_true,
    Bool.not_eq_true'] at inside
  obtain ⟨⟨-, unassigned⟩, merged⟩ := inside
  refine ⟨unassigned, ?_⟩
  cases found : start.varType? name with
  | none => simp [found] at merged
  | some declared => exact ⟨declared, rfl, by simpa [found] using merged⟩

theorem Scope.keeps_self {start : Scope} (distinct : start.locals.keys.Nodup) (body : List Stmt) :
    start.Keeps (start.fixedParams body) start where
  distinct := distinct
  like := by
    intro name inside
    obtain ⟨-, declared, found, merged⟩ := Scope.fixedParams_spec inside
    exact ⟨declared, declared, found, merged, found, .inl rfl⟩

/-- In a scope that tracks a builder, asking a chain for its query gives the texts of the paths. -/
theorem Scope.Tracks.texts {start s : Scope} {fixed qb paths}
    (tracks : start.Tracks fixed qb s paths) {receiver}
    (builds : receiver.isBuilderChain fixed qb = true) :
    (∃ t, s.typeOf receiver = .ok t ∧ t.isKnownBuilder = true) ∧
      ExactTexts (paths.map (Path.outcome start qb receiver))
        (s.typeOf (.call receiver "getDQL" [])) := by
  obtain ⟨t, found, represents⟩ := tracks.builder
  obtain ⟨next, typed, now⟩ := tracks.keeps.typeOf_isBuilderChain found represents builds
  refine ⟨⟨next, typed, now.known⟩, ?_⟩
  rw [Scope.typeOf_call typed rfl]
  have answer := now.getDQL s.table
  rw [List.map_map, List.map_map] at answer
  exact answer

/-- A visit is to the call of a site. Where the query of the builder in the variable `qb` is asked
    for after the first statement, the builder is known, and the texts found are those of the
    paths. -/
structure Visit.IsExact (start : Scope) (qb : String) (site : Site) (visit : Visit) : Prop where
  node : visit.node = .call site.call
  line : visit.line = site.line
  known : site.asksFor qb = true → [] ∉ site.paths →
    ∃ t, visit.scope.typeOf site.call.receiver = .ok t ∧ t.isKnownBuilder = true
  texts : site.asksFor qb = true → [] ∉ site.paths →
    ExactTexts (site.paths.map (Path.outcome start qb site.call.receiver))
      (visit.scope.typeOf (.call site.call.receiver "getDQL" []))

theorem Visit.isExact_of_first (start : Scope) (qb : String) (value : Expr) (line : Nat) :
    List.Forall₂ (Visit.IsExact start qb) ((value.sites line).filter (·.isReached))
      (start.visitCalls value line) := by
  have early : ∀ site ∈ (value.sites line).filter (·.isReached), [] ∈ site.paths := by
    intro site inside
    obtain ⟨call, -, rfl⟩ := List.mem_map.mp (List.mem_filter.mp inside).1
    simp
  have calls : List.Forall₂ (fun site visit => Visit.IsAt (fun _ _ => True) [[]] site visit)
      ((value.sites line).filter (·.isReached)) (start.visitCalls value line) :=
    filter_visitCalls start value line ▸ visits_calls trivial value line
  refine ((List.forall₂_and_left _ _).mpr ⟨early, calls⟩).imp ?_
  rintro site visit ⟨early, here⟩
  exact ⟨here.node, here.line, fun _ late => absurd early late, fun _ late => absurd early late⟩

theorem Visit.IsAt.isExact {start fixed qb site visit}
    (here : Visit.IsAt (start.Tracks fixed qb) [[]] site visit)
    (chain : site.asksFor qb = true → site.call.receiver.isBuilderChain fixed qb = true) :
    Visit.IsExact start qb site visit := by
  have tracks : start.Tracks fixed qb visit.scope site.paths := by
    simpa [Path.follow] using here.scope
  exact ⟨here.node, here.line, fun asks _ => (tracks.texts (chain asks)).1,
    fun asks _ => (tracks.texts (chain asks)).2⟩

/-- The analysis of builders is exact about paths: the calls of a method are visited if and only if
    a path leads to them, and where the query of a builder is asked for, its texts are those of the
    paths to that place. -/
theorem builder_texts_of_paths (table : ClassTable) (owner : Option ClassInfo) (m : MethodDecl)
    (qb : String)
    (tracked : (Scope.ofMethod table owner m.params).tracksBuilder
      ((Scope.ofMethod table owner m.params).fixedParams m.body) qb m.body = true) :
    List.Forall₂ (Visit.IsExact (Scope.ofMethod table owner m.params) qb)
      ((Stmt.sitesAll m.body).filter (·.isReached))
      (((Scope.ofMethod table owner m.params).walkAll m.body).1.filter (·.isCall)) := by
  have distinct := Scope.keys_ofMethod table owner m.params
  generalize Scope.ofMethod table owner m.params = start at tracked distinct ⊢
  obtain ⟨value, line, rest, first, opens, followed⟩ := Scope.tracksBuilder_iff.mp tracked
  rw [first] at opens followed ⊢
  let fixed := start.fixedParams (.assign qb value line :: rest)
  have unassigned : ∀ own ∈ fixed, ∀ event ∈ Event.assign qb value :: Stmt.eventsAll rest,
      event.assigns own = false := fun own inside => (Scope.fixedParams_spec inside).1
  have free : qb ∉ fixed := fun inside => by
    simpa [Event.assigns] using unassigned qb inside (.assign qb value) (by simp)
  have keeps : start.Keeps fixed start := Scope.keeps_self distinct _
  have walked := walkAll_walked (Scope.Tracks.flowInvariant start fixed qb) rest
    (fun event inside => ⟨followed event inside,
      fun own member => unassigned own member event (by simp [inside])⟩)
    (Scope.Tracks.opened keeps opens free line)
  simp only [Stmt.sitesAll, Scope.walkAll, Scope.walk, List.filter_append, filter_visitCalls,
    filter_visitBreakdown, List.append_nil]
  refine List.rel_append ?_ ?_
  · exact Visit.isExact_of_first start qb value line
  · have chained : ∀ site ∈ ((Stmt.sitesAll rest).map
        (·.after (Stmt.assign qb value line).paths)).filter (·.isReached),
        site.asksFor qb = true → site.call.receiver.isBuilderChain fixed qb = true := by
      intro site inside asks
      obtain ⟨inner, member, rfl⟩ := List.mem_map.mp (List.mem_filter.mp inside).1
      obtain ⟨event, own, call⟩ := Site.call_mem_eventsAll member
      rw [Site.asksFor, Bool.and_eq_true, beq_iff_eq] at asks
      exact Event.receiver_isBuilderChain (followed event own) call asks.1 asks.2
    have later : List.Forall₂ (fun site visit => Visit.IsAt (start.Tracks fixed qb)
        (Path.follow [[]] (Stmt.assign qb value line).paths) site visit)
        ((Stmt.sitesAll rest).filter (·.isReached)) _ := walked.visits
    have calls := visits_after (List.cons_ne_nil _ _) later
    refine ((List.forall₂_and_left _ _).mpr ⟨chained, calls⟩).imp ?_
    exact fun site visit both => both.2.isExact both.1

theorem ClassTable.descends_empty (c : ClassType) (ancestor : String) :
    ClassTable.descends {} c ancestor = Text.sameFold c.name ancestor := by
  rw [descends, ancestor?, search_cons]
  by_cases same : Text.sameFold c.name ancestor = true
  · simp [same]
  · simp [same, Dict.get?, search]

theorem isManager_objectManager : (Ty.ofClass ClassName.objectManager).isManager {} = true := by
  simp only [Ty.isManager, Ty.ofClass, Ty.members, List.all_cons, List.all_nil,
    ClassTable.descends_empty]
  decide

theorem Scope.opensBuilder_of_isManager {s : Scope} {t} (found : s.varType? name = some t)
    (manager : t.isManager s.table = true) (fixed : List String) :
    s.opensBuilder fixed (.call (.var name) "createQueryBuilder" []) = true := by
  have other : (BuilderMethod.ofName? "createQueryBuilder").isSome = false := by decide
  have typed : s.typeOf (.var name) = .ok t := by simp [Scope.typeOf, found]
  rw [Scope.opensBuilder, other, if_neg (by decide), typed]
  simp [manager]

/-- A method that selects one of two aliases on one branch, asks for the query on the other, and
    goes on with a reassignment where the first branch ends. -/
theorem builder_texts_of_paths_two_branches :
    let qb : Expr := .var "qb"
    let short : Expr := .var "short"
    let params : List ParamDecl :=
      [⟨"em", .ofClass ClassName.objectManager⟩,
        ⟨"short", .union [.constString "a", .constString "b"]⟩]
    let body : List Stmt :=
      [.assign "qb" (.call (.var "em") "createQueryBuilder" []) 1,
        .branch (.var "flag") [.expr (.call qb "select" [short]) 3]
          [.ret (some (.call qb "getQuery" [])) 5] 2,
        .assign "qb" (.call qb "from" [.classConst "App\\Order", short]) 7,
        .expr (.call qb "getQuery" []) 8]
    let start := Scope.ofMethod {} none params
    start.tracksBuilder (start.fixedParams body) "qb" body = true ∧
      List.Forall₂ (Visit.IsExact start "qb") ((Stmt.sitesAll body).filter (·.isReached))
        ((start.walkAll body).1.filter (·.isCall)) := by
  intro qb short params body start
  have fixed : start.fixedParams body = ["em", "short"] := by decide
  have tracked : start.tracksBuilder (start.fixedParams body) "qb" body = true := by
    rw [fixed, Scope.tracksBuilder, Scope.opensBuilder_of_isManager rfl isManager_objectManager]
    decide
  exact ⟨tracked,
    builder_texts_of_paths {} none ⟨"list", params, .mixed, body, 0⟩ "qb" tracked⟩

/-- Without merged form the texts are not those of the paths: a union that lists one literal more
    often than candidates are tried is the literal itself after two branches have met. -/
theorem builder_texts_of_repeated_union :
    let receiver : Expr := .call (.call (.var "qb") "select" [.var "short"]) "from"
      [.classConst "App\\Order", .text "a"]
    let params : List ParamDecl :=
      [⟨"em", .ofClass ClassName.objectManager⟩,
        ⟨"short", .union (List.replicate 33 (.constString "a"))⟩]
    let body : List Stmt :=
      [.assign "qb" (.call (.var "em") "createQueryBuilder" []) 1,
        .branch (.var "flag") [] [] 2, .expr (.call receiver "getQuery" []) 3]
    let start := Scope.ofMethod {} none params
    start.tracksBuilder (start.unassignedParams body) "qb" body = true ∧
      ¬ List.Forall₂ (Visit.IsExact start "qb") ((Stmt.sitesAll body).filter (·.isReached))
        ((start.walkAll body).1.filter (·.isCall)) := by
  intro receiver params body start
  let create : Expr := .call (.var "em") "createQueryBuilder" []
  have fixed : start.unassignedParams body = ["em", "short"] := by decide
  have tracked : start.tracksBuilder (start.unassignedParams body) "qb" body = true := by
    rw [fixed, Scope.tracksBuilder, Scope.opensBuilder_of_isManager rfl isManager_objectManager]
    decide
  refine ⟨tracked, fun precise => ?_⟩
  have created : start.typeOf create = .ok (.builder []) := by
    have manager : start.typeOf (.var "em") = .ok (.ofClass ClassName.objectManager) := rfl
    rw [Scope.typeOf_call manager rfl, callType_of_not_union rfl]
    simp only [ClassTable.callOn, Ty.ofClass, ClassTable.objectCallType, start, Scope.ofMethod,
      ClassTable.descends_empty]
    decide
  have opened : start.pass (.assign "qb" create 1) = start.assign "qb" (.builder []) :=
    Scope.pass_assign created rfl _ _
  -- Both branches end in the scope in which they start.
  let inner := start.assign "qb" (.builder [])
  have visits : (start.walkAll body).1.filter (·.isCall) = start.visitCalls create 1 ++
      (inner.merge inner).visitCalls (.call receiver "getQuery" []) 3 := by
    simp only [body, Scope.walkAll, Scope.walk, List.filter_append, filter_visitCalls,
      filter_visitBreakdown, List.append_nil]
    rw [opened]
    rfl
  let before : Path := [.assign "qb" create, .eval (.var "flag")]
  have sites : (Stmt.sitesAll body).filter (·.isReached) =
      [_, _, _, ⟨⟨receiver, some "getQuery", []⟩, 3, [before, before]⟩] := rfl
  rw [visits, sites] at precise
  rcases precise with _ | ⟨-, _ | ⟨-, _ | ⟨-, _ | ⟨last, -⟩⟩⟩⟩
  have outcome : Path.outcome start "qb" receiver before = .ok none := by rfl
  have answer : (inner.merge inner).typeOf (.call receiver "getDQL" []) =
      .ok (.constString "SELECT a FROM App\\Order a") := by
    have built : (inner.merge inner).typeOf receiver = .ok (.builder
        [⟨.select, [.constString "a"]⟩,
          ⟨.from, [.constString "App\\Order", .constString "a"]⟩]) := rfl
    rw [Scope.typeOf_call built rfl, callType_of_not_union rfl, callOn_getDQL _ _ (by decide),
      queryCandidates_eq]
    rfl
  have texts := last.texts (by decide) (by simp [before])
  simp [answer, outcome, ExactTexts, Ty.texts] at texts

end EntityAudit
