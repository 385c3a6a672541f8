import EntityAudit.Mapping.Gateway
import EntityAudit.Proofs.Outcome

/-! # A gateway answers as if it had no state

Every question gets the answer that follows from what stands behind the gateway, whatever was asked
before. `Backing.answer` is that answer, computed without a gateway; `Backing.Serves` is what every
question keeps true of the gateway.
-/

namespace EntityAudit

variable {source : Source}

/-- A question to a gateway. -/
inductive Question where
  | isConfigured
  | source
  | managerKind
  | descriptor (name : String)
  | isMapped (name : String)
  | record (name : String)
  | requireRecord (name : String)
  deriving DecidableEq

/-- An answer to a question. -/
inductive Answer where
  | truth (value : Bool)
  | source (found : Option Source)
  | managerKind (found : Option ManagerKind)
  | descriptor (found : Option Descriptor)
  | record (found : Option EntityRecord)

/-- A descriptor with its class named in lower case, since spellings of one class share it. -/
def Descriptor.shown (d : Descriptor) : Descriptor :=
  { d with className := Text.foldCase d.className }

def Answer.shown : Answer → Answer
  | .descriptor found => .descriptor (found.map Descriptor.shown)
  | other => other

def Question.ask : Question → Lookup Answer
  | .isConfigured => do return .truth (← get).isConfigured
  | .source => do return .source (← Gateway.source?)
  | .managerKind => do return .managerKind (← Gateway.managerKind?)
  | .descriptor name => do return .descriptor (← Gateway.descriptor? name)
  | .isMapped name => do return .truth (← Gateway.isMapped name)
  | .record name => do return .record (← Gateway.record? name)
  | .requireRecord name => do return .record (some (← Gateway.requireRecord name))

/-- The answers to questions asked one after the other, and the gateway afterwards. A failure is an
    answer, after which the next question is asked. -/
def Question.askAll : List Question → Gateway → List (Except Failure Answer) × Gateway
  | [], g => ([], g)
  | q :: qs, g =>
    match q.ask g with
    | .ok answer g => (.ok answer :: (askAll qs g).1, (askAll qs g).2)
    | .error failure g => (.error failure :: (askAll qs g).1, (askAll qs g).2)

/-- What stands behind a gateway when it is set up. -/
inductive Backing where
  | nothing
  | store (source : Source)
  | loader (load : Nat → Except Failure Source)

namespace Backing

def gateway : Backing → Gateway
  | .nothing => .unconfigured
  | .store source => .ofSource source
  | .loader load => .ofAttempts load

/-- What connecting comes to, if there is anything to connect to: only the first attempt to load
    counts. -/
def outcome : Backing → Option (Except Failure Source)
  | .nothing => none
  | .store source => some (.ok source)
  | .loader load => some (load 0)

def source? (b : Backing) : Except Failure (Option Source) :=
  match b.outcome with
  | none => .ok none
  | some (.ok source) => .ok (some source)
  | some (.error failure) => .error (.configuration failure.asConfiguration)

def managerKind? (b : Backing) : Except Failure (Option ManagerKind) := do
  return (← b.source?).map (·.kind)

def mapping? (b : Backing) (name : String) : Except Failure (Option ClassMapping) := do
  match ← b.source? with
  | none => return none
  | some source => return some (← Gateway.resolve source name)

def record? (b : Backing) (name : String) : Except Failure (Option EntityRecord) := do
  return (← b.mapping? name).bind (·.record?)

def isMapped (b : Backing) (name : String) : Except Failure Bool := do
  return (← b.record? name).isSome

def requireRecord (b : Backing) (name : String) : Except Failure EntityRecord := do
  unless b.outcome.isSome do
    throw (.configuration .noSource)
  match ← b.record? name with
  | some record => return record
  | none => throw (.notMapped name)

def answer (b : Backing) : Question → Except Failure Answer
  | .isConfigured => return .truth b.outcome.isSome
  | .source => do return .source (← b.source?)
  | .managerKind => do return .managerKind (← b.managerKind?)
  | .descriptor name => do
    return .descriptor ((← b.mapping? name).map fun mapping => ⟨Text.foldCase name, mapping⟩)
  | .isMapped name => do return .truth (← b.isMapped name)
  | .record name => do return .record (← b.record? name)
  | .requireRecord name => do return .record (some (← b.requireRecord name))

end Backing

/-- What a source says about a class depends on its name up to ASCII case only. -/
def Source.IgnoresCase (source : Source) : Prop :=
  ∀ a b, Text.foldCase a = Text.foldCase b →
    source.isTransient a = source.isTransient b ∧ source.mappingOf a = source.mappingOf b

theorem Source.IgnoresCase.resolve (folds : source.IgnoresCase) {a b}
    (same : Text.foldCase a = Text.foldCase b) :
    Gateway.resolve source a = Gateway.resolve source b := by
  unfold Gateway.resolve
  rw [(folds a b same).1, (folds a b same).2]

theorem Catalog.toSource_ignoresCase (c : Catalog) : c.toSource.IgnoresCase := by
  intro a b same
  constructor
  · simp only [toSource, isTransient, same]
  · simp only [toSource, mappingOf, same]

def Backing.IgnoresCase (b : Backing) : Prop :=
  ∀ source, b.outcome = some (.ok source) → source.IgnoresCase

theorem Gateway.consult_bind {α : Type} {name g} (next : ClassMapping → Lookup α) :
    (consult source name >>= next) g =
      match resolve source name with
      | .ok mapping => next mapping { g with consulted := g.consulted ++ [name] }
      | .error failure => .error failure { g with consulted := g.consulted ++ [name] } := by
  unfold consult
  cases resolve source name <;> rfl

/-- The gateway `g` is one that `b` stands behind, however much it has learnt. -/
structure Backing.Serves (b : Backing) (g : Gateway) : Prop where
  configured : g.isConfigured = b.outcome.isSome
  connect : ∀ outcome, b.outcome = some outcome →
    g.connect = outcome.mapError Failure.asConfiguration
  loads : g.loads + g.mustLoad.toNat ≤ 1
  cached : ∀ key known, g.cache.get? key = some known →
    Text.foldCase known.className = key ∧
      ∃ source, b.outcome = some (.ok source) ∧
        Gateway.resolve source known.className = .ok known.mapping

namespace Backing.Serves

variable {b : Backing} {g : Gateway}

theorem gateway (b : Backing) : b.Serves b.gateway where
  configured := by cases b <;> rfl
  connect outcome behind := by cases b <;> cases behind <;> rfl
  loads := by
    cases b with
    | nothing | store => exact Nat.zero_le 1
    | loader => exact Nat.le_refl 1
  cached key known found := by cases b <;> cases found

theorem connected (serves : b.Serves g) (some_ : b.outcome.isSome) :
    b.Serves { g with connection := some g.connect, loads := g.loads + g.mustLoad.toNat } where
  configured := by
    rw [some_]
    exact Bool.or_true _
  connect := serves.connect
  loads := serves.loads
  cached := serves.cached

theorem counted (serves : b.Serves g) (hits misses : Nat) (consulted : List String) :
    b.Serves { g with hits, misses, consulted } :=
  ⟨serves.configured, serves.connect, serves.loads, serves.cached⟩

theorem learnt (serves : b.Serves g) {name mapping} (behind : b.outcome = some (.ok source))
    (resolved : Gateway.resolve source name = .ok mapping) :
    b.Serves { g with cache := g.cache.put (Text.foldCase name) ⟨name, mapping⟩ } where
  configured := serves.configured
  connect := serves.connect
  loads := serves.loads
  cached key known found := by
    rw [Dict.get?_put] at found
    split at found
    next same =>
      cases found
      exact ⟨same, source, behind, resolved⟩
    next => exact serves.cached key known found

end Backing.Serves

/-- Two gateways that `b` stands behind, however much either has learnt. -/
def Backing.ServesBoth (b : Backing) (g g' : Gateway) : Prop :=
  b.Serves g ∧ b.Serves g'

/-- A look-up and a direct answer come to the same: related results or the same failure, and the
    gateway still serves. -/
inductive Backing.Agrees {α β : Type} (b : Backing) (R : α → β → Prop) :
    EStateM.Result Failure Gateway α → Except Failure β → Prop where
  | ok {a v g} (serves : b.Serves g) (related : R a v) : Agrees b R (.ok a g) (.ok v)
  | error {failure g} (serves : b.Serves g) : Agrees b R (.error failure g) (.error failure)

/-- Whatever a gateway has learnt, a look-up comes to what is computed directly. -/
def Backing.Simulates {α β : Type} (b : Backing) (R : α → β → Prop) (lookup : Lookup α)
    (direct : Except Failure β) : Prop :=
  ∀ g, b.Serves g → b.Agrees R (lookup g) direct

namespace Backing.Simulates

variable {α β γ δ : Type} {b : Backing} {R : α → β → Prop} {S : γ → δ → Prop}

theorem pure {a v} (related : R a v) : b.Simulates R (Pure.pure a) (Pure.pure v) := by
  intro g serves
  exact .ok serves related

theorem throw (failure : Failure) :
    b.Simulates R (MonadExcept.throw failure) (MonadExcept.throw failure) := by
  intro g serves
  exact .error serves

theorem bind {lookup direct next directNext} (first : b.Simulates R lookup direct)
    (rest : ∀ a v, direct = .ok v → R a v → b.Simulates S (next a) (directNext v)) :
    b.Simulates S (lookup >>= next) (direct >>= directNext) := by
  intro g serves
  have here := first g serves
  change b.Agrees S (EStateM.bind lookup next g) _
  unfold EStateM.bind
  cases result : lookup g with
  | ok a g' =>
    rw [result] at here
    cases here with
    | ok serves' related => exact rest _ _ rfl related g' serves'
  | error failure g' =>
    rw [result] at here
    cases here with
    | error serves' => exact .error serves'

end Backing.Simulates

section Questions

variable {b : Backing}

theorem Gateway.source?_eq (g : Gateway) :
    source? g =
      if g.isConfigured then
        let g' := { g with connection := some g.connect, loads := g.loads + g.mustLoad.toNat }
        match g.connect with
        | .ok source => .ok (some source) g'
        | .error fault => .error (.configuration fault) g'
      else .ok none g := by
  change (if g.isConfigured then _ else _ : Lookup (Option Source)) g = _
  split
  · cases g.connect <;> rfl
  · rfl

theorem simulates_source : b.Simulates Eq Gateway.source? b.source? := by
  intro g serves
  rw [Gateway.source?_eq, serves.configured]
  cases behind : b.outcome with
  | none =>
    simp only [Backing.source?, behind]
    exact .ok serves rfl
  | some outcome =>
    have after := serves.connected (by rw [behind]; rfl)
    have connect := serves.connect outcome behind
    cases outcome with
    | ok source =>
      simp only [Backing.source?, behind, connect] at after ⊢
      exact .ok after rfl
    | error failure =>
      simp only [Backing.source?, behind, connect] at after ⊢
      exact .error after

theorem simulates_managerKind : b.Simulates Eq Gateway.managerKind? b.managerKind? := by
  refine simulates_source.bind ?_
  rintro found _ - rfl
  exact .pure rfl

theorem Backing.source?_eq_some :
    b.source? = .ok (some source) ↔ b.outcome = some (.ok source) := by
  unfold Backing.source?
  split
  next absent => simp [absent]
  next found behind => simp [behind]
  next failure behind => simp [behind]

/-- Answering from memory is right because what is remembered came from the same source, and making
    an answer that is remembered because the next spelling of the name will ask for the same. -/
theorem simulates_descriptor (folds : b.IgnoresCase) (name : String) :
    b.Simulates
      (fun found mapping => found.map Descriptor.shown =
        mapping.map fun mapping => ⟨Text.foldCase name, mapping⟩)
      (Gateway.descriptor? name) (b.mapping? name) := by
  refine simulates_source.bind ?_
  rintro found _ connected rfl
  cases found with
  | none => exact .pure rfl
  | some source =>
    have behind := Backing.source?_eq_some.mp connected
    intro g serves
    dsimp only
    rw [get_bind]
    cases remembered : g.cache.get? (Text.foldCase name) with
    | some known =>
      obtain ⟨named, source', behind', mapped⟩ := serves.cached _ _ remembered
      obtain rfl : source = source' := by simpa [behind] using behind'
      rw [(folds source behind).resolve named] at mapped
      simp only [set_bind, mapped]
      refine .ok (serves.counted _ _ _) ?_
      simp [Descriptor.shown, named]
    | none =>
      simp only [set_bind, Gateway.consult_bind]
      cases resolved : Gateway.resolve source name with
      | error failure => exact .error (serves.counted _ _ _)
      | ok mapping => exact .ok ((serves.counted _ _ _).learnt behind resolved) rfl

theorem simulates_record (folds : b.IgnoresCase) (name : String) :
    b.Simulates Eq (Gateway.record? name) (b.record? name) := by
  refine (simulates_descriptor folds name).bind ?_
  intro found mapping _ related
  apply Backing.Simulates.pure
  cases found with
  | none =>
    cases mapping with
    | none => rfl
    | some => cases related
  | some known =>
    cases mapping with
    | none => cases related
    | some mapping =>
      have same := congrArg Descriptor.mapping (Option.some.inj related)
      exact congrArg ClassMapping.record? same

theorem simulates_requireRecord (folds : b.IgnoresCase) (name : String) :
    b.Simulates Eq (Gateway.requireRecord name) (b.requireRecord name) := by
  have lookedUp : b.Simulates Eq
      (do match ← Gateway.record? name with
        | some record => return record
        | none => throw (.notMapped name))
      (do match ← b.record? name with
        | some record => return record
        | none => throw (.notMapped name)) := by
    refine (simulates_record folds name).bind ?_
    rintro found _ - rfl
    cases found with
    | none => exact .throw _
    | some record => exact .pure rfl
  intro g serves
  unfold Gateway.requireRecord Backing.requireRecord
  rw [get_bind, serves.configured]
  cases b.outcome.isSome with
  | true => exact lookedUp g serves
  | false => exact .error serves

theorem Backing.Simulates.answer {α : Type} {lookup direct} (same : b.Simulates Eq lookup direct)
    (form : α → Answer) (plain : ∀ a, (form a).shown = form a) :
    b.Simulates (fun answer direct => answer.shown = direct) (do return form (← lookup))
      (do return form (← direct)) := by
  refine same.bind ?_
  rintro a _ - rfl
  exact .pure (plain a)

theorem simulates_ask (folds : b.IgnoresCase) (q : Question) :
    b.Simulates (fun answer direct => answer.shown = direct) q.ask (b.answer q) := by
  cases q with
  | isConfigured =>
    intro g serves
    exact .ok serves (congrArg Answer.truth serves.configured)
  | source => exact simulates_source.answer .source fun _ => rfl
  | managerKind => exact simulates_managerKind.answer .managerKind fun _ => rfl
  | descriptor name =>
    refine (simulates_descriptor folds name).bind ?_
    intro found mapping _ related
    exact .pure (congrArg Answer.descriptor related)
  | isMapped name =>
    have mapped : b.Simulates Eq (Gateway.isMapped name) (b.isMapped name) := by
      refine (simulates_record folds name).bind ?_
      rintro found _ - rfl
      exact .pure rfl
    exact mapped.answer .truth fun _ => rfl
  | record name => exact (simulates_record folds name).answer .record fun _ => rfl
  | requireRecord name =>
    exact (simulates_requireRecord folds name).answer (fun record => .record (some record))
      fun _ => rfl

end Questions

theorem Backing.Serves.askAll {b : Backing} (folds : b.IgnoresCase) {g} (serves : b.Serves g)
    (qs : List Question) :
    (Question.askAll qs g).1.map (·.map Answer.shown) = qs.map b.answer ∧
      b.Serves (Question.askAll qs g).2 := by
  induction qs generalizing g with
  | nil => exact ⟨rfl, serves⟩
  | cons q qs ih =>
    have first := simulates_ask folds q g serves
    unfold Question.askAll
    generalize q.ask g = result at first ⊢
    rw [List.map_cons]
    generalize b.answer q = direct at first ⊢
    cases first with
    | ok serves' related =>
      obtain ⟨rest, after⟩ := ih serves'
      refine ⟨?_, after⟩
      rw [List.map_cons, rest, ← related]
      rfl
    | error serves' =>
      obtain ⟨rest, after⟩ := ih serves'
      refine ⟨?_, after⟩
      rw [List.map_cons, rest]
      rfl

theorem Backing.answer_of_failed {b : Backing} {failure}
    (failed : b.outcome = some (.error failure)) {q} (asks : q ≠ .isConfigured) :
    b.answer q = .error (.configuration failure.asConfiguration) := by
  have source : b.source? = .error (.configuration failure.asConfiguration) := by
    rw [Backing.source?, failed]
  have mapping (name : String) :
      b.mapping? name = .error (.configuration failure.asConfiguration) := by
    rw [Backing.mapping?, source]
    rfl
  have record (name : String) :
      b.record? name = .error (.configuration failure.asConfiguration) := by
    rw [Backing.record?, mapping]
    rfl
  cases q with
  | isConfigured => contradiction
  | source =>
    rw [Backing.answer, source]
    rfl
  | managerKind =>
    rw [Backing.answer, Backing.managerKind?, source]
    rfl
  | descriptor name =>
    rw [Backing.answer, mapping]
    rfl
  | isMapped name =>
    rw [Backing.answer, Backing.isMapped, record]
    rfl
  | record name =>
    rw [Backing.answer, record]
    rfl
  | requireRecord name =>
    rw [Backing.answer, Backing.requireRecord, record, failed]
    rfl

theorem map_eq_of_mem_zip {α β γ : Type} {f : β → γ} {h : α → γ} {as : List α} {bs : List β}
    (same : bs.map f = as.map h) {a : α} {b : β} (inside : (a, b) ∈ as.zip bs) : f b = h a := by
  induction as generalizing bs with
  | nil => cases inside
  | cons head as ih =>
    cases bs with
    | nil => cases inside
    | cons first bs =>
      obtain ⟨here, rest⟩ := List.cons.inj same
      rcases List.mem_cons.mp inside with pair | later
      · cases pair
        exact here
      · exact ih rest later

/-- Every question is answered from what stands behind the gateway, whatever was asked before; the
    source is loaded once at most, and a failure to load it is every later answer. -/
theorem gateway_answers_directly (b : Backing) (folds : b.IgnoresCase) (qs : List Question) :
    let run := Question.askAll qs b.gateway
    run.1.map (·.map Answer.shown) = qs.map b.answer ∧ run.2.loads ≤ 1 ∧
      ∀ failure, b.outcome = some (.error failure) → ∀ q answer, (q, answer) ∈ qs.zip run.1 →
        q ≠ .isConfigured → answer = .error (.configuration failure.asConfiguration) := by
  obtain ⟨same, serves⟩ := (Backing.Serves.gateway b).askAll folds qs
  refine ⟨same, Nat.le_trans (Nat.le_add_right _ _) serves.loads, ?_⟩
  intro failure failed q answer inside asks
  have shown : answer.map Answer.shown = b.answer q := map_eq_of_mem_zip same inside
  rw [Backing.answer_of_failed failed asks] at shown
  cases answer with
  | ok answer => cases shown
  | error e => exact shown

/-- Two spellings of one class, around a class that is not mapped, over a loader that would fail if
    it were tried again; and the same questions over one that fails at once. -/
theorem gateway_answers_directly_spellings :
    let post : EntityRecord := { className := "Post", table := "post" }
    let source : Source := Catalog.toSource { records := [("post", post)] }
    let refused : Failure := .reported "connection refused"
    let loads : Backing := .loader fun attempt => if attempt = 0 then .ok source else .error refused
    let fails : Backing := .loader fun attempt => if attempt = 0 then .error refused else .ok source
    let qs : List Question := [.isMapped "post", .requireRecord "User", .descriptor "POST", .source]
    loads.IgnoresCase ∧ fails.IgnoresCase ∧
      (Question.askAll qs loads.gateway).1.map (·.map Answer.shown) =
        [.ok (.truth true), .error (.notMapped "User"),
          .ok (.descriptor (some ⟨"post", .orm post⟩)), .ok (.source (some source))] ∧
      (Question.askAll qs loads.gateway).2.loads ≤ 1 ∧
      ∀ q answer, (q, answer) ∈ qs.zip (Question.askAll qs fails.gateway).1 →
        answer = .error (.configuration (.reported "connection refused")) := by
  intro post source refused loads fails qs
  have loadsFolds : loads.IgnoresCase := by
    intro found behind
    cases behind
    exact Catalog.toSource_ignoresCase _
  have failsFolds : fails.IgnoresCase := by
    intro found behind
    cases behind
  obtain ⟨same, once, -⟩ := gateway_answers_directly loads loadsFolds qs
  refine ⟨loadsFolds, failsFolds, same.trans rfl, once, ?_⟩
  intro q answer inside
  have asks : q ≠ .isConfigured := by
    have member : q ∈ qs := (List.of_mem_zip inside).1
    rintro rfl
    revert member
    decide
  exact (gateway_answers_directly fails failsFolds qs).2.2 refused rfl q answer inside asks

end EntityAudit
