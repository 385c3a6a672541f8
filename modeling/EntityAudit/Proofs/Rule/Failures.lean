import EntityAudit.Analysis
import EntityAudit.Proofs.Coupling
import EntityAudit.Proofs.Mapping.Stateless

/-! # Failures that escape

Of all failures only faults of the set-up and breakdowns escape a rule, and so only they end an
analysis. `Gateway.Unnoticed P fatal` says that the questions of rules cannot tell gateways apart
that `P` relates, and that `fatal` holds of the faults they report. Then no analysis can tell them
apart, and no other faults escape.
-/

namespace EntityAudit

/-- Any failure, so long as a fault of the set-up is one that `fatal` holds of. -/
def Failure.May (fatal : ConfigurationFault → Prop) (failure : Failure) : Prop :=
  ∀ fault, failure = .configuration fault → fatal fault

/-- A breakdown, or a fault of the set-up that `fatal` holds of. -/
inductive Failure.Must (fatal : ConfigurationFault → Prop) : Failure → Prop
  | configuration {fault} (holds : fatal fault) : Must fatal (.configuration fault)
  | breakdown (cause : Breakdown) : Must fatal (.breakdown cause)

theorem Failure.May.of_must {fatal} {failure : Failure} (must : failure.Must fatal) :
    failure.May fatal := by
  rintro _ rfl
  cases must with
  | configuration holds => exact holds

/-- The difference between gateways that `P` relates goes unnoticed by those who ask them, and the
    faults of the set-up that come up are `fatal`. -/
class Gateway.Unnoticed (P : Gateway → Gateway → Prop)
    (fatal : outParam (ConfigurationFault → Prop)) : Prop where
  configured {g g' : Gateway} : P g g' → g.isConfigured = g'.isConfigured
  unset {g g' : Gateway} : P g g' → g.isConfigured = false → fatal .mappingRequired
  kind : Steady P (Failure.Must fatal) managerKind?
  record (name : String) : Steady P (Failure.May fatal) (record? name)

attribute [instance] Gateway.Unnoticed.kind Gateway.Unnoticed.record

section

variable {P : Gateway → Gateway → Prop} {fatal : ConfigurationFault → Prop}

instance {α : Type} {lookup : Lookup (Option α)} [steady : Steady P (Failure.May fatal) lookup] :
    Steady P (Failure.Must fatal) (Lookup.orNothing lookup) where
  couples := by
    intro g g' related
    have here := steady.couples related
    unfold Lookup.orNothing
    generalize lookup g = found at here ⊢
    generalize lookup g' = found' at here ⊢
    cases here with
    | ok same => exact .ok same
    | @error failure _ _ _ same =>
      obtain ⟨⟨rfl, allowed⟩, related⟩ := same
      cases failure with
      | configuration fault => exact .error ⟨⟨rfl, .configuration (allowed fault rfl)⟩, related⟩
      | breakdown cause => exact .error ⟨⟨rfl, .breakdown cause⟩, related⟩
      | _ => exact .ok ⟨rfl, related⟩

instance {cause} {α : Type} :
    Steady P (Failure.Must fatal) (throw (.breakdown cause) : Lookup α) :=
  ⟨Couples.throw fun related => ⟨⟨rfl, .breakdown cause⟩, related⟩⟩

instance {α : Type} {inferred : Except Fault α} :
    Steady P (Failure.Must fatal) (Lookup.ofInference inferred) := by
  unfold Lookup.ofInference
  split <;> infer_instance

variable [unnoticed : Gateway.Unnoticed P fatal]

namespace Query

instance {name} : Steady P (fun _ => True) (Resolve.record? name) where
  couples := by
    intro g g' related
    have here := (unnoticed.record name).couples related
    unfold Resolve.record?
    generalize Gateway.record? name g = found at here ⊢
    generalize Gateway.record? name g' = found' at here ⊢
    cases here with
    | ok same => exact .ok same
    | error same => exact .error ⟨⟨congrArg _ same.1.1, trivial⟩, same.2⟩

instance {r : Resolved} {token component} :
    Steady P (fun _ => True) (r.declare token component) := by
  unfold Resolved.declare; infer_instance

instance {r : Resolved} {mention} : Steady P (fun _ => True) (r.step mention) := by
  cases mention with
  | className token =>
    refine @Steady.bind _ _ _ _ _ _ _ _ _ fun found => ?_
    cases found <;> infer_instance
  | joinRoot token next =>
    dsimp only [Resolved.step]
    split <;> infer_instance
  | joinField token next =>
    dsimp only [Resolved.step]
    split
    · infer_instance
    · split
      · infer_instance
      · refine @Steady.bind _ _ _ _ _ _ _ _ _ fun found => ?_
        cases found <;> infer_instance
  | entityAlias token =>
    dsimp only [Resolved.step]
    split <;> infer_instance
  | resultAlias token | «variable» token | path token field allows =>
    dsimp only [Resolved.step]
    infer_instance

instance {text : String} : Steady P (fun _ => True) (compile text) := by
  have parsed : Steady P (fun _ => True) (parse text) := by
    unfold parse resolveAliases
    refine @Steady.bind _ _ _ _ _ _ _ _ _ fun aliases => ?_
    split
    · infer_instance
    · split <;> infer_instance
  unfold compile
  infer_instance

end Query

instance {text} : Steady P (Failure.Must fatal) (rejection? text) where
  couples := by
    intro g g' related
    have compiles : Steady P (fun _ => True) (Query.compile text) := inferInstance
    have here := compiles.couples related
    unfold rejection?
    generalize Query.compile text g = compiled at here ⊢
    generalize Query.compile text g' = compiled' at here ⊢
    cases here with
    | ok same => exact .ok ⟨rfl, same.2⟩
    | error same => exact .ok ⟨congrArg _ same.1.1, same.2⟩

instance {texts} : Steady P (Failure.Must fatal) (checkQueries texts) where
  couples := by
    have checked : Steady P (Failure.Must fatal) (do
        if (← Gateway.managerKind?) != some .orm then
          return []
        let complaints ← texts.mapM fun text => do
          return (← rejection? text).map (Complaint.rejectedQuery text)
        return complaints.filterMap id) := inferInstance
    intro g g' related
    unfold checkQueries
    rw [get_bind, get_bind, ← unnoticed.configured related]
    cases configured : g.isConfigured with
    | true => exact checked.couples related
    | false => exact .error ⟨⟨rfl, .configuration (unnoticed.unset related configured)⟩, related⟩

instance {storedType? : EntityRecord → String → Option Ty} {node scope} :
    Steady P (Failure.Must fatal) (checkProperty storedType? node scope) := by
  unfold checkProperty Lookup.ownerRecord?
  split
  · refine @Steady.bind _ _ _ _ _ _ _ _ _ fun found => ?_
    cases found with
    | none => infer_instance
    | some record =>
      dsimp only
      split <;> infer_instance
  · infer_instance

instance {node : Node} {scope} :
    Steady P (Failure.Must fatal) (checkFinderCriteria node scope) := by
  unfold checkFinderCriteria
  split
  · refine @Steady.bind _ _ _ _ _ _ _ _ _ fun inferred => ?_
    split
    · refine @Steady.bind _ _ _ _ _ _ _ _ _ fun found => ?_
      cases found <;> infer_instance
    · infer_instance
  · infer_instance

instance {reportDynamic : Bool} {node scope} :
    Steady P (Failure.Must fatal) (checkBuilderQuery reportDynamic node scope) := by
  unfold checkBuilderQuery
  split
  · split
    · refine @Steady.bind _ _ _ _ _ _ _ _ _ fun inferred => ?_
      split
      · infer_instance
      · split
        · refine @Steady.bind _ _ _ _ _ _ _ _ _ fun asked => ?_
          repeat' split
          all_goals infer_instance
        · infer_instance
    · infer_instance
  · infer_instance

omit unnoticed in
/-- What a rule answers is the same for gateways that `P` relates, and where it fails the set-up is
    at fault. -/
theorem Rule.check_steady (unnoticed : Gateway.Unnoticed P fatal) (reportDynamic : Bool)
    (rule : Rule) (node : Node) (scope : Scope) :
    Steady P (Failure.Must fatal) (rule.check reportDynamic node scope) := by
  cases rule with
  | relation | column => exact inferInstanceAs (Steady P _ (checkProperty _ node scope))
  | finderCriteria => exact inferInstanceAs (Steady P _ (checkFinderCriteria node scope))
  | builderQuery => exact inferInstanceAs (Steady P _ (checkBuilderQuery _ node scope))

instance {file : String} {reportDynamic : Bool} {visit : Visit} {rule : Rule} :
    Steady P (Failure.Must fatal) (visit.diagnose file reportDynamic rule) := by
  have := rule.check_steady unnoticed reportDynamic visit.node visit.scope
  have checked : Steady P (Failure.Must fatal)
      (some <$> rule.check reportDynamic visit.node visit.scope) := inferInstance
  have := checked.weaken fun _ => Failure.May.of_must
  unfold Visit.diagnose
  infer_instance

instance {file : String} {reportDynamic : Bool} {visit : Visit} :
    Steady P (Failure.Must fatal) (visit.examine file reportDynamic) := by
  unfold Visit.examine
  split <;> infer_instance

instance {table reportDynamic} {file : SourceFile} :
    Steady P (Failure.Must fatal) (analyseFile table reportDynamic file) := by
  unfold analyseFile; infer_instance

omit unnoticed in
theorem analyseFiles_steady (unnoticed : Gateway.Unnoticed P fatal) (table : ClassTable)
    (reportDynamic : Bool) (files : List SourceFile) :
    Steady P (Failure.Must fatal) (analyseFiles table reportDynamic files) := by
  unfold analyseFiles; infer_instance

end

namespace Gateway

/-- The faults that the set-up of a gateway has. -/
inductive HasFault (g : Gateway) : ConfigurationFault → Prop
  | unset (nothing : g.isConfigured = false) : HasFault g .mappingRequired
  | unreachable {fault : ConfigurationFault} (something : g.isConfigured = true)
      (failed : g.connect = .error fault) : HasFault g fault
  | reported {fault source name} (something : g.isConfigured = true)
      (connected : g.connect = .ok source) (mapped : source.isTransient name = false)
      (failed : source.mappingOf name = .error (.configuration fault)) : HasFault g fault

/-- The gateway `g'` is `g` but for what it has learnt. -/
structure Learnt (g g' : Gateway) : Prop where
  configured : g'.isConfigured = g.isConfigured
  connect : g'.connect = g.connect

variable {g g' : Gateway}

theorem Learnt.connected (learnt : g.Learnt g') (something : g'.isConfigured = true) :
    g.Learnt { g' with connection := some g'.connect, loads := g'.loads + g'.mustLoad.toNat } where
  configured := by
    rw [← learnt.configured, something]
    exact Bool.or_true _
  connect := learnt.connect

theorem Learnt.hasFault (learnt : g.Learnt g') {fault} (has : g'.HasFault fault) :
    g.HasFault fault := by
  cases has with
  | unset nothing => exact .unset (learnt.configured ▸ nothing)
  | unreachable something failed =>
    exact .unreachable (learnt.configured ▸ something) (learnt.connect ▸ failed)
  | reported something connected mapped failed =>
    exact .reported (learnt.configured ▸ something) (learnt.connect ▸ connected) mapped failed

/-- A run compared with itself, over what the gateway `g` has become. -/
def Becomes (g s t : Gateway) : Prop :=
  s = t ∧ g.Learnt s

theorem source?_couples (g : Gateway) :
    Couples g.Becomes source? source?
      (fun found found' s t => (found = found' ∧ g.Becomes s t) ∧ s.isConfigured = found.isSome ∧
        ∀ source, found = some source → s.connect = .ok source)
      fun e e' s t => (e = e' ∧ e.Must g.HasFault) ∧ g.Becomes s t := by
  rintro s _ ⟨rfl, learnt⟩
  rw [source?_eq]
  split
  next something =>
    have after := learnt.connected something
    cases connected : s.connect with
    | ok source =>
      rw [connected] at after
      refine .ok ⟨⟨rfl, rfl, after⟩, ?_, ?_⟩
      · exact after.configured.trans (learnt.configured.symm.trans something)
      · rintro _ ⟨⟩
        rfl
    | error fault =>
      rw [connected] at after
      have has := learnt.hasFault (.unreachable something connected)
      exact .error ⟨⟨rfl, .configuration has⟩, rfl, after⟩
  next nothing =>
    refine .ok ⟨⟨rfl, rfl, learnt⟩, ?_, ?_⟩
    · simpa using nothing
    · rintro _ ⟨⟩

instance {g : Gateway} : Steady g.Becomes (Failure.Must g.HasFault) managerKind? := by
  have asked : Steady g.Becomes (Failure.Must g.HasFault) source? :=
    ⟨(source?_couples g).mono id fun same => same.1⟩
  unfold managerKind?
  infer_instance

instance {g : Gateway} {name : String} :
    Steady g.Becomes (Failure.May g.HasFault) (descriptor? name) := by
  have failed {e e' : Failure} {s t : Gateway}
      (same : (e = e' ∧ e.Must g.HasFault) ∧ g.Becomes s t) :
      (e = e' ∧ e.May g.HasFault) ∧ g.Becomes s t :=
    ⟨⟨same.1.1, .of_must same.1.2⟩, same.2⟩
  refine ⟨((source?_couples g).weaken failed).bind fun found found' => ?_⟩
  rintro s _ ⟨⟨rfl, rfl, learnt⟩, configured, connected⟩
  cases found with
  | none => exact .ok ⟨rfl, rfl, learnt⟩
  | some source =>
    dsimp only
    rw [get_bind]
    cases s.cache.get? (Text.foldCase name) with
    | some known => exact .ok ⟨rfl, rfl, learnt.configured, learnt.connect⟩
    | none =>
      simp only [set_bind, consult_bind]
      cases resolved : resolve source name with
      | ok mapping => exact .ok ⟨rfl, rfl, learnt.configured, learnt.connect⟩
      | error failure =>
        refine .error ⟨⟨rfl, ?_⟩, rfl, learnt.configured, learnt.connect⟩
        rintro fault rfl
        unfold resolve at resolved
        split at resolved
        next => cases resolved
        next mapped =>
          exact learnt.hasFault
            (.reported configured (connected source rfl) (by simpa using mapped) resolved)

theorem becomes_unnoticed (g : Gateway) : Unnoticed g.Becomes g.HasFault where
  configured related := by rw [related.1]
  unset related nothing := .unset (related.2.configured ▸ nothing)
  kind := inferInstance
  record name := by unfold record?; infer_instance

end Gateway

theorem Steady.outcome {α : Type} {g} {lookup : Lookup α}
    (steady : Steady g.Becomes (Failure.Must g.HasFault) lookup) :
    (∃ a g', lookup g = .ok a g') ∨
      (∃ fault g', lookup g = .error (.configuration fault) g' ∧ g.HasFault fault) ∨
      ∃ cause g', lookup g = .error (.breakdown cause) g' := by
  have here := steady.couples (⟨rfl, rfl, rfl⟩ : g.Becomes g g)
  generalize lookup g = result at here ⊢
  cases here with
  | ok => exact .inl ⟨_, _, rfl⟩
  | error same =>
    cases same.1.2 with
    | configuration has => exact .inr (.inl ⟨_, _, rfl, has⟩)
    | breakdown cause => exact .inr (.inr ⟨cause, _, rfl⟩)

/-- Only faults of the set-up escape: whatever goes wrong in look-ups, in builders and in compiling,
    each rule answers about each node in each scope, or fails with a fault that the gateway was set
    up with, unless inference breaks down; and so does the analysis of any files. -/
theorem only_setup_faults_escape (g : Gateway) (reportDynamic : Bool) :
    (∀ (rule : Rule) (node : Node) (scope : Scope),
      (∃ complaints g', rule.check reportDynamic node scope g = .ok complaints g') ∨
        (∃ fault g', rule.check reportDynamic node scope g = .error (.configuration fault) g' ∧
          g.HasFault fault) ∨
        ∃ cause g', rule.check reportDynamic node scope g = .error (.breakdown cause) g') ∧
      ∀ (table : ClassTable) (files : List SourceFile),
        (∃ found g', analyseFiles table reportDynamic files g = .ok found g') ∨
          (∃ fault g', analyseFiles table reportDynamic files g = .error (.configuration fault) g' ∧
            g.HasFault fault) ∨
          ∃ cause g', analyseFiles table reportDynamic files g = .error (.breakdown cause) g' := by
  have unnoticed := g.becomes_unnoticed
  constructor
  · intro rule node scope
    exact (rule.check_steady unnoticed reportDynamic node scope).outcome
  · intro table files
    exact (analyseFiles_steady unnoticed table reportDynamic files).outcome

end EntityAudit
