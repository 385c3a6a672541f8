import EntityAudit.Analysis
import EntityAudit.Proofs.Coupling
import EntityAudit.Proofs.Outcome
import Mathlib.Data.List.Forall2

/-! # Reports about dynamic builders

A report about a builder whose texts are not known takes the place of checks that cannot be made, so
turning reports on adds them and changes nothing else: neither what gateways are asked, nor how the
analysis ends, nor any other diagnostic.
-/

namespace EntityAudit

def reportMessages : List String :=
  ["Could not analyse QueryBuilder with unknown beginning.",
    "Could not analyse QueryBuilder with dynamic arguments."]

def Rule.reports (rule : Rule) (complaint : Complaint) : Bool :=
  rule.name == "doctrine.queryBuilderDql" && reportMessages.contains complaint.message

def Diagnostic.isReport (d : Diagnostic) : Bool :=
  d.rule.reports d.complaint

/-- Whether a node is a call that asks for the finished query. -/
def Node.asksForQuery : Node → Bool
  | .property _ | .breakdown _ => false
  | .call made => (made.method.map EntityAudit.asksForQuery).getD false

theorem Rule.reports_of_ne {rule : Rule} (other : rule ≠ .builderQuery) (complaint : Complaint) :
    rule.reports complaint = false := by
  cases rule with
  | builderQuery => exact absurd rfl other
  | _ => rfl

/-- Reports are told from other complaints by their first letter. -/
theorem Rule.reports_of_worded {complaint before after first}
    (worded : complaint.message = before ++ after) (starts : before.toList.head? = some first)
    (other : first ≠ 'C') (rule : Rule) : rule.reports complaint = false := by
  have capital : ∀ message ∈ reportMessages, message.toList.head? = some 'C' := by decide
  have letter : complaint.message.toList.head? = some first := by
    rw [worded, String.toList_append, List.head?_append, starts, Option.some_or]
  rw [reports, Bool.and_eq_false_iff, List.contains_eq_mem, decide_eq_false_iff_not]
  right
  intro listed
  exact other (Option.some.inj (letter.symm.trans (capital _ listed)))

theorem Rule.reports_rejectedCall (rule : Rule) (fault : BuilderFault) :
    rule.reports (.rejectedCall fault) = false := by
  have starts : "Internal error: ".toList.head? = some 'I' := by decide
  exact reports_of_worded rfl starts (by decide) rule

theorem Rule.reports_rejectedQuery (rule : Rule) (text : String) (rejection : Query.Rejection) :
    rule.reports (.rejectedQuery text rejection) = false := by
  have internal : "Internal error: ".toList.head? = some 'I' := by decide
  have quoted : "QueryBuilder: ".toList.head? = some 'Q' := by decide
  cases rejection with
  | malformed fault =>
    have worded (message : String) : "QueryBuilder: " ++ message ++ "\nDQL: " ++ text =
        "QueryBuilder: " ++ (message ++ "\nDQL: " ++ text) := by
      rw [String.append_assoc, String.append_assoc, String.append_assoc]
    exact reports_of_worded (worded _) quoted (by decide) rule
  | misnamed cause found near => exact reports_of_worded rfl quoted (by decide) rule
  | lookup failure => exact reports_of_worded rfl internal (by decide) rule

namespace Couples

variable {ε σ α β γ : Type}

theorem same {x : EStateM ε σ α} {R : α → Prop}
    (each : ∀ {s a s'}, x s = .ok a s' → R a) :
    Couples Eq x x (fun a b s t => (R a ∧ b = a) ∧ s = t) fun e e' s t => e = e' ∧ s = t := by
  rintro s _ rfl
  cases outcome : x s with
  | ok a s' => exact .ok ⟨⟨each outcome, rfl⟩, rfl⟩
  | error e s' => exact .error ⟨rfl, rfl⟩

theorem returned {P : σ → σ → Prop} {x : EStateM ε σ α} {y : EStateM ε σ β}
    {Q : α → β → σ → σ → Prop} {E : ε → ε → σ → σ → Prop} (couples : Couples P x y Q E) :
    Couples P x y (fun a b s t => (∃ before, x before = .ok a s) ∧ Q a b s t) E := by
  intro s t start
  have here := couples start
  cases left : x s with
  | ok a s' =>
    rw [left] at here
    generalize y t = right at here ⊢
    cases here with
    | ok related => exact .ok ⟨⟨s, left⟩, related⟩
  | error e s' =>
    rw [left] at here
    generalize y t = right at here ⊢
    cases here with
    | error related => exact .error related

theorem mapM {P : σ → σ → Prop} {E : ε → ε → σ → σ → Prop} {f : γ → EStateM ε σ α}
    {g : γ → EStateM ε σ β} {R : γ → α → Prop} {h : α → β}
    (each : ∀ c, Couples P (f c) (g c) (fun a b s t => (R c a ∧ b = h a) ∧ P s t) E) (cs : List γ) :
    Couples P (cs.mapM f) (cs.mapM g)
      (fun as bs s t => (List.Forall₂ R cs as ∧ bs = as.map h) ∧ P s t) E := by
  induction cs with
  | nil => exact .pure fun start => ⟨⟨.nil, rfl⟩, start⟩
  | cons c cs ih =>
    rw [List.mapM_cons, List.mapM_cons]
    refine (each c).bind fun a b => ?_
    rintro s t ⟨⟨here, rfl⟩, start⟩
    refine ih.bind (fun as bs => Couples.pure ?_) start
    rintro s t ⟨⟨items, rfl⟩, related⟩
    exact ⟨⟨.cons here items, rfl⟩, related⟩

end Couples

/-- Two look-ups, one with reports and one without: what the second finds is what the first finds
    less the reports, and `shows` holds of what the first finds. They fail alike, and ask the
    gateway the same. -/
def DifferByReports {α : Type} (isReport : α → Bool) (shows : List α → Prop)
    (on off : Lookup (List α)) : Prop :=
  Couples Eq on off
    (fun found left g g' => (shows found ∧ left = found.filter fun a => !isReport a) ∧ g = g')
    fun e e' g g' => e = e' ∧ g = g'

/-- The list is put together from parts that `R` holds of, one for each item in turn. -/
def Gathers {α γ : Type} (R : γ → List α → Prop) (cs : List γ) (found : List α) : Prop :=
  ∃ parts, found = parts.flatten ∧ List.Forall₂ R cs parts

theorem Gathers.pair {α γ : Type} {R : γ → List α → Prop} {c c' found}
    (gathers : Gathers R [c, c'] found) :
    ∃ part part', found = part ++ part' ∧ R c part ∧ R c' part' := by
  obtain ⟨parts, rfl, related⟩ := gathers
  cases related with
  | cons first rest =>
    cases rest with
    | cons second rest =>
      cases rest
      exact ⟨_, _, by rw [List.flatten_cons, List.flatten_singleton], first, second⟩

namespace DifferByReports

variable {α : Type} {isReport : α → Bool} {shows : List α → Prop}

theorem same {lookup}
    (each : ∀ {g found g'}, lookup g = .ok found g' →
      shows found ∧ ∀ a ∈ found, isReport a = false) :
    DifferByReports isReport shows lookup lookup := by
  have equal := Couples.same (x := lookup) each
  refine equal.mono id fun both => ⟨⟨both.1.1.1, ?_⟩, both.2⟩
  rw [both.1.2, List.filter_eq_self.mpr]
  intro a inside
  rw [both.1.1.2 a inside, Bool.not_false]

theorem pure {found left} (shown : shows found)
    (hidden : left = found.filter fun a => !isReport a) :
    DifferByReports isReport shows (Pure.pure found) (Pure.pure left) :=
  Couples.pure fun start => ⟨⟨shown, hidden⟩, start⟩

theorem throw (e : Failure) : DifferByReports isReport shows (MonadExcept.throw e : Lookup (List α))
    (MonadExcept.throw e) :=
  Couples.throw fun start => ⟨rfl, start⟩

theorem orNothing {on off} (differ : DifferByReports isReport shows on off) (nothing : shows []) :
    Couples Eq (Lookup.orNothing (some <$> on)) (Lookup.orNothing (some <$> off))
      (fun found left g g' => (shows (found.getD []) ∧
        left.getD [] = (found.getD []).filter fun a => !isReport a) ∧ g = g')
      fun e e' g g' => e = e' ∧ g = g' := by
  intro g g' start
  have here := differ start
  change Coupled _ _ (Lookup.orNothing (EStateM.map some on) g)
    (Lookup.orNothing (EStateM.map some off) g')
  unfold Lookup.orNothing EStateM.map
  generalize on g = result at here ⊢
  generalize off g' = result' at here ⊢
  cases here with
  | ok shown => exact .ok shown
  | error related =>
    obtain ⟨rfl, rfl⟩ := related
    dsimp only
    split
    · exact .error ⟨rfl, rfl⟩
    · exact .ok ⟨⟨nothing, rfl⟩, rfl⟩

theorem gather {γ : Type} {R on off} (each : ∀ c, DifferByReports isReport (R c) (on c) (off c))
    (cs : List γ) :
    DifferByReports isReport (Gathers R cs) (do return (← cs.mapM on).flatten)
      (do return (← cs.mapM off).flatten) := by
  refine (Couples.mapM each cs).bind fun parts left => Couples.pure ?_
  rintro g g' ⟨⟨related, rfl⟩, same⟩
  exact ⟨⟨⟨parts, rfl, related⟩, List.filter_flatten.symm⟩, same⟩

end DifferByReports

/-- What a rule says about a node when reports are on: a report only where a query is asked for, and
    nothing beside it. Where a query is asked for the other rules say nothing. -/
structure Rule.Shows (rule : Rule) (node : Node) (found : List Complaint) : Prop where
  alone : ∀ c ∈ found, rule.reports c = true → node.asksForQuery = true ∧ found = [c]
  silent : rule ≠ .builderQuery → node.asksForQuery = true → found = []

theorem Rule.Shows.nil (rule : Rule) (node : Node) : rule.Shows node [] where
  alone := by simp
  silent _ _ := rfl

theorem Rule.Shows.of_reports {rule : Rule} {node found}
    (none : ∀ c ∈ found, rule.reports c = false) (own : rule = .builderQuery) :
    rule.Shows node found where
  alone c inside report := by
    rw [none c inside] at report
    cases report
  silent other := absurd own other

theorem Rule.Shows.single {node} (asked : node.asksForQuery = true) (c : Complaint) :
    Rule.builderQuery.Shows node [c] where
  alone c' inside _ := ⟨asked, by rw [List.mem_singleton.mp inside]⟩
  silent other := absurd rfl other

theorem checkQueries_reports {texts g g' found} (checked : checkQueries texts g = .ok found g') :
    ∀ c ∈ found, Rule.builderQuery.reports c = false := by
  unfold checkQueries at checked
  rw [get_bind] at checked
  cases configured : g.isConfigured with
  | false =>
    rw [configured] at checked
    cases checked
  | true =>
    rw [configured] at checked
    obtain ⟨kind, _, -, checked⟩ := bind_ok.mp checked
    split at checked
    · obtain ⟨rfl, -⟩ := pure_ok.mp checked
      simp
    · obtain ⟨complaints, _, asked, checked⟩ := bind_ok.mp checked
      obtain ⟨rfl, -⟩ := pure_ok.mp checked
      intro c inside
      obtain ⟨_, among, rfl⟩ := List.mem_filterMap.mp inside
      obtain ⟨text, -, _, _, answered⟩ := mem_of_mapM_ok asked _ among
      obtain ⟨rejection, _, -, answered⟩ := bind_ok.mp answered
      obtain ⟨mapped, -⟩ := pure_ok.mp answered
      obtain ⟨rejection, -, rfl⟩ := Option.map_eq_some_iff.mp mapped
      exact Rule.builderQuery.reports_rejectedQuery text rejection

theorem Lookup.ofInference_ok_bind {α β : Type} (a : α) (f : Except BuilderFault α → Lookup β) :
    (Lookup.ofInference (.ok a) >>= f) = f (.ok a) :=
  rfl

theorem checkBuilderQuery_differ (node : Node) (scope : Scope) :
    DifferByReports Rule.builderQuery.reports (Rule.builderQuery.Shows node)
      (checkBuilderQuery true node scope) (checkBuilderQuery false node scope) := by
  have rejected (fault : BuilderFault) :
      DifferByReports Rule.builderQuery.reports (Rule.builderQuery.Shows node)
        (pure [.rejectedCall fault]) (pure [.rejectedCall fault]) := by
    apply DifferByReports.same
    rintro g found g' done
    obtain ⟨rfl, -⟩ := pure_ok.mp done
    have none : ∀ c ∈ [Complaint.rejectedCall fault], Rule.builderQuery.reports c = false := by
      simp [Rule.reports_rejectedCall]
    exact ⟨.of_reports none rfl, none⟩
  -- The switch is read where the builder is not known and where its text is not, and by then nothing
  -- has been asked of the gateway.
  unfold checkBuilderQuery
  cases node with
  | property | breakdown => exact .pure (.nil _ _) rfl
  | call call =>
    have asks : (Node.call call).asksForQuery = (call.method.map asksForQuery).getD false := rfl
    dsimp only
    cases asked : (call.method.map asksForQuery).getD false with
    | false => exact .pure (.nil _ _) rfl
    | true =>
      have alone := Rule.Shows.single (asks.trans asked)
      rcases scope.typeOf call.receiver with ⟨fault | cause⟩ | receiver
      · exact rejected fault
      · exact .throw _
      · simp only [if_true, Lookup.ofInference_ok_bind]
        cases receiver.isKnownBuilder with
        | false =>
          cases decide
            (Ty.accepts scope.table (.ofClass ClassName.queryBuilder) receiver = .yes) with
          | false => exact .pure (.nil _ _) rfl
          | true => exact .pure (alone _) rfl
        | true =>
          rcases scope.typeOf (.call call.receiver "getDQL" []) with ⟨fault | cause⟩ | text
          · exact rejected fault
          · exact .throw _
          · simp only [if_true, Lookup.ofInference_ok_bind]
            cases text.texts with
            | nil => exact .pure (alone _) rfl
            | cons text texts =>
              apply DifferByReports.same
              intro g found g' done
              have none := checkQueries_reports done
              exact ⟨.of_reports none rfl, none⟩

theorem finder?_of_asksForQuery {call : MethodCall} {method} (named : call.method = some method)
    (asked : asksForQuery method = true) (scope : Scope) : call.finder? scope = .ok none := by
  have unasked : ∀ method ∈ criteriaMethods, asksForQuery method = false := by decide
  have other : criteriaMethods.contains method = false := by
    rw [List.contains_eq_mem, decide_eq_false_iff_not]
    intro listed
    rw [unasked method listed] at asked
    cases asked
  simp only [MethodCall.finder?, named, other]
  rfl

theorem Rule.check_of_asksForQuery {rule : Rule} {node} (other : rule ≠ .builderQuery)
    (asked : node.asksForQuery = true) (reportDynamic : Bool) (scope : Scope) :
    rule.check reportDynamic node scope = pure [] := by
  cases node with
  | property | breakdown => cases asked
  | call call =>
    cases rule with
    | builderQuery => exact absurd rfl other
    | relation => rfl
    | column => rfl
    | finderCriteria =>
      cases named : call.method with
      | none =>
        rw [Node.asksForQuery, named] at asked
        cases asked
      | some method =>
        rw [Node.asksForQuery, named, Option.map_some, Option.getD_some] at asked
        simp only [check, checkFinderCriteria, finder?_of_asksForQuery named asked]
        rfl

theorem Rule.check_differ (rule : Rule) (node : Node) (scope : Scope) :
    DifferByReports rule.reports (rule.Shows node) (rule.check true node scope)
      (rule.check false node scope) := by
  -- No other rule reads the switch.
  have others (other : rule ≠ .builderQuery)
      (same : rule.check true node scope = rule.check false node scope) :
      DifferByReports rule.reports (rule.Shows node) (rule.check true node scope)
        (rule.check false node scope) := by
    rw [← same]
    apply DifferByReports.same
    intro g found g' done
    have none (c : Complaint) : rule.reports c = false := reports_of_ne other c
    refine ⟨⟨fun c _ report => absurd (none c) (by simp [report]), fun _ asked => ?_⟩,
      fun c _ => none c⟩
    rw [check_of_asksForQuery other asked] at done
    exact (pure_ok.mp done).1.symm
  cases rule with
  | builderQuery => exact checkBuilderQuery_differ node scope
  | _ => exact others (by decide) rfl

def SourceFile.visits (file : SourceFile) (table : ClassTable) : List Visit :=
  file.classes.flatMap (·.visits table)

/-- What is found on a visit when reports are on: a report only where a query is asked for, and
    nothing beside it. -/
structure Visit.Contributes (file : String) (visit : Visit) (found : List Diagnostic) : Prop where
  asked : ∃ g g', visit.examine file true g = .ok found g'
  alone : ∀ d ∈ found, d.isReport = true → visit.node.asksForQuery = true ∧ found = [d]

/-- What a rule contributes to a visit when reports are on. -/
structure Visit.Answers (visit : Visit) (rule : Rule) (found : List Diagnostic) : Prop where
  own : rule ≠ .builderQuery → ∀ d ∈ found, d.isReport = false
  alone : ∀ d ∈ found, d.isReport = true → visit.node.asksForQuery = true ∧ found = [d]
  silent : rule ≠ .builderQuery → visit.node.asksForQuery = true → found = []

theorem Visit.diagnose_differ (file : String) (visit : Visit) (rule : Rule) :
    DifferByReports Diagnostic.isReport (visit.Answers rule) (visit.diagnose file true rule)
      (visit.diagnose file false rule) := by
  have checked := (rule.check_differ visit.node visit.scope).orNothing (.nil rule visit.node)
  refine checked.bind fun found left => Couples.pure ?_
  rintro g g' ⟨⟨shown, hidden⟩, same⟩
  rw [hidden]
  generalize found.getD [] = complaints at shown
  refine ⟨⟨⟨?_, ?_, ?_⟩, ?_⟩, same⟩
  · intro other d inside
    obtain ⟨c, -, rfl⟩ := List.mem_map.mp inside
    exact Rule.reports_of_ne other c
  · intro d inside report
    obtain ⟨c, among, rfl⟩ := List.mem_map.mp inside
    obtain ⟨asked, only⟩ := shown.alone c among report
    exact ⟨asked, by rw [only, List.map_singleton]⟩
  · intro other asked
    rw [shown.silent other asked, List.map_nil]
  · rw [List.filter_map]
    rfl

theorem Visit.alone_of_answers {visit : Visit} {found}
    (answers : Gathers visit.Answers (Rule.observing visit.node) found) :
    ∀ d ∈ found, d.isReport = true → visit.node.asksForQuery = true ∧ found = [d] := by
  intro d inside report
  have own {rule : Rule} {found : List Diagnostic} (answers : visit.Answers rule found)
      (here : d ∈ found) : rule = .builderQuery := by
    by_contra other
    rw [answers.own other d here] at report
    cases report
  cases node : visit.node with
  | property name =>
    have rules : Rule.observing (.property name) = [.relation, .column] := rfl
    rw [node, rules] at answers
    obtain ⟨part, part', rfl, first, second⟩ := answers.pair
    rcases List.mem_append.mp inside with here | here
    · cases own first here
    · cases own second here
  | call call =>
    have rules : Rule.observing (.call call) = [.finderCriteria, .builderQuery] := rfl
    rw [node, rules] at answers
    obtain ⟨part, part', rfl, first, second⟩ := answers.pair
    rcases List.mem_append.mp inside with here | here
    · cases own first here
    · obtain ⟨asked, only⟩ := second.alone d here report
      rw [first.silent (by decide) asked, only]
      exact ⟨node ▸ asked, rfl⟩
  | breakdown cause =>
    have rules : Rule.observing (.breakdown cause) = [] := rfl
    rw [node, rules] at answers
    obtain ⟨parts, rfl, related⟩ := answers
    cases related
    cases inside

theorem Visit.examine_differ (file : String) (visit : Visit) :
    DifferByReports Diagnostic.isReport (visit.Contributes file) (visit.examine file true)
      (visit.examine file false) := by
  have differ : DifferByReports Diagnostic.isReport
      (Gathers visit.Answers (Rule.observing visit.node)) (visit.examine file true)
      (visit.examine file false) := by
    unfold examine
    cases visit.node with
    | breakdown cause => exact .throw _
    | property | call => exact DifferByReports.gather (visit.diagnose_differ file) _
  refine differ.returned.mono id ?_
  rintro found left g g' ⟨⟨before, ran⟩, ⟨answers, hidden⟩, same⟩
  exact ⟨⟨⟨⟨before, g, ran⟩, alone_of_answers answers⟩, hidden⟩, same⟩

/-- What is found in a file when reports are on: what its visits contribute, one after the other. -/
def SourceFile.Contributes (table : ClassTable) (file : SourceFile) : List Diagnostic → Prop :=
  Gathers (Visit.Contributes file.path) (file.visits table)

theorem analyseFile_differ (table : ClassTable) (file : SourceFile) :
    DifferByReports Diagnostic.isReport (file.Contributes table) (analyseFile table true file)
      (analyseFile table false file) :=
  DifferByReports.gather (Visit.examine_differ file.path) (file.visits table)

/-- Reports are all that turning them on adds. Over any gateway, the analyses with reports and
    without fail with the same failure, or both succeed: then each visit of each file contributes
    its diagnostics in turn, a report only where a query is asked for and nothing beside it; and
    without reports the same is found less the diagnostics of the rule on builders that have one of
    the two wordings of reports. -/
theorem analyseFiles_reports (g : Gateway) (table : ClassTable) (files : List SourceFile) :
    let all := files.foldl ClassTable.registerFile table
    (∃ failure g', analyseFiles table true files g = .error failure g' ∧
      analyseFiles table false files g = .error failure g') ∨
    ∃ found g', Gathers (SourceFile.Contributes all) files found ∧
      analyseFiles table true files g = .ok found g' ∧
      analyseFiles table false files g = .ok (found.filter fun d => !d.isReport) g' := by
  intro all
  have differ : DifferByReports Diagnostic.isReport (Gathers (SourceFile.Contributes all) files)
      (analyseFiles table true files) (analyseFiles table false files) :=
    DifferByReports.gather (analyseFile_differ all) files
  have both := differ (Eq.refl g)
  generalize analyseFiles table true files g = on at both ⊢
  generalize analyseFiles table false files g = off at both ⊢
  cases both with
  | ok shown =>
    obtain ⟨⟨contributed, rfl⟩, rfl⟩ := shown
    exact .inr ⟨_, _, contributed, rfl, rfl⟩
  | error related =>
    obtain ⟨rfl, rfl⟩ := related
    exact .inl ⟨_, _, rfl, rfl⟩

end EntityAudit
