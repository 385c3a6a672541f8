import EntityAudit.Proofs.Code.Alike
import EntityAudit.Proofs.Rule.Failures

/-! # The order of files does not count

Files that declare different classes may be analysed in any order. Classes are looked up by name,
gateways answer from what stands behind them, and with nothing but a catalog behind a gateway there
is one fault at most that an analysis can end with, unless it breaks down.
-/

namespace EntityAudit

variable {g : Gateway}

namespace Rule

variable {scope scope' : Scope} (alike : scope.Alike scope')
include alike

theorem checkProperty_alike (storedType? : EntityRecord → String → Option Ty) (node : Node) :
    checkProperty storedType? node scope = checkProperty storedType? node scope' := by
  have declared : node.declared? scope = node.declared? scope' := by
    cases node with
    | call | breakdown => rfl
    | property name => simp only [Node.declared?, alike.owner]
  have mismatches : typeMismatches scope.table = typeMismatches scope'.table := by
    funext className name property storage
    simp only [typeMismatches, Ty.accepts_alike alike.table]
  simp only [checkProperty, declared, mismatches]

theorem finder?_alike (call : MethodCall) : call.finder? scope = call.finder? scope' := by
  simp only [MethodCall.finder?, Scope.typeOf_alike alike, ClassTable.repositoryClass?,
    alike.table.repositoryEntity?_eq, alike.table.find?_eq]

theorem check_alike (reportDynamic : Bool) (rule : Rule) (node : Node) :
    rule.check reportDynamic node scope = rule.check reportDynamic node scope' := by
  cases rule with
  | relation => exact checkProperty_alike alike _ node
  | column => exact checkProperty_alike alike _ node
  | finderCriteria => simp only [check, checkFinderCriteria, finder?_alike alike]
  | builderQuery =>
    simp only [check, checkBuilderQuery, Scope.typeOf_alike alike, Ty.accepts_alike alike.table]

end Rule

theorem Visit.Alike.examine_eq {visit visit' : Visit} (alike : visit.Alike visit') (file : String)
    (reportDynamic : Bool) :
    visit.examine file reportDynamic = visit'.examine file reportDynamic := by
  have diagnosed : visit.diagnose file reportDynamic = visit'.diagnose file reportDynamic := by
    funext rule
    rw [diagnose, diagnose, alike.node, alike.line, Rule.check_alike alike.scope]
  rw [examine, examine, alike.node, diagnosed]

theorem analyseFile_alike {table table'} (alike : table.Alike table') :
    analyseFile table = analyseFile table' := by
  funext reportDynamic file
  have visits : List.Forall₂ Visit.Alike (file.classes.flatMap (·.visits table))
      (file.classes.flatMap (·.visits table')) := by
    induction file.classes with
    | nil => exact .nil
    | cons c classes ih =>
      rw [List.flatMap_cons, List.flatMap_cons]
      exact List.rel_append (c.visits_alike alike) ih
  dsimp only [analyseFile]
  generalize file.classes.flatMap (·.visits table) = here at visits
  generalize file.classes.flatMap (·.visits table') = here' at visits
  congr 1
  induction visits with
  | nil => rfl
  | cons first _ ih => rw [List.mapM_cons, List.mapM_cons, ih, first.examine_eq]

theorem Visit.examine_ok {visit : Visit} {file reportDynamic g' found}
    (done : visit.examine file reportDynamic g = .ok found g') :
    ∃ ofRules, (Rule.observing visit.node).mapM (visit.diagnose file reportDynamic) g =
      .ok ofRules g' ∧ found = ofRules.flatten := by
  unfold examine at done
  cases node : visit.node with
  | breakdown cause => rw [node] at done; cases done
  | property | call =>
    rw [node] at done
    obtain ⟨ofRules, _, answered, done⟩ := bind_ok.mp done
    obtain ⟨rfl, rfl⟩ := pure_ok.mp done
    exact ⟨ofRules, answered, rfl⟩

theorem analyseFile_file {table reportDynamic file g' found}
    (done : analyseFile table reportDynamic file g = .ok found g') :
    ∀ d ∈ found, d.file = file.path := by
  obtain ⟨ofVisits, _, visited, done⟩ := bind_ok.mp done
  obtain ⟨rfl, -⟩ := pure_ok.mp done
  intro d inside
  obtain ⟨ofVisit, among, inside⟩ := List.mem_flatten.mp inside
  obtain ⟨visit, -, _, _, asked⟩ := mem_of_mapM_ok visited ofVisit among
  obtain ⟨ofRules, answered, rfl⟩ := Visit.examine_ok asked
  obtain ⟨ofRule, among, inside⟩ := List.mem_flatten.mp inside
  obtain ⟨rule, -, _, _, diagnosed⟩ := mem_of_mapM_ok answered ofRule among
  obtain ⟨complaints, _, -, done⟩ := bind_ok.mp diagnosed
  obtain ⟨rfl, -⟩ := pure_ok.mp done
  obtain ⟨complaint, -, rfl⟩ := List.mem_map.mp inside
  rfl

/-- What stands behind the gateway, if connecting to it succeeds, is a catalog. -/
def Backing.IsStatic (b : Backing) : Prop :=
  ∀ source, b.outcome = some (.ok source) → ∃ catalog : Catalog, source = catalog.toSource

/-- The fault that an analysis ends with when what stands behind the gateway is needed and cannot be
    had. -/
def Backing.fault? (b : Backing) : Option ConfigurationFault :=
  match b.outcome with
  | none => some .mappingRequired
  | some (.ok _) => none
  | some (.error failure) => some failure.asConfiguration

namespace Backing

variable {b : Backing}

theorem Simulates.steady {α : Type} {lookup : Lookup α} {direct E}
    (same : b.Simulates Eq lookup direct)
    (allowed : ∀ failure, direct = .error failure → E failure) : Steady b.ServesBoth E lookup := by
  refine ⟨?_⟩
  rintro g g' ⟨serves, serves'⟩
  have left := same g serves
  have right := same g' serves'
  generalize lookup g = result at left ⊢
  generalize lookup g' = result' at right ⊢
  cases direct with
  | ok v =>
    cases left with
    | ok served related =>
      cases right with
      | ok served' related' => exact .ok ⟨related.trans related'.symm, served, served'⟩
  | error failure =>
    cases left with
    | error served =>
      cases right with
      | error served' => exact .error ⟨⟨rfl, allowed failure rfl⟩, served, served'⟩

theorem source?_error {failure} (failed : b.source? = .error failure) :
    failure.Must (b.fault? = some ·) := by
  unfold source? at failed
  split at failed
  next => cases failed
  next => cases failed
  next cause behind =>
    cases failed
    have fault : b.fault? = some cause.asConfiguration := by
      rw [fault?, behind]
    exact .configuration fault

namespace IsStatic

variable (static : b.IsStatic)
include static

theorem ignoresCase : b.IgnoresCase := by
  intro source behind
  obtain ⟨catalog, rfl⟩ := static source behind
  exact catalog.toSource_ignoresCase

theorem resolve_ok {source} (behind : b.outcome = some (.ok source)) (name : String) :
    ∃ mapping, Gateway.resolve source name = .ok mapping := by
  obtain ⟨catalog, rfl⟩ := static source behind
  unfold Gateway.resolve
  split
  · exact ⟨_, rfl⟩
  · exact ⟨_, rfl⟩

theorem record?_error {name failure} (failed : b.record? name = .error failure) :
    failure.Must (b.fault? = some ·) := by
  unfold record? mapping? at failed
  cases connected : b.source? with
  | error cause =>
    rw [connected] at failed
    cases failed
    exact source?_error connected
  | ok found =>
    rw [connected] at failed
    cases found with
    | none => cases failed
    | some source =>
      obtain ⟨mapping, resolved⟩ := static.resolve_ok (source?_eq_some.mp connected) name
      simp only [bind, Except.bind, resolved] at failed
      cases failed

theorem unnoticed : Gateway.Unnoticed b.ServesBoth (b.fault? = some ·) where
  configured related := related.1.configured.trans related.2.configured.symm
  unset {g _} related nothing := by
    have none : b.outcome = none := by
      rw [related.1.configured] at nothing
      simpa using nothing
    rw [fault?, none]
  kind := by
    apply simulates_managerKind.steady
    intro failure failed
    cases connected : b.source? with
    | ok found =>
      rw [managerKind?, connected] at failed
      cases failed
    | error cause =>
      rw [managerKind?, connected] at failed
      cases failed
      exact source?_error connected
  record name := by
    apply (simulates_record static.ignoresCase name).steady
    intro failure failed
    exact .of_must (static.record?_error failed)

end IsStatic

end Backing

section

variable {b : Backing}

def Backing.diagnostics (b : Backing) (table : ClassTable) (reportDynamic : Bool)
    (file : SourceFile) : List Diagnostic :=
  match analyseFile table reportDynamic file b.gateway with
  | .ok found _ => found
  | .error _ _ => []

theorem Backing.diagnostics_file (table : ClassTable) (reportDynamic : Bool) (file : SourceFile) :
    ∀ d ∈ b.diagnostics table reportDynamic file, d.file = file.path := by
  unfold diagnostics
  split
  next found g done => exact analyseFile_file done
  next => simp

/-- Whatever was analysed before, the analysis of a file comes to what it comes to at first. -/
theorem Backing.IsStatic.analyseFile_cases (static : b.IsStatic) (table : ClassTable)
    (reportDynamic : Bool) (file : SourceFile) (serves : b.Serves g) :
    (∃ h g', analyseFile table reportDynamic file b.gateway =
        .ok (b.diagnostics table reportDynamic file) h ∧
      analyseFile table reportDynamic file g = .ok (b.diagnostics table reportDynamic file) g' ∧
      b.Serves g') ∨
    ∃ failure h g', failure.Must (b.fault? = some ·) ∧
      analyseFile table reportDynamic file b.gateway = .error failure h ∧
      analyseFile table reportDynamic file g = .error failure g' := by
  have := static.unnoticed
  have steady : Steady b.ServesBoth (Failure.Must (b.fault? = some ·))
    (analyseFile table reportDynamic file) := inferInstance
  have both := steady.couples (⟨.gateway b, serves⟩ : b.ServesBoth b.gateway g)
  unfold diagnostics
  generalize analyseFile table reportDynamic file b.gateway = fresh at both ⊢
  generalize analyseFile table reportDynamic file g = result at both ⊢
  cases both with
  | ok same =>
    obtain ⟨rfl, -, served⟩ := same
    exact .inl ⟨_, _, rfl, rfl, served⟩
  | error same =>
    obtain ⟨⟨rfl, behind⟩, -⟩ := same
    exact .inr ⟨_, _, _, behind, rfl, rfl⟩

/-- Nothing keeps the file from being analysed. -/
def Backing.Analyses (b : Backing) (table : ClassTable) (reportDynamic : Bool)
    (file : SourceFile) : Prop :=
  ∃ g, analyseFile table reportDynamic file b.gateway =
    .ok (b.diagnostics table reportDynamic file) g

theorem Backing.IsStatic.mapM_analyseFile (static : b.IsStatic) (table : ClassTable)
    (reportDynamic : Bool) (files : List SourceFile) (serves : b.Serves g) :
    ((∀ file ∈ files, b.Analyses table reportDynamic file) →
        ∃ g', files.mapM (analyseFile table reportDynamic) g =
          .ok (files.map (b.diagnostics table reportDynamic)) g') ∧
      ((¬ ∀ file ∈ files, b.Analyses table reportDynamic file) →
        ∃ failure g', failure.Must (b.fault? = some ·) ∧
          files.mapM (analyseFile table reportDynamic) g = .error failure g') := by
  induction files generalizing g with
  | nil => exact ⟨fun _ => ⟨g, rfl⟩, fun fails => absurd (by simp) fails⟩
  | cons file files ih =>
    rw [List.mapM_cons, List.forall_mem_cons]
    rcases static.analyseFile_cases table reportDynamic file serves with
      ⟨h, g', fresh, here, served⟩ | ⟨failure, h, g', behind, fresh, here⟩
    · have analysed : b.Analyses table reportDynamic file := ⟨h, fresh⟩
      rw [bind_of_ok here, and_iff_right analysed]
      obtain ⟨done, failed⟩ := ih served
      constructor
      · intro each
        obtain ⟨g'', rest⟩ := done each
        rw [bind_of_ok rest]
        exact ⟨g'', rfl⟩
      · intro fails
        obtain ⟨failure, g'', behind, rest⟩ := failed fails
        exact ⟨failure, g'', behind, bind_of_error rest _⟩
    · rw [bind_of_error here]
      constructor
      · rintro ⟨⟨h', done⟩, -⟩
        rw [fresh] at done
        cases done
      · exact fun _ => ⟨failure, g', behind, rfl⟩

/-- Files that declare different classes are analysed alike in any order: over a catalog, over
    nothing, or where the mapping cannot be loaded, both analyses fail, with the same failure unless
    one breaks down, or both come to the same diagnostics for each file. -/
theorem analyseFiles_perm (b : Backing) (static : b.IsStatic) (table : ClassTable)
    (reportDynamic : Bool) {files files' : List SourceFile} (reordered : files.Perm files')
    (apart : files.Pairwise SourceFile.Apart) :
    (∃ failure failure' g g', analyseFiles table reportDynamic files b.gateway = .error failure g ∧
      analyseFiles table reportDynamic files' b.gateway = .error failure' g' ∧
      (failure = failure' ∨ ∃ cause, failure = .breakdown cause ∨ failure' = .breakdown cause)) ∨
    ∃ found : SourceFile → List Diagnostic, ∃ g g',
      (∀ file ∈ files, ∀ d ∈ found file, d.file = file.path) ∧
      analyseFiles table reportDynamic files b.gateway = .ok (files.flatMap found) g ∧
      analyseFiles table reportDynamic files' b.gateway = .ok (files'.flatMap found) g' := by
  have alike := ClassTable.registerFiles_perm reordered apart table
  unfold analyseFiles
  rw [← analyseFile_alike alike]
  generalize files.foldl ClassTable.registerFile table = all
  have serves := Backing.Serves.gateway b
  have runs := static.mapM_analyseFile all reportDynamic files serves
  have runs' := static.mapM_analyseFile all reportDynamic files' serves
  -- Whether all files can be analysed does not depend on their order, so the runs end alike.
  simp only [← reordered.mem_iff] at runs'
  by_cases each : ∀ file ∈ files, b.Analyses all reportDynamic file
  · obtain ⟨g, done⟩ := runs.1 each
    obtain ⟨g', done'⟩ := runs'.1 each
    refine .inr ⟨b.diagnostics all reportDynamic, g, g', ?_, ?_, ?_⟩
    · exact fun file _ => b.diagnostics_file all reportDynamic file
    · rw [bind_of_ok done, List.flatMap_def]
      rfl
    · rw [bind_of_ok done', List.flatMap_def]
      rfl
  · obtain ⟨failure, g, behind, failed⟩ := runs.2 each
    obtain ⟨failure', g', behind', failed'⟩ := runs'.2 each
    refine .inl ⟨failure, failure', g, g', bind_of_error failed _, bind_of_error failed' _, ?_⟩
    cases behind with
    | breakdown cause => exact .inr ⟨cause, .inl rfl⟩
    | configuration fault =>
      cases behind' with
      | breakdown cause => exact .inr ⟨cause, .inr rfl⟩
      | configuration fault' =>
        exact .inl (congrArg _ (Option.some.inj (fault.symm.trans fault')))

theorem SourceFile.apart_pair {file file' : SourceFile} (apart : ∀ c ∈ file.classes,
    ∀ c' ∈ file'.classes, Text.foldCase c'.name ≠ Text.foldCase c.name) :
    [file, file'].Pairwise Apart := by
  rw [List.pairwise_pair]
  rintro key ⟨c, inside, rfl⟩ ⟨c', inside', same⟩
  exact apart c inside c' inside' same

/-- Two files in either order, with a class in another case than the catalog has it and one that the
    catalog does not have. -/
theorem analyseFiles_perm_two :
    let post : SourceFile :=
      ⟨"Post.php", [{ name := "POST", properties := [⟨"id", .string, .int, 3⟩] }]⟩
    let people : SourceFile := ⟨"People.php", [{ name := "Person" },
      { name := "Author", parents := [.raw "person"], properties := [⟨"id", .string, .string, 8⟩] }]⟩
    let id : Field := { name := "id", column := "id", columnType := "integer", isId := true }
    let b : Backing := .store (Catalog.toSource { records :=
      [("post", { className := "Post", table := "post", fields := [id] }),
        ("author", { className := "Author", table := "author", fields := [id] })] })
    b.IsStatic ∧ [post, people].Pairwise SourceFile.Apart ∧
      ∃ ofPost ofPeople g g',
        (ofPost ++ ofPeople).map (·.file) = ["Post.php", "People.php", "People.php"] ∧
        analyseFiles {} false [post, people] b.gateway = .ok (ofPost ++ ofPeople) g ∧
        analyseFiles {} false [people, post] b.gateway = .ok (ofPeople ++ ofPost) g' := by
  intro post people id b
  have static : b.IsStatic := by
    rintro _ ⟨⟩
    exact ⟨_, rfl⟩
  have apart : [post, people].Pairwise SourceFile.Apart := SourceFile.apart_pair (by decide)
  have analysed : succeeds (analyseFiles {} false [post, people]) b.gateway (fun found =>
      found.map (·.file) == ["Post.php", "People.php", "People.php"]) = true := by
    decide +kernel
  obtain ⟨all, h, done, files⟩ := exists_of_succeeds analysed
  refine ⟨static, apart, ?_⟩
  rcases analyseFiles_perm b static {} false (.swap people post []) apart with
    ⟨_, _, _, _, failed, -⟩ | ⟨found, g, g', -, first, second⟩
  · rw [done] at failed
    cases failed
  · simp only [List.flatMap_cons, List.flatMap_nil, List.append_nil] at first second
    refine ⟨found post, found people, g, g', ?_, first, second⟩
    rw [done] at first
    cases first
    exact beq_iff_eq.mp files

/-- That the mapping cannot be loaded shows only where no file before breaks down inference. -/
theorem analyseFiles_breakdown_first :
    let plain : SourceFile := ⟨"a.php", [{ name := "A", properties := [⟨"id", .int, .int, 3⟩] }]⟩
    let broken : SourceFile := ⟨"b.php", [{ name := "B", methods := [{ name := "m", body :=
      [.assign "x" (.array [(some (.int Int64.maxValue), .int 1)]) 1] }] }]⟩
    let fault : ConfigurationFault := .reported "broken"
    let b : Backing := .loader fun _ => .error (.configuration fault)
    b.IsStatic ∧ [plain, broken].Pairwise SourceFile.Apart ∧ ∃ g g',
      analyseFiles {} false [plain, broken] b.gateway = .error (.configuration fault) g ∧
      analyseFiles {} false [broken, plain] b.gateway = .error (.breakdown .overflow) g' :=
  ⟨by rintro _ ⟨⟩, SourceFile.apart_pair (by decide), _, _, rfl, rfl⟩

end

end EntityAudit
