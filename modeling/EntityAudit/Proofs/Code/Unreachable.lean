import EntityAudit.Analysis
import EntityAudit.Proofs.Code.Paths
import EntityAudit.Proofs.Outcome

/-! # Code that is not reached

Whatever stands after a statement that returns on every path, an analysis finds the same and fails
alike. A place among statements is what surrounds it: what comes before it in its own block, and the
branches that the block is nested in.
-/

namespace EntityAudit

namespace Stmt

mutual
/-- Whether a statement returns on every path: it is a return, or both its branches return on every
    path. -/
def returns : Stmt → Bool
  | .ret _ _ => true
  | .branch _ holds fails _ => anyReturns holds && anyReturns fails
  | .expr _ _ | .assign _ _ _ => false

def anyReturns : List Stmt → Bool
  | [] => false
  | stmt :: stmts => returns stmt || anyReturns stmts
end

mutual
theorem paths_eq_nil_iff : ∀ stmt : Stmt, stmt.paths = [] ↔ stmt.returns = true
  | .expr _ _ | .assign _ _ _ | .ret _ _ => by simp [paths, returns]
  | .branch condition holds fails line => by
    rw [paths, returns, Path.follow_eq_nil_iff, List.append_eq_nil_iff, pathsAll_eq_nil_iff holds,
      pathsAll_eq_nil_iff fails, Bool.and_eq_true]
    simp

theorem pathsAll_eq_nil_iff : ∀ stmts : List Stmt, pathsAll stmts = [] ↔ anyReturns stmts = true
  | [] => by simp [pathsAll, anyReturns]
  | stmt :: stmts => by
    rw [pathsAll, anyReturns, Path.follow_eq_nil_iff, paths_eq_nil_iff stmt,
      pathsAll_eq_nil_iff stmts, Bool.or_eq_true]
end

end Stmt

namespace Scope

theorem walk_of_returns (s : Scope) {stmt} (returns : stmt.returns = true) :
    (s.walk stmt).2 = none := by
  -- Nothing has to be known about the types on the way: only that the walk has no path to end on.
  have flow : FlowInvariant (fun _ => True) (fun _ _ => True) := ⟨by simp, by simp, by simp⟩
  have walked : Walked (fun _ _ => True) [] stmt.sites stmt.paths (s.walk stmt) :=
    walk_walked flow stmt (fun _ _ => trivial) trivial
  cases ended : (s.walk stmt).2 with
  | none => rfl
  | some after => exact absurd (stmt.paths_eq_nil_iff.mpr returns) (walked.ends after ended).1

theorem walkAll_of_returns (s : Scope) {stmt} (returns : stmt.returns = true)
    (old new : List Stmt) :
    s.walkAll (stmt :: old) = s.walkAll (stmt :: new) := by
  have ended := s.walk_of_returns returns
  rw [walkAll, walkAll]
  generalize s.walk stmt = walked at ended
  obtain ⟨visits, after⟩ := walked
  cases ended
  rfl

theorem walkAll_append {old new} (same : ∀ s : Scope, s.walkAll old = s.walkAll new)
    (before : List Stmt) : ∀ s : Scope, s.walkAll (before ++ old) = s.walkAll (before ++ new) := by
  induction before with
  | nil => exact same
  | cons stmt before ih =>
    intro s
    rw [List.cons_append, List.cons_append, walkAll, walkAll]
    generalize s.walk stmt = walked
    obtain ⟨visits, after⟩ := walked
    cases after with
    | none => rfl
    | some after =>
      dsimp only
      rw [ih after]

theorem walk_branch {holds holds' fails fails'}
    (left : ∀ s : Scope, s.walkAll holds = s.walkAll holds')
    (right : ∀ s : Scope, s.walkAll fails = s.walkAll fails') (s : Scope) (condition : Expr)
    (line : Nat) : s.walk (.branch condition holds fails line) =
      s.walk (.branch condition holds' fails' line) := by
  have inner : s.pass (.branch condition holds fails line) =
      s.pass (.branch condition holds' fails' line) := rfl
  have broken : s.visitBreakdown (.branch condition holds fails line) line =
      s.visitBreakdown (.branch condition holds' fails' line) line := rfl
  rw [walk, walk, inner, broken, left, right]

end Scope

/-- A place among the statements of a method, from which some statements go on to the end of their
    block. -/
inductive Place where
  /-- After `before`. -/
  | after (before : List Stmt)
  /-- Where a condition holds. -/
  | inHolds (before : List Stmt) (condition : Expr) (inner : Place) (fails : List Stmt) (line : Nat)
      (later : List Stmt)
  /-- Where a condition fails. -/
  | inFails (before : List Stmt) (condition : Expr) (holds : List Stmt) (inner : Place) (line : Nat)
      (later : List Stmt)

def Place.fill : Place → List Stmt → List Stmt
  | .after before, stmts => before ++ stmts
  | .inHolds before condition inner fails line later, stmts =>
    before ++ .branch condition (inner.fill stmts) fails line :: later
  | .inFails before condition holds inner line later, stmts =>
    before ++ .branch condition holds (inner.fill stmts) line :: later

theorem Place.walkAll_fill {old new} (same : ∀ s : Scope, s.walkAll old = s.walkAll new)
    (place : Place) : ∀ s : Scope, s.walkAll (place.fill old) = s.walkAll (place.fill new) := by
  induction place with
  | after before => exact Scope.walkAll_append same before
  | inHolds before condition inner fails line later ih =>
    apply Scope.walkAll_append
    intro s
    rw [Scope.walkAll, Scope.walkAll, Scope.walk_branch ih fun _ => rfl]
  | inFails before condition holds inner line later ih =>
    apply Scope.walkAll_append
    intro s
    rw [Scope.walkAll, Scope.walkAll, Scope.walk_branch (fun _ => rfl) ih]

/-- A method among the classes of a file. The other methods of its class and its own statements are
    given apart, whatever `owner` and `method` have there. -/
structure MethodPlace where
  path : String
  classesBefore : List ClassDecl
  owner : ClassDecl
  methodsBefore : List MethodDecl
  method : MethodDecl
  methodsAfter : List MethodDecl
  classesAfter : List ClassDecl

namespace MethodPlace

def ownerWith (m : MethodPlace) (body : List Stmt) : ClassDecl :=
  { m.owner with methods := m.methodsBefore ++ { m.method with body } :: m.methodsAfter }

def fileWith (m : MethodPlace) (body : List Stmt) : SourceFile :=
  ⟨m.path, m.classesBefore ++ m.ownerWith body :: m.classesAfter⟩

theorem toInfo_ownerWith (m : MethodPlace) (body body' : List Stmt) :
    (m.ownerWith body).toInfo = (m.ownerWith body').toInfo := by
  simp [ownerWith, ClassDecl.toInfo]

theorem registerFile_fileWith (m : MethodPlace) (body body' : List Stmt) (table : ClassTable) :
    table.registerFile (m.fileWith body) = table.registerFile (m.fileWith body') := by
  simp [fileWith, ClassTable.registerFile, m.toInfo_ownerWith body body']

theorem visits_fileWith (m : MethodPlace) {body body'}
    (same : ∀ s : Scope, s.walkAll body = s.walkAll body') (table : ClassTable) :
    (m.fileWith body).classes.flatMap (·.visits table) =
      (m.fileWith body').classes.flatMap (·.visits table) := by
  simp [fileWith, ownerWith, ClassDecl.visits, same]

theorem analyseFile_fileWith (m : MethodPlace) {body body'}
    (same : ∀ s : Scope, s.walkAll body = s.walkAll body') (table : ClassTable)
    (reportDynamic : Bool) :
    analyseFile table reportDynamic (m.fileWith body) =
      analyseFile table reportDynamic (m.fileWith body') := by
  have path : (m.fileWith body).path = (m.fileWith body').path := rfl
  simp only [analyseFile, m.visits_fileWith same, path]

end MethodPlace

/-- Code that is not reached does not count. In any method of a file, take a statement that returns
    on every path, at whatever depth of branches it stands: what comes after it in its block may be
    replaced by any other statements, and from every gateway the analysis of the file, or of files
    that it is one of, comes to the same diagnostics or the same failure. -/
theorem analyse_unreachable (m : MethodPlace) (place : Place) {stmt : Stmt}
    (returns : stmt.returns = true) (old new : List Stmt) (reportDynamic : Bool)
    (table : ClassTable) :
    let file := m.fileWith (place.fill (stmt :: old))
    let file' := m.fileWith (place.fill (stmt :: new))
    analyseFile table reportDynamic file = analyseFile table reportDynamic file' ∧
      ∀ before after : List SourceFile,
        analyseFiles table reportDynamic (before ++ file :: after) =
          analyseFiles table reportDynamic (before ++ file' :: after) := by
  intro file file'
  have walked : ∀ s : Scope, s.walkAll (place.fill (stmt :: old)) =
      s.walkAll (place.fill (stmt :: new)) :=
    place.walkAll_fill fun s => s.walkAll_of_returns returns old new
  have analysed := m.analyseFile_fileWith walked
  refine ⟨analysed table reportDynamic, fun before after => ?_⟩
  have registered : (before ++ file :: after).foldl ClassTable.registerFile table =
      (before ++ file' :: after).foldl ClassTable.registerFile table := by
    rw [List.foldl_append, List.foldl_append, List.foldl_cons, List.foldl_cons,
      m.registerFile_fileWith]
  simp only [analyseFiles, registered, List.mapM_append, List.mapM_cons]
  rw [analysed]

/-- A call that would be complained about stands after a condition both of whose branches return,
    where another condition fails. -/
theorem analyse_unreachable_nested :
    let asks : Stmt := .expr (.call (.call (.var "qb") "select" [.var "p"]) "getQuery" []) 7
    let ends : Stmt := .branch (.var "p") [.ret none 4] [.expr .null 5, .ret (some .null) 6] 3
    let place : Place := .inFails [.expr .null 1] (.bool true) [] (.after [.expr .null 3]) 2 [asks]
    let m : MethodPlace := ⟨"Post.php", [], { name := "Post" }, [],
      { name := "m", params := [⟨"qb", .builder []⟩, ⟨"p", .string⟩] }, [], []⟩
    let lines (body : List Stmt) (expected : List Nat) : Bool :=
      succeeds (analyseFile {} true (m.fileWith body)) {}
        fun found => found.map (·.line) == expected
    ends.returns = true ∧ lines (place.fill [asks]) [7, 7] = true ∧
      lines (place.fill [ends]) [7] = true ∧
      analyseFile {} true (m.fileWith (place.fill [ends, asks])) =
        analyseFile {} true (m.fileWith (place.fill [ends])) := by
  intro asks ends place m lines
  have returns : ends.returns = true := by decide
  exact ⟨returns, by decide +kernel, by decide +kernel,
    (analyse_unreachable m place returns [asks] [] true {}).1⟩

end EntityAudit
