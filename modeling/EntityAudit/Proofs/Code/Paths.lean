import EntityAudit.Code.Visit
import Mathlib.Data.List.Forall2

/-! # Paths through code

A path is the list of what a method evaluates and assigns on one way through it. The walk of a scope
visits exactly the calls that some path leads to, and an invariant that every step and every meeting
of branches keeps holds at each visit of all paths to it.
-/

namespace EntityAudit

/-- One thing that happens on a path. -/
inductive Event where
  | eval (value : Expr)
  | assign (name : String) (value : Expr)

def Event.value : Event → Expr
  | .eval value => value
  | .assign _ value => value

/-- What happens on one way through code, in order. -/
abbrev Path := List Event

namespace Path

/-- Every path of `later` after every path of `before`. -/
def follow (before later : List Path) : List Path :=
  before.flatMap fun path => later.map (path ++ ·)

theorem follow_assoc (first second third : List Path) :
    follow (follow first second) third = follow first (follow second third) := by
  simp [follow, List.flatMap_assoc, List.map_flatMap, List.flatMap_map, Function.comp_def]

theorem mem_follow_append (before first second : List Path) (path : Path) :
    path ∈ follow before (first ++ second) ↔
      path ∈ follow before first ∨ path ∈ follow before second := by
  simp only [follow, List.mem_flatMap, List.map_append, List.mem_append]
  grind

@[simp] theorem follow_nil (before : List Path) : follow before [] = [] := by
  simp [follow]

@[simp] theorem nil_follow (later : List Path) : follow [] later = [] := rfl

@[simp] theorem follow_empty (before : List Path) : follow before [[]] = before := by
  simp [follow]

theorem follow_singleton (before : List Path) (path : Path) :
    follow before [path] = before.map (· ++ path) := by
  simp [follow, List.map_eq_flatMap]

theorem follow_eq_nil_iff {before later} : follow before later = [] ↔ before = [] ∨ later = [] := by
  cases before with
  | nil => simp
  | cons path paths => cases later <;> simp [follow]

end Path

/-- A method call of some code, with the paths that lead to it. -/
structure Site where
  call : MethodCall
  line : Nat
  /-- The paths from the start of the code to the statement of the call. -/
  paths : List Path

namespace Site

/-- The call as it is reached by code that comes after `before`. -/
def after (before : List Path) (site : Site) : Site :=
  { site with paths := Path.follow before site.paths }

def isReached (site : Site) : Bool :=
  !site.paths.isEmpty

@[simp] theorem isReached_after (before : List Path) (site : Site) :
    (site.after before).isReached = (!before.isEmpty && site.isReached) := by
  cases before with
  | nil => simp [isReached, after]
  | cons path paths => cases later : site.paths <;> simp [isReached, after, later, Path.follow]

end Site

def Expr.sites (e : Expr) (line : Nat) : List Site :=
  e.methodCalls.map fun call => ⟨call, line, [[]]⟩

namespace Stmt

mutual
/-- The paths through a statement that do not return. -/
def paths : Stmt → List Path
  | .expr value _ => [[.eval value]]
  | .assign name value _ => [[.assign name value]]
  | .branch condition holds fails _ =>
    Path.follow [[.eval condition]] (pathsAll holds ++ pathsAll fails)
  | .ret _ _ => []

def pathsAll : List Stmt → List Path
  | [] => [[]]
  | stmt :: stmts => Path.follow (paths stmt) (pathsAll stmts)
end

mutual
/-- The calls of a statement with the paths to them. -/
def sites : Stmt → List Site
  | .expr value line | .assign _ value line | .ret (some value) line => value.sites line
  | .branch condition holds fails line =>
    condition.sites line ++ (sitesAll holds ++ sitesAll fails).map (·.after [[.eval condition]])
  | .ret none _ => []

def sitesAll : List Stmt → List Site
  | [] => []
  | stmt :: stmts => sites stmt ++ (sitesAll stmts).map (·.after (paths stmt))
end

mutual
/-- Everything that a statement may evaluate or assign, on whatever path. -/
def events : Stmt → List Event
  | .expr value _ | .ret (some value) _ => [.eval value]
  | .assign name value _ => [.assign name value]
  | .branch condition holds fails _ => .eval condition :: (eventsAll holds ++ eventsAll fails)
  | .ret none _ => []

def eventsAll : List Stmt → List Event
  | [] => []
  | stmt :: stmts => events stmt ++ eventsAll stmts
end

end Stmt

namespace Site

mutual
theorem call_mem_events : ∀ {stmt : Stmt} {site : Site}, site ∈ stmt.sites →
    ∃ event ∈ stmt.events, site.call ∈ event.value.methodCalls
  | .expr value line, site, inside | .assign _ value line, site, inside
  | .ret (some value) line, site, inside => by
    obtain ⟨call, member, rfl⟩ := List.mem_map.mp inside
    exact ⟨_, List.mem_singleton.mpr rfl, member⟩
  | .branch condition holds fails line, site, inside => by
    simp only [Stmt.sites, List.mem_append, List.mem_map] at inside
    simp only [Stmt.events, List.mem_cons, List.mem_append]
    rcases inside with own | ⟨inner, left | right, rfl⟩
    · obtain ⟨call, member, rfl⟩ := List.mem_map.mp own
      exact ⟨.eval condition, .inl rfl, member⟩
    · obtain ⟨event, member, call⟩ := call_mem_eventsAll left
      exact ⟨event, .inr (.inl member), call⟩
    · obtain ⟨event, member, call⟩ := call_mem_eventsAll right
      exact ⟨event, .inr (.inr member), call⟩
  | .ret none line, site, inside => by simp [Stmt.sites] at inside

theorem call_mem_eventsAll : ∀ {stmts : List Stmt} {site : Site}, site ∈ Stmt.sitesAll stmts →
    ∃ event ∈ Stmt.eventsAll stmts, site.call ∈ event.value.methodCalls
  | [], site, inside => by simp [Stmt.sitesAll] at inside
  | stmt :: stmts, site, inside => by
    simp only [Stmt.sitesAll, List.mem_append, List.mem_map] at inside
    simp only [Stmt.eventsAll, List.mem_append]
    rcases inside with first | ⟨inner, later, rfl⟩
    · obtain ⟨event, member, call⟩ := call_mem_events first
      exact ⟨event, .inl member, call⟩
    · obtain ⟨event, member, call⟩ := call_mem_eventsAll later
      exact ⟨event, .inr member, call⟩
end

end Site

/-- An invariant of scopes and the paths they stand for: every event with `ok` keeps it, and so does
    the meeting of two branches. -/
structure FlowInvariant (ok : Event → Prop) (inv : Scope → List Path → Prop) : Prop where
  eval {s : Scope} {before : List Path} {value : Expr} (line : Nat) : ok (.eval value) →
    inv s before → inv (s.pass (.expr value line)) (Path.follow before [[.eval value]])
  assign {s : Scope} {before : List Path} {name : String} {value : Expr} (line : Nat) :
    ok (.assign name value) → inv s before →
      inv (s.pass (.assign name value line)) (Path.follow before [[.assign name value]])
  /-- Where two branches meet it holds of the paths through either. -/
  merge {a b : Scope} {first second both : List Path} : inv a first → inv b second →
    (∀ path, path ∈ both ↔ path ∈ first ∨ path ∈ second) → inv (a.merge b) both

def Visit.isCall (visit : Visit) : Bool :=
  visit.node matches .call _

/-- A visit is one to the call of a site, in a scope that stands for the paths to it. -/
structure Visit.IsAt (inv : Scope → List Path → Prop) (before : List Path) (site : Site)
    (visit : Visit) : Prop where
  node : visit.node = .call site.call
  line : visit.line = site.line
  /-- The scope stands for the paths to it. -/
  scope : inv visit.scope (Path.follow before site.paths)

/-- The result of a walk over code with given sites and paths, after the paths `before`. -/
structure Walked (inv : Scope → List Path → Prop) (before : List Path) (sites : List Site)
    (paths : List Path) (result : List Visit × Option Scope) : Prop where
  /-- The visits to calls are to those that are reached, in order. -/
  visits : List.Forall₂ (fun site visit => Visit.IsAt inv before site visit)
    (sites.filter (·.isReached)) (result.1.filter (·.isCall))
  /-- There is no scope at the end when every path returns. -/
  returns : result.2 = none → paths = []
  /-- The scope at the end stands for the paths through the code. -/
  ends : ∀ s, result.2 = some s → paths ≠ [] ∧ inv s (Path.follow before paths)

section
variable {ok : Event → Prop} {inv : Scope → List Path → Prop}
variable {before later paths : List Path} {visits : List Visit} {sites : List Site}

theorem filter_visitCalls (s : Scope) (e : Expr) (line : Nat) :
    (s.visitCalls e line).filter (·.isCall) = s.visitCalls e line :=
  List.filter_eq_self.mpr fun visit inside => by
    obtain ⟨call, -, rfl⟩ := List.mem_map.mp inside
    rfl

theorem filter_visitBreakdown (s : Scope) (stmt : Stmt) (line : Nat) :
    (s.visitBreakdown stmt line).filter (·.isCall) = [] := by
  unfold Scope.visitBreakdown
  split <;> rfl

theorem visits_calls {s} (holds : inv s before) (e : Expr) (line : Nat) :
    List.Forall₂ (fun site visit => Visit.IsAt inv before site visit)
      ((e.sites line).filter (·.isReached)) ((s.visitCalls e line).filter (·.isCall)) := by
  have all : (e.sites line).filter (·.isReached) = e.sites line := by
    simp [Expr.sites, Site.isReached]
  rw [filter_visitCalls, all, Expr.sites, Scope.visitCalls]
  induction e.methodCalls with
  | nil => exact .nil
  | cons call calls ih => exact .cons ⟨rfl, rfl, by simpa using holds⟩ ih

theorem Visit.IsAt.after {site visit}
    (here : Visit.IsAt inv (Path.follow before later) site visit) :
    Visit.IsAt inv before (site.after later) visit where
  node := here.node
  line := here.line
  scope := by simpa only [Site.after, Path.follow_assoc] using here.scope

theorem visits_after (some : later ≠ []) (rest : List.Forall₂ (fun site visit => Visit.IsAt inv
      (Path.follow before later) site visit) (sites.filter (·.isReached)) visits) :
    List.Forall₂ (fun site visit => Visit.IsAt inv before site visit)
      ((sites.map (·.after later)).filter (·.isReached)) visits := by
  have kept : ((·.isReached) ∘ (·.after later) : Site → Bool) = (·.isReached) := by
    funext site
    simp [some]
  rw [List.filter_map, kept, List.forall₂_map_left_iff]
  exact rest.imp fun _ _ here => here.after

theorem Walked.calls {s final} (holds : inv s before) (e : Expr) (stmt : Stmt) (line : Nat)
    (through : paths ≠ []) (passed : inv final (Path.follow before paths)) :
    Walked inv before (e.sites line) paths
      (s.visitCalls e line ++ s.visitBreakdown stmt line, some final) where
  visits := by
    rw [List.filter_append, filter_visitBreakdown, List.append_nil]
    exact visits_calls holds e line
  returns := by simp
  ends := by
    rintro _ ⟨⟩
    exact ⟨through, passed⟩

theorem Walked.cut (first : Walked inv before sites paths (visits, none)) (rest : List Site)
    (later : List Path) :
    Walked inv before (sites ++ rest.map (·.after paths)) (Path.follow paths later)
      (visits, none) := by
  have ended : paths = [] := first.returns rfl
  have unreached : (rest.map (·.after paths)).filter (·.isReached) = [] := by
    simp [ended, List.filter_eq_nil_iff]
  refine ⟨?_, fun _ => by rw [ended, Path.nil_follow], by simp⟩
  rw [List.filter_append, unreached, List.append_nil]
  exact first.visits

theorem Walked.append {rest middle result}
    (first : Walked inv before sites paths (visits, some middle))
    (second : Walked inv (Path.follow before paths) rest later result) :
    Walked inv before (sites ++ rest.map (·.after paths)) (Path.follow paths later)
      (visits ++ result.1, result.2) := by
  obtain ⟨through, -⟩ := first.ends middle rfl
  refine ⟨?_, fun returned => ?_, fun s ended => ?_⟩
  · rw [List.filter_append, List.filter_append]
    exact List.rel_append first.visits (visits_after through second.visits)
  · rw [second.returns returned, Path.follow_nil]
  · obtain ⟨further, holds⟩ := second.ends s ended
    refine ⟨fun empty => ?_, by simpa only [Path.follow_assoc] using holds⟩
    rcases Path.follow_eq_nil_iff.mp empty with none | none
    · exact through none
    · exact further none

theorem Walked.meet (flow : FlowInvariant ok inv)
    {left right leftSites rightSites leftResult rightResult}
    (first : Walked inv before leftSites left leftResult)
    (second : Walked inv before rightSites right rightResult) :
    Walked inv before (leftSites ++ rightSites) (left ++ right)
      (leftResult.1 ++ rightResult.1, Scope.meet leftResult.2 rightResult.2) := by
  obtain ⟨leftVisits, leftEnd⟩ := leftResult
  obtain ⟨rightVisits, rightEnd⟩ := rightResult
  refine ⟨?_, ?_, ?_⟩
  · rw [List.filter_append, List.filter_append]
    exact List.rel_append first.visits second.visits
  · cases leftEnd with
    | none =>
      intro returned
      rw [first.returns rfl, second.returns returned, List.append_nil]
    | some a => cases rightEnd <;> simp [Scope.meet]
  · cases leftEnd with
    | none =>
      intro s ended
      rw [first.returns rfl, List.nil_append]
      exact second.ends s ended
    | some a =>
      obtain ⟨through, holds⟩ := first.ends a rfl
      cases rightEnd with
      | none =>
        rintro _ ⟨⟩
        rw [second.returns rfl, List.append_nil]
        exact ⟨through, holds⟩
      | some b =>
        rintro _ ⟨⟩
        obtain ⟨-, others⟩ := second.ends b rfl
        refine ⟨by simp [through], flow.merge holds others fun path => ?_⟩
        exact Path.mem_follow_append before left right path

mutual
/-- A walk visits the calls that are reached, each in a scope that stands for the paths to it. -/
theorem walk_walked (flow : FlowInvariant ok inv) {before} :
    ∀ (stmt : Stmt) {s : Scope}, (∀ event ∈ stmt.events, ok event) → inv s before →
      Walked inv before stmt.sites stmt.paths (s.walk stmt)
  | .expr value line, s, allowed, holds => by
    have passed := flow.eval line (allowed (.eval value) (by simp [Stmt.events])) holds
    exact Walked.calls holds value _ line (List.cons_ne_nil _ _) passed
  | .assign name value line, s, allowed, holds => by
    have passed := flow.assign line (allowed (.assign name value) (by simp [Stmt.events])) holds
    exact Walked.calls holds value _ line (List.cons_ne_nil _ _) passed
  | .branch condition holds fails line, s, allowed, inside => by
    simp only [Stmt.events, List.mem_cons, List.mem_append] at allowed
    -- A branch evaluates its condition the way an expression statement does.
    have entered : inv (s.pass (.branch condition holds fails line))
        (Path.follow before [[.eval condition]]) :=
      flow.eval line (allowed _ (.inl rfl)) inside
    have start := Walked.calls inside condition (.branch condition holds fails line) line
      (List.cons_ne_nil _ _) entered
    have left := walkAll_walked flow holds (fun e m => allowed e (.inr (.inl m))) entered
    have right := walkAll_walked flow fails (fun e m => allowed e (.inr (.inr m))) entered
    have both := start.append (left.meet flow right)
    rw [← List.append_assoc] at both
    exact both
  | .ret (some value) line, s, _, holds =>
    ⟨visits_calls holds value line, fun _ => by simp [Stmt.paths], by simp [Scope.walk]⟩
  | .ret none line, s, _, _ =>
    ⟨by simp [Stmt.sites, Scope.walk], fun _ => by simp [Stmt.paths], by simp [Scope.walk]⟩

theorem walkAll_walked (flow : FlowInvariant ok inv) {before} :
    ∀ (stmts : List Stmt) {s : Scope}, (∀ event ∈ Stmt.eventsAll stmts, ok event) → inv s before →
      Walked inv before (Stmt.sitesAll stmts) (Stmt.pathsAll stmts) (s.walkAll stmts)
  | [], s, _, holds =>
    ⟨by simp [Stmt.sitesAll, Scope.walkAll], by simp [Scope.walkAll], by
      simpa [Scope.walkAll, Stmt.pathsAll] using holds⟩
  | stmt :: stmts, s, allowed, holds => by
    simp only [Stmt.eventsAll, List.mem_append] at allowed
    have first := walk_walked flow stmt (fun e m => allowed e (.inl m)) holds
    rw [Scope.walkAll]
    rcases found : s.walk stmt with ⟨visits, _ | middle⟩
    · rw [found] at first
      exact first.cut _ _
    · rw [found] at first
      exact first.append (walkAll_walked flow stmts (fun e m => allowed e (.inr m))
        (first.ends middle rfl).2)
end

end

end EntityAudit
