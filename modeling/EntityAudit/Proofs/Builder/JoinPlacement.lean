import EntityAudit.Proofs.Builder.Reset
import Mathlib.Data.List.Basic
import Mathlib.Data.List.Induction

/-! # Where joins stand

A join is filed under the alias of a root entity when it is made: the alias it starts from is a
root, or hangs off one, or is not known yet and the first root stands in for it. As long as nothing
is cleared or replaced and no alias is given twice, each join is written once, with that root, and
in order.
-/

namespace EntityAudit

variable {made : List (BuilderCall Literal)} {calls : List (BuilderCall Ty)} {join : JoinPart}

def BuilderMethod.isJoin : BuilderMethod → Bool
  | .join | .innerJoin | .leftJoin => true
  | _ => false

def applyAll (parts : QueryParts) (made : List (BuilderCall Literal)) :
    Except BuilderFault QueryParts :=
  made.foldlM (fun parts call => parts.apply call.method call.args) parts

theorem literalCalls?_filter (keeps : BuilderMethod → Bool)
    (literal : literalCalls? calls = some made) :
    literalCalls? (calls.filter (keeps ·.method)) = some (made.filter (keeps ·.method)) := by
  induction calls generalizing made with
  | nil =>
    cases literal
    rfl
  | cons call calls ih =>
    cases shapes : call.method.shapesText with
    | false =>
      rw [literalCalls?_skip shapes] at literal
      rw [List.filter_cons]
      split
      · rw [literalCalls?_skip shapes]
        exact ih literal
      · exact ih literal
    | true =>
      obtain ⟨first, later, rfl, here, rest⟩ := (literalCalls?_cons shapes).mp literal
      have same := (BuilderCall.literal?_eq_some.mp here).1
      rw [List.filter_cons, List.filter_cons, same]
      split
      · exact (literalCalls?_cons shapes).mpr ⟨first, _, rfl, here, ih rest⟩
      · exact ih rest

theorem replay_literal (parts : QueryParts) (made : List (BuilderCall Literal)) :
    replay parts (made.map fun call => ⟨call.method, [call.args]⟩) =
      Replay.lift (applyAll parts made) >>= fun last => replay last [] := by
  induction made generalizing parts with
  | nil => rfl
  | cons call made ih =>
    rw [List.map_cons, replay_single, applyAll, List.foldlM_cons]
    cases parts.apply call.method call.args with
    | error fault => rfl
    | ok next => exact ih next

theorem queryCandidates_literal (literal : literalCalls? calls = some made) {texts?} :
    queryCandidates calls = .ok texts? ↔
      areComplete calls = true ∧
        ∃ last, applyAll {} made = .ok last ∧ texts? = last.render?.map ([·]) := by
  have few : 1 ≤ maxCandidates := by decide
  rcases replaySteps_literal few literal with ⟨complete, planned⟩ | ⟨incomplete, fault, failed⟩
  · cases applied : applyAll {} made with
    | error fault =>
      have rejected : queryCandidates calls = .error (.rejected fault) := by
        rw [queryCandidates_eq, candidatesFrom, planned, pure_bind, replay_literal, applied]
        rfl
      simp [rejected]
    | ok last =>
      have taken : queryCandidates calls = .ok (last.render?.map ([·])) := by
        rw [queryCandidates_eq, candidatesFrom, planned, pure_bind, replay_literal, applied]
        change Replay.outcome (replay last [] >>= fun texts => pure texts.eraseDups) = _
        rw [replay]
        cases last.render? with
        | none => rfl
        | some text => rfl
      simp [complete, taken, eq_comm]
  · have rejected : queryCandidates calls = .error fault := by rw [queryCandidates, failed]; rfl
    simp [incomplete, rejected]

def BuilderCall.rootAlias? (call : BuilderCall Literal) : Option String :=
  match call.method with
  | .from => some (QueryParts.textAt call.args 1)
  | _ => none

def BuilderCall.join? (call : BuilderCall Literal) : Option JoinPart :=
  match call.method with
  | .join | .innerJoin => some (QueryParts.joinPart false call.args)
  | .leftJoin => some (QueryParts.joinPart true call.args)
  | _ => none

def rootAliasesOf (made : List (BuilderCall Literal)) : List String :=
  made.filterMap BuilderCall.rootAlias?

def joinsOf (made : List (BuilderCall Literal)) : List JoinPart :=
  made.filterMap BuilderCall.join?

def joinAliasesOf (made : List (BuilderCall Literal)) : List String :=
  (joinsOf made).map (·.aliasName)

/-- Whether a call leaves the query a selection, with the roots and joins it has, and known as text. -/
def BuilderMethod.keepsJoins : BuilderMethod → Bool
  | .delete | .update | .resetPart | .resetParts | .addCriteria => false
  | _ => true

/-- `root` is the root that a join from `parent` hangs off after the calls `earlier`, where `home` tells
    the root of each alias that was joined by then. -/
structure HangsOff (earlier : List (BuilderCall Literal)) (home : String → String)
    (parent root : String) : Prop where
  /-- A join from a root that was added before hangs off that root. -/
  fromRoot : parent ∈ rootAliasesOf earlier → root = parent
  /-- A join from an alias that was joined before hangs off the same root. -/
  fromJoin : parent ∈ joinAliasesOf earlier → root = home parent
  /-- Any other join hangs off the first root. -/
  otherwise : parent ∉ rootAliasesOf earlier → parent ∉ joinAliasesOf earlier →
    (rootAliasesOf earlier).head? = some root

/-- `home` tells for each joined alias the root that it hangs off. -/
structure Placement (made : List (BuilderCall Literal)) (home : String → String) : Prop where
  /-- Each join hangs off a root of the query, -/
  rooted : ∀ join ∈ joinsOf made, home join.aliasName ∈ rootAliasesOf made
  /-- found among the aliases that were known when it was made. -/
  chosen : ∀ earlier call, earlier ++ [call] <+: made → ∀ join, call.join? = some join →
    HangsOff earlier home (QueryParts.parentAlias join.path) (home join.aliasName)

/-- The joins that hang off the root called `name`, in order. -/
def hangingOff (made : List (BuilderCall Literal)) (home : String → String) (name : Option String) :
    List JoinPart :=
  (joinsOf made).filter fun join => name == some (home join.aliasName)

def entryText (root : RootPart) (joins : List JoinPart) : String :=
  String.join (root.render :: joins.map (" " ++ ·.render))

theorem hangingOff_some (made : List (BuilderCall Literal)) (home : String → String)
    (name : String) :
    hangingOff made home (some name) = (joinsOf made).filter (home ·.aliasName == name) := by
  simp only [hangingOff, Option.some_beq_some, Bool.beq_comm]

section Growth

variable {made : List (BuilderCall Literal)} {call : BuilderCall Literal} {home home' : String → String}

theorem rootAliasesOf_append (made later : List (BuilderCall Literal)) :
    rootAliasesOf (made ++ later) = rootAliasesOf made ++ rootAliasesOf later :=
  List.filterMap_append

theorem joinsOf_append (made later : List (BuilderCall Literal)) :
    joinsOf (made ++ later) = joinsOf made ++ joinsOf later :=
  List.filterMap_append

theorem joinAliasesOf_append (made later : List (BuilderCall Literal)) :
    joinAliasesOf (made ++ later) = joinAliasesOf made ++ joinAliasesOf later := by
  rw [joinAliasesOf, joinsOf_append, List.map_append]
  rfl

theorem mem_joinAliasesOf (inside : join ∈ joinsOf made) : join.aliasName ∈ joinAliasesOf made :=
  List.mem_map.mpr ⟨join, inside, rfl⟩

theorem Placement.congr (placed : Placement made home)
    (agree : ∀ name ∈ joinAliasesOf made, home' name = home name) : Placement made home' where
  rooted join inside := by
    rw [agree _ (mem_joinAliasesOf inside)]
    exact placed.rooted join inside
  chosen earlier call before join joins := by
    obtain ⟨later, rfl⟩ := before
    have hangs := placed.chosen earlier call ⟨later, rfl⟩ join joins
    have known : ∀ name ∈ joinAliasesOf earlier, home' name = home name := by
      intro name inside
      exact agree name (by simp [joinAliasesOf_append, inside])
    have here : join ∈ joinsOf (earlier ++ [call] ++ later) := by
      simp [joinsOf, joins]
    rw [agree _ (mem_joinAliasesOf here)]
    exact ⟨hangs.fromRoot, fun inside => known _ inside ▸ hangs.fromJoin inside, hangs.otherwise⟩

theorem Placement.snoc (placed : Placement made home)
    (last : ∀ join, call.join? = some join → home join.aliasName ∈ rootAliasesOf made ∧
      HangsOff made home (QueryParts.parentAlias join.path) (home join.aliasName)) :
    Placement (made ++ [call]) home where
  rooted join inside := by
    rw [joinsOf_append, List.mem_append] at inside
    rw [rootAliasesOf_append]
    refine List.mem_append_left _ ?_
    rcases inside with before | now
    · exact placed.rooted join before
    · exact (last join (by simpa [joinsOf] using now)).1
  chosen earlier other before join joins := by
    rcases List.prefix_concat_iff.mp before with same | before
    · obtain ⟨rfl, single⟩ := List.append_inj' same rfl
      cases single
      exact (last join joins).2
    · exact placed.chosen earlier other before join joins

end Growth

namespace QueryParts

variable {parts next : QueryParts} {call : BuilderCall Literal}
variable {aliasName root : String}

/-- The root that a joined alias is filed under. -/
def home (parts : QueryParts) (aliasName : String) : String :=
  (parts.joinRoots.lookup aliasName).getD ""

def bare (parts : QueryParts) : QueryParts :=
  { parts with joins := [], joinRoots := [] }

theorem lookup_eq_none (absent : aliasName ∉ parts.joinRoots.map (·.1)) :
    parts.joinRoots.lookup aliasName = none := by
  refine List.lookup_eq_none_iff.mpr fun entry inside => ?_
  have other : aliasName ≠ entry.1 := fun same => absent (List.mem_map.mpr ⟨entry, inside, same.symm⟩)
  simpa using other

theorem lookup_eq_some_home (filed : aliasName ∈ parts.joinRoots.map (·.1)) :
    parts.joinRoots.lookup aliasName = some (parts.home aliasName) := by
  obtain ⟨entry, inside, rfl⟩ := List.mem_map.mp filed
  have isSome : (parts.joinRoots.lookup entry.1).isSome = true :=
    List.lookup_isSome_iff.mpr ⟨entry, inside, beq_self_eq_true _⟩
  obtain ⟨root, found⟩ := Option.isSome_iff_exists.mp isSome
  rw [home, found]
  rfl

theorem rootOf_ok {parent} (found : parts.rootOf parent = .ok root) :
    parent ∈ parts.rootAliases ∧ root = parent ∨
      parent ∉ parts.rootAliases ∧ parent ∈ parts.joinRoots.map (·.1) ∧ root = parts.home parent ∨
      parent ∉ parts.rootAliases ∧ parent ∉ parts.joinRoots.map (·.1) ∧
        parts.rootAliases.head? = some root := by
  by_cases isRoot : parent ∈ parts.rootAliases
  · rw [rootOf, if_pos (List.contains_iff_mem.mpr isRoot)] at found
    cases found
    exact .inl ⟨isRoot, rfl⟩
  · rw [rootOf, if_neg (by simpa using isRoot)] at found
    by_cases filed : parent ∈ parts.joinRoots.map (·.1)
    · rw [lookup_eq_some_home filed] at found
      cases found
      exact .inr (.inl ⟨isRoot, filed, rfl⟩)
    · rw [lookup_eq_none filed] at found
      cases roots : parts.rootAliases with
      | nil =>
        rw [roots] at found
        cases found
      | cons first others =>
        rw [roots] at found
        cases found
        exact .inr (.inr ⟨roots ▸ isRoot, filed, rfl⟩)

theorem aliases_setIndex {index roots indexed}
    (done : setIndex aliasName index roots = some indexed) :
    indexed.map (·.aliasName) = roots.map (·.aliasName) := by
  induction roots generalizing indexed with
  | nil => cases done
  | cons root roots ih =>
    rw [setIndex] at done
    split at done
    · cases done
      rfl
    · obtain ⟨rest, found, rfl⟩ := Option.map_eq_some_iff.mp done
      rw [List.map_cons, List.map_cons, ih found]

/-- What a call does that neither joins nor adds a root: it leaves both as they are. -/
structure Stays (parts next : QueryParts) : Prop where
  kind : parts.kind = .select → next.kind = .select
  hasCriteria : next.hasCriteria = parts.hasCriteria
  aliases : next.roots.map (·.aliasName) = parts.roots.map (·.aliasName)
  joins : next.joins = parts.joins
  joinRoots : next.joinRoots = parts.joinRoots

theorem apply_keepsJoins (keeps : call.method.keepsJoins = true)
    (applied : parts.apply call.method call.args = .ok next) :
    (∃ join, call.join? = some join ∧ call.rootAlias? = none ∧ parts.addJoin join = .ok next) ∨
    (∃ root aliasName, call.rootAlias? = some aliasName ∧ call.join? = none ∧
      root.aliasName = some aliasName ∧ next = { parts with roots := parts.roots ++ [root] }) ∨
    (call.join? = none ∧ call.rootAlias? = none ∧ parts.Stays next) := by
  obtain ⟨method, args⟩ := call
  cases method with
  | delete | update | resetPart | resetParts | addCriteria => cases keeps
  | join | innerJoin | leftJoin => exact .inl ⟨_, rfl, rfl, applied⟩
  | «from» =>
    cases applied
    exact .inr (.inl ⟨_, _, rfl, rfl, rfl, rfl⟩)
  | select | addSelect =>
    cases applied
    refine .inr (.inr ⟨rfl, rfl, ?_⟩)
    simp only [selectAfter]
    split <;> exact ⟨fun _ => rfl, rfl, rfl, rfl, rfl⟩
  | indexBy =>
    refine .inr (.inr ⟨rfl, rfl, ?_⟩)
    simp only [apply] at applied
    split at applied
    · rename_i indexed
      cases applied
      exact ⟨id, rfl, aliases_setIndex indexed, rfl, rfl⟩
    · cases applied
  | _ =>
    cases applied
    exact .inr (.inr ⟨rfl, rfl, ⟨id, rfl, rfl, rfl, rfl⟩⟩)

theorem reset_bare (name : String) : parts.bare.reset name = (parts.reset name).bare := by
  unfold reset
  split <;> rfl

theorem foldl_reset_bare (names : List String) :
    names.foldl reset parts.bare = (names.foldl reset parts).bare := by
  induction names generalizing parts with
  | nil => rfl
  | cons name names ih => rw [List.foldl_cons, List.foldl_cons, reset_bare, ih]

/-- A call that does not join does to a query without joins what it does to one with them. -/
theorem apply_bare {method args} (other : method.isJoin = false)
    (applied : parts.apply method args = .ok next) :
    parts.bare.apply method args = .ok next.bare := by
  cases method with
  | join | innerJoin | leftJoin => cases other
  | select | addSelect =>
    cases applied
    simp only [apply, selectAfter]
    split <;> rfl
  | delete | update =>
    cases applied
    simp only [apply, change]
    split <;> rfl
  | indexBy =>
    have same : parts.bare.roots = parts.roots := rfl
    simp only [apply, same] at applied ⊢
    split at applied
    · cases applied
      rfl
    · cases applied
  | resetPart =>
    cases applied
    exact congrArg Except.ok (reset_bare _)
  | resetParts =>
    cases applied
    exact congrArg Except.ok (foldl_reset_bare _)
  | _ =>
    cases applied
    rfl

theorem bare_addJoin (added : parts.addJoin join = .ok next) : next.bare = parts.bare := by
  obtain ⟨root, -, rfl⟩ := addJoin_ok.mp added
  rfl

/-- The parts that calls have led to: they file each join under one of the roots. -/
structure Tracks (made : List (BuilderCall Literal)) (parts : QueryParts) : Prop where
  kind : parts.kind = .select
  known : parts.hasCriteria = false
  roots : parts.roots.map (·.aliasName) = (rootAliasesOf made).map some
  filed : parts.joinRoots.map (·.1) = joinAliasesOf made
  joins : ∀ root, (parts.joins.get? root).getD [] =
    (joinsOf made).filter fun join => parts.home join.aliasName == root
  placed : Placement made parts.home

theorem Tracks.rootAliases (tracks : Tracks made parts) :
    parts.rootAliases = rootAliasesOf made := by
  have same := congrArg (List.filterMap id) tracks.roots
  simpa [QueryParts.rootAliases, List.filterMap_map] using same

theorem tracks_nil : Tracks [] {} where
  kind := rfl
  known := rfl
  roots := rfl
  filed := rfl
  joins _ := rfl
  placed := ⟨by simp [joinsOf], by simp⟩

/-- Parts with one more join, filed under `root`. -/
def file (parts : QueryParts) (join : JoinPart) (root : String) : QueryParts :=
  { parts with
    joins := parts.joins.put root ((parts.joins.get? root).getD [] ++ [join])
    joinRoots := parts.joinRoots ++ [(join.aliasName, root)] }

theorem joinRoots_file (join : JoinPart) (root : String) :
    (parts.file join root).joinRoots = parts.joinRoots ++ [(join.aliasName, root)] :=
  rfl

theorem home_file_of_mem {name} (filed : name ∈ parts.joinRoots.map (·.1)) :
    (parts.file join root).home name = parts.home name := by
  rw [home, joinRoots_file, List.lookup_append, lookup_eq_some_home filed]
  rfl

theorem home_file_self (fresh : join.aliasName ∉ parts.joinRoots.map (·.1)) :
    (parts.file join root).home join.aliasName = root := by
  rw [home, joinRoots_file, List.lookup_append, lookup_eq_none fresh]
  simp

theorem get?_joins_file (join : JoinPart) (root other : String) :
    (((parts.file join root).joins.get? other).getD []) =
      (parts.joins.get? other).getD [] ++ [join].filter fun _ => root == other := by
  rw [file, Dict.get?_put]
  by_cases same : root = other
  · subst same
    simp
  · simp [same]

theorem Tracks.file (tracks : Tracks made parts) (joins : call.join? = some join)
    (noRoot : call.rootAlias? = none) (fresh : join.aliasName ∉ joinAliasesOf made)
    (apart : ∀ name ∈ rootAliasesOf made, name ∉ joinAliasesOf made)
    (found : parts.rootOf (parentAlias join.path) = .ok root) :
    Tracks (made ++ [call]) (parts.file join root) := by
  have old : ∀ name ∈ joinAliasesOf made, (parts.file join root).home name = parts.home name :=
    fun name inside => home_file_of_mem (tracks.filed ▸ inside)
  have new : (parts.file join root).home join.aliasName = root :=
    home_file_self (tracks.filed ▸ fresh)
  have listed : joinsOf (made ++ [call]) = joinsOf made ++ [join] := by simp [joinsOf, joins]
  have ways := rootOf_ok found
  rw [tracks.rootAliases, tracks.filed] at ways
  have hangs : root ∈ rootAliasesOf made ∧
      HangsOff made (parts.file join root).home (parentAlias join.path) root := by
    rcases ways with ⟨isRoot, rfl⟩ | ⟨notRoot, filed, rfl⟩ | ⟨notRoot, notFiled, first⟩
    · refine ⟨isRoot, fun _ => rfl, fun filed => ?_, fun notRoot => absurd isRoot notRoot⟩
      exact absurd filed (apart _ isRoot)
    · obtain ⟨known, inside, same⟩ := List.mem_map.mp filed
      refine ⟨same ▸ tracks.placed.rooted known inside, fun isRoot => absurd isRoot notRoot,
        fun _ => (old _ filed).symm, fun _ notFiled => absurd filed notFiled⟩
    · exact ⟨List.mem_of_head? first, fun isRoot => absurd isRoot notRoot,
        fun filed => absurd filed notFiled, fun _ _ => first⟩
  exact
    { kind := tracks.kind
      known := tracks.known
      roots := by
        rw [rootAliasesOf_append, List.map_append, ← tracks.roots]
        simp [QueryParts.file, rootAliasesOf, noRoot]
      filed := by
        rw [joinRoots_file, List.map_append, tracks.filed, joinAliasesOf, joinAliasesOf, listed]
        simp
      joins := by
        intro other
        rw [get?_joins_file, tracks.joins, listed, List.filter_append]
        congr 1
        · exact List.filter_congr fun known inside => by rw [old _ (mem_joinAliasesOf inside)]
        · simp [List.filter_cons, new]
      placed := by
        refine (tracks.placed.congr old).snoc fun other same => ?_
        obtain rfl : other = join := Option.some.inj (same.symm.trans joins)
        rw [new]
        exact hangs }

theorem Tracks.step (tracks : Tracks made parts) (keeps : call.method.keepsJoins = true)
    (distinct : (rootAliasesOf (made ++ [call]) ++ joinAliasesOf (made ++ [call])).Nodup)
    (applied : parts.apply call.method call.args = .ok next) : Tracks (made ++ [call]) next := by
  rcases apply_keepsJoins keeps applied with
    ⟨join, joins, noRoot, added⟩ | ⟨root, aliasName, adds, noJoin, named, rfl⟩ |
      ⟨noJoin, noRoot, stays⟩
  · obtain ⟨root, found, rfl⟩ := addJoin_ok.mp added
    have single : joinAliasesOf [call] = [join.aliasName] := by simp [joinAliasesOf, joinsOf, joins]
    have none : rootAliasesOf [call] = [] := by simp [rootAliasesOf, noRoot]
    rw [rootAliasesOf_append, joinAliasesOf_append, single, none, List.append_nil,
      List.nodup_append] at distinct
    obtain ⟨-, joined, apart⟩ := distinct
    rw [List.nodup_append] at joined
    refine tracks.file joins noRoot ?_ ?_ found
    · intro inside
      exact joined.2.2 _ inside _ (by simp) rfl
    · intro name isRoot inside
      exact apart name isRoot name (by simp [inside]) rfl
  · have same : joinsOf (made ++ [call]) = joinsOf made := by simp [joinsOf, noJoin]
    exact
      { kind := tracks.kind
        known := tracks.known
        roots := by simp [tracks.roots, rootAliasesOf, adds, named]
        filed := by rw [joinAliasesOf, same]; exact tracks.filed
        joins := by rw [same]; exact tracks.joins
        placed := tracks.placed.snoc (by simp [noJoin]) }
  · have same : joinsOf (made ++ [call]) = joinsOf made := by simp [joinsOf, noJoin]
    have homes : next.home = parts.home := by
      funext name
      rw [home, home, stays.joinRoots]
    exact
      { kind := stays.kind tracks.kind
        known := stays.hasCriteria.trans tracks.known
        roots := by simp [stays.aliases, tracks.roots, rootAliasesOf, noRoot]
        filed := by rw [joinAliasesOf, same, stays.joinRoots]; exact tracks.filed
        joins := by rw [same, stays.joins, homes]; exact tracks.joins
        placed := homes ▸ tracks.placed.snoc (by simp [noJoin]) }

end QueryParts

theorem applyAll_snoc {parts next call} :
    applyAll parts (made ++ [call]) = .ok next ↔
      ∃ last, applyAll parts made = .ok last ∧ last.apply call.method call.args = .ok next := by
  rw [applyAll, List.foldlM_append, except_bind_ok]
  simp [applyAll]

/-- Calls that leave joins in place and give each alias once file every join under a root of the
    query. -/
theorem tracks_applyAll {last} (keeps : ∀ call ∈ made, call.method.keepsJoins = true)
    (distinct : (rootAliasesOf made ++ joinAliasesOf made).Nodup)
    (applied : applyAll {} made = .ok last) : QueryParts.Tracks made last := by
  induction made using List.reverseRecOn generalizing last with
  | nil =>
    cases applied
    exact QueryParts.tracks_nil
  | append_singleton made call ih =>
    obtain ⟨before, earlier, now⟩ := applyAll_snoc.mp applied
    have sublist : (rootAliasesOf made ++ joinAliasesOf made).Sublist
        (rootAliasesOf (made ++ [call]) ++ joinAliasesOf (made ++ [call])) := by
      rw [rootAliasesOf_append, joinAliasesOf_append]
      exact (List.sublist_append_left _ _).append (List.sublist_append_left _ _)
    have tracks := ih (fun c inside => keeps c (by simp [inside])) (distinct.sublist sublist)
      earlier
    exact tracks.step (keeps call (by simp)) distinct now

theorem applyAll_bare {parts last} (applied : applyAll parts made = .ok last) :
    applyAll parts.bare (made.filter (!·.method.isJoin)) = .ok last.bare := by
  induction made generalizing parts with
  | nil =>
    cases applied
    rfl
  | cons call made ih =>
    rw [applyAll, List.foldlM_cons, except_bind_ok] at applied
    obtain ⟨next, now, later⟩ := applied
    cases joins : call.method.isJoin with
    | false =>
      rw [List.filter_cons_of_pos (by simp [joins]), applyAll, List.foldlM_cons,
        QueryParts.apply_bare joins now]
      exact ih later
    | true =>
      rw [List.filter_cons_of_neg (by simp [joins])]
      have same : next.bare = parts.bare := by
        obtain ⟨method, args⟩ := call
        cases method with
        | join | innerJoin | leftJoin => exact QueryParts.bare_addJoin now
        | _ => cases joins
      exact same ▸ ih later

/-- Items that each have one of several keys are what stands under all of these keys. -/
theorem flatMap_filter_perm {α : Type} {keys : List String} (distinct : keys.Nodup)
    (key : α → String) {items} (keyed : ∀ item ∈ items, key item ∈ keys) :
    (keys.flatMap fun k => items.filter (key · == k)).Perm items := by
  induction keys generalizing items with
  | nil =>
    have none : items = [] := List.eq_nil_iff_forall_not_mem.mpr fun item inside => by
      simpa using keyed item inside
    simp [none]
  | cons k keys ih =>
    obtain ⟨absent, distinct⟩ := List.nodup_cons.mp distinct
    have others : (keys.flatMap fun k' => items.filter (key · == k')) =
        keys.flatMap fun k' => (items.filter (!key · == k)).filter (key · == k') := by
      refine List.flatMap_congr fun k' inside => ?_
      rw [List.filter_filter]
      refine List.filter_congr fun item _ => ?_
      by_cases same : key item = k'
      · have other : key item ≠ k := fun first => absent (first ▸ same ▸ inside)
        simp [same ▸ other, same]
      · simp [same]
    rw [List.flatMap_cons, others]
    have rest : ∀ item ∈ items.filter (!key · == k), key item ∈ keys := by
      intro item inside
      obtain ⟨inside, other⟩ := List.mem_filter.mp inside
      have other : key item ≠ k := by simpa using other
      exact (List.mem_cons.mp (keyed item inside)).resolve_left other
    exact ((ih distinct rest).append_left _).trans (List.filter_append_perm _ _)

namespace QueryParts

def openingText (parts : QueryParts) : String :=
  "SELECT" ++ (if parts.isDistinct then " DISTINCT" else "") ++ clauseList " " parts.items

def closingText (parts : QueryParts) : String :=
  clauseText " WHERE " (parts.filter.map (·.render)) ++ parts.renderGroups ++
    clauseList " ORDER BY " parts.orders

variable {parts : QueryParts}

theorem render?_of_select (selects : parts.kind = .select) (known : parts.hasCriteria = false) :
    parts.render? = some (parts.openingText ++
      clauseList " FROM " (parts.roots.map parts.renderRoot) ++ parts.closingText) := by
  rw [render?, known, if_neg Bool.false_ne_true, renderHead, selects]
  simp only [openingText, closingText, String.append_assoc]

theorem renderRoot_bare (root : RootPart) : parts.bare.renderRoot root = root.render := by
  have none : (root.aliasName.bind parts.bare.joins.get?).getD [] = [] := by
    cases root.aliasName <;> rfl
  simp only [renderRoot, none, List.map_nil]
  simp [String.join]

theorem renderRoot_of_tracks (tracks : Tracks made parts) {root} (inside : root ∈ parts.roots) :
    parts.renderRoot root = entryText root (hangingOff made parts.home root.aliasName) := by
  have named : root.aliasName ∈ (rootAliasesOf made).map some :=
    tracks.roots ▸ List.mem_map.mpr ⟨root, inside, rfl⟩
  obtain ⟨name, -, same⟩ := List.mem_map.mp named
  rw [renderRoot, entryText, ← same, Option.bind_some, tracks.joins, hangingOff_some]

end QueryParts

/-- Take literal calls that leave roots and joins in place and give each alias once. With and without
    their joins they come to the same text up to the root entities. With them, each root entity is
    followed by the joins that hang off it, in the order they were made; every join is there once, under
    the root of the alias that it starts from as far as that alias is known when it is made. -/
theorem queryCandidates_joins_placed {calls : List (BuilderCall Ty)}
    {made : List (BuilderCall Literal)} (literal : literalCalls? calls = some made)
    (keeps : ∀ call ∈ made, call.method.keepsJoins = true)
    (distinct : (rootAliasesOf made ++ joinAliasesOf made).Nodup)
    (accepted : ∃ texts?, queryCandidates calls = .ok texts?) :
    ∃ (home : String → String) (roots : List RootPart) (opening closing : String),
      queryCandidates calls = .ok (some [opening ++
        clauseList " FROM " (roots.map fun root =>
          entryText root (hangingOff made home root.aliasName)) ++ closing]) ∧
      queryCandidates (calls.filter (!·.method.isJoin)) = .ok (some [opening ++
        clauseList " FROM " (roots.map (·.render)) ++ closing]) ∧
      roots.map (·.aliasName) = (rootAliasesOf made).map some ∧
      (roots.flatMap (hangingOff made home ·.aliasName)).Perm (joinsOf made) ∧
      Placement made home := by
  obtain ⟨texts?, taken⟩ := accepted
  obtain ⟨complete, last, applied, -⟩ := (queryCandidates_literal literal).mp taken
  have tracks := tracks_applyAll keeps distinct applied
  refine ⟨last.home, last.roots, last.openingText, last.closingText, ?_, ?_, tracks.roots, ?_,
    tracks.placed⟩
  · refine (queryCandidates_literal literal).mpr ⟨complete, last, applied, ?_⟩
    rw [QueryParts.render?_of_select tracks.kind tracks.known,
      List.map_congr_left fun root inside => QueryParts.renderRoot_of_tracks tracks inside]
    rfl
  · have kept : areComplete (calls.filter (!·.method.isJoin)) = true := by
      rw [areComplete, List.all_eq_true] at complete ⊢
      exact fun call inside => complete call (List.mem_filter.mp inside).1
    have rendered : last.bare.render? = some (last.openingText ++
        clauseList " FROM " (last.roots.map last.bare.renderRoot) ++ last.closingText) :=
      QueryParts.render?_of_select tracks.kind tracks.known
    refine (queryCandidates_literal (literalCalls?_filter (!·.isJoin) literal)).mpr
      ⟨kept, last.bare, applyAll_bare applied, ?_⟩
    rw [rendered, List.map_congr_left fun root _ => QueryParts.renderRoot_bare root]
    rfl
  · have byAlias : (last.roots.flatMap (hangingOff made last.home ·.aliasName)) =
        (rootAliasesOf made).flatMap fun name =>
          (joinsOf made).filter (last.home ·.aliasName == name) := by
      rw [← List.flatMap_map RootPart.aliasName, tracks.roots, List.flatMap_map]
      simp only [hangingOff_some]
    rw [byAlias]
    exact flatMap_filter_perm (distinct.sublist (List.sublist_append_left _ _)) _
      tracks.placed.rooted

/-- Joins from two roots and from an alias joined before the second of them was added. -/
theorem queryCandidates_joins_placed_two_roots :
    let calls : List (BuilderCall Ty) := [⟨.from, [.constString "E", .constString "e"]⟩,
      ⟨.leftJoin, [.constString "e.x", .constString "a"]⟩,
      ⟨.from, [.constString "F", .constString "f"]⟩,
      ⟨.join, [.constString "f.y", .constString "b"]⟩,
      ⟨.join, [.constString "a.z", .constString "c"]⟩]
    let made : List (BuilderCall Literal) := [⟨.from, [.text "E", .text "e"]⟩,
      ⟨.leftJoin, [.text "e.x", .text "a"]⟩, ⟨.from, [.text "F", .text "f"]⟩,
      ⟨.join, [.text "f.y", .text "b"]⟩, ⟨.join, [.text "a.z", .text "c"]⟩]
    literalCalls? calls = some made ∧ (rootAliasesOf made ++ joinAliasesOf made).Nodup ∧
      queryCandidates calls =
        .ok (some ["SELECT FROM E e LEFT JOIN e.x a INNER JOIN a.z c, F f INNER JOIN f.y b"]) ∧
      ∃ home, Placement made home ∧ home "c" = "e" ∧ home "b" = "f" := by
  intro calls made
  have literal : literalCalls? calls = some made := rfl
  have distinct : (rootAliasesOf made ++ joinAliasesOf made).Nodup := by decide
  obtain ⟨home, roots, opening, closing, -, -, -, -, placed⟩ :=
    queryCandidates_joins_placed literal (by decide) distinct ⟨_, queryCandidates_eq _⟩
  have first : home "a" = "e" :=
    (placed.chosen (made.take 1) _ ⟨made.drop 2, rfl⟩ _ rfl).fromRoot (by decide)
  have second : home "b" = "f" :=
    (placed.chosen (made.take 3) _ ⟨made.drop 4, rfl⟩ _ rfl).fromRoot (by decide)
  have third : home "c" = home "a" :=
    (placed.chosen (made.take 4) _ ⟨[], rfl⟩ _ rfl).fromJoin (by decide)
  exact ⟨literal, distinct, queryCandidates_eq _, home, placed, third.trans first, second⟩

/-- A join from a root that is added only later does not hang off that root. -/
theorem queryCandidates_join_before_root :
    let calls : List (BuilderCall Ty) := [⟨.from, [.constString "E", .constString "e"]⟩,
      ⟨.join, [.constString "f.x", .constString "a"]⟩,
      ⟨.from, [.constString "F", .constString "f"]⟩]
    let made : List (BuilderCall Literal) := [⟨.from, [.text "E", .text "e"]⟩,
      ⟨.join, [.text "f.x", .text "a"]⟩, ⟨.from, [.text "F", .text "f"]⟩]
    literalCalls? calls = some made ∧ (rootAliasesOf made ++ joinAliasesOf made).Nodup ∧
      (∀ call ∈ made, call.method.keepsJoins = true) ∧ "f" ∈ rootAliasesOf made ∧
      queryCandidates calls = .ok (some ["SELECT FROM E e INNER JOIN f.x a, F f"]) ∧
      queryCandidates calls ≠ .ok (some ["SELECT FROM E e, F f INNER JOIN f.x a"]) := by
  intro calls made
  have text : queryCandidates calls = .ok (some ["SELECT FROM E e INNER JOIN f.x a, F f"]) :=
    queryCandidates_eq _
  refine ⟨rfl, by decide, by decide, by decide, text, ?_⟩
  rw [text]
  decide

end EntityAudit
