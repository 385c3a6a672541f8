import EntityAudit.Proofs.Builder.Product
import EntityAudit.Proofs.Outcome

/-! # What a reset leaves behind

A builder that clears all parts of its query keeps what the query does, which the next selection
overwrites, and off which root each joined alias hung. The latter is asked when a later join starts
from an alias that is no root. So the calls after a reset come to the text they come to on their own
as long as each of their joins finds the same root both ways.
-/

namespace EntityAudit

variable {total : Nat} {calls : List (BuilderCall Ty)} {made : List (BuilderCall Literal)}
variable {call : BuilderCall Ty} {texts : List String}

namespace QueryParts

variable {parts own next : QueryParts} {method : BuilderMethod} {args : List Literal}

/-- Clearing all parts leaves the kind of the query, the roots that joined aliases hung off, and the
    mark that a condition was given as an object. -/
theorem apply_resetParts (parts : QueryParts) :
    parts.apply .resetParts [] =
      .ok { kind := parts.kind, joinRoots := parts.joinRoots, hasCriteria := parts.hasCriteria } :=
  rfl

theorem hasCriteria_reset (parts : QueryParts) (name : String) :
    (parts.reset name).hasCriteria = parts.hasCriteria := by
  unfold reset
  split <;> rfl

theorem hasCriteria_foldl_reset (parts : QueryParts) (names : List String) :
    (names.foldl reset parts).hasCriteria = parts.hasCriteria := by
  induction names generalizing parts with
  | nil => rfl
  | cons name names ih => rw [List.foldl_cons, ih, hasCriteria_reset]

theorem addJoin_ok {join} :
    parts.addJoin join = .ok next ↔
      ∃ root, parts.rootOf (parentAlias join.path) = .ok root ∧
        next = { parts with
          joins := parts.joins.put root ((parts.joins.get? root).getD [] ++ [join])
          joinRoots := parts.joinRoots ++ [(join.aliasName, root)] } := by
  rw [addJoin, except_bind_ok]
  constructor
  · rintro ⟨root, found, done⟩
    cases done
    exact ⟨root, found, rfl⟩
  · rintro ⟨root, found, rfl⟩
    exact ⟨root, found, rfl⟩

theorem hasCriteria_apply (applied : parts.apply method args = .ok next)
    (other : method ≠ .addCriteria) : next.hasCriteria = parts.hasCriteria := by
  cases method with
  | addCriteria => contradiction
  | select | addSelect =>
    cases applied
    simp only [selectAfter]
    split <;> rfl
  | delete | update =>
    cases applied
    simp only [change]
    split <;> rfl
  | join | innerJoin | leftJoin =>
    obtain ⟨root, -, rfl⟩ := addJoin_ok.mp applied
    rfl
  | indexBy =>
    simp only [apply] at applied
    split at applied
    · cases applied
      rfl
    · cases applied
  | resetPart =>
    cases applied
    exact hasCriteria_reset _ _
  | resetParts =>
    cases applied
    exact hasCriteria_foldl_reset _ _
  | _ =>
    cases applied
    rfl

def remembering (memory : List (String × String)) (parts : QueryParts) : QueryParts :=
  { parts with joinRoots := memory ++ parts.joinRoots }

variable {memory : List (String × String)}

theorem render?_remembering : (parts.remembering memory).render? = parts.render? :=
  rfl

theorem reset_remembering (name : String) :
    (parts.remembering memory).reset name = (parts.reset name).remembering memory := by
  unfold reset
  split <;> rfl

theorem foldl_reset_remembering (names : List String) :
    names.foldl reset (parts.remembering memory) = (names.foldl reset parts).remembering memory := by
  induction names generalizing parts with
  | nil => rfl
  | cons name names ih => rw [List.foldl_cons, List.foldl_cons, reset_remembering, ih]

/-- Whether a join from `parent` finds the root that `memory` has for it, if it has one: `parent` is a
    root itself, or hangs off that root anyway. -/
def findsRemembered (memory : List (String × String)) (own : QueryParts) (parent : String) : Bool :=
  (memory.lookup parent).all fun root =>
    own.rootAliases.contains parent || (own.rootOf parent).toOption == some root

theorem rootOf_remembering {parent root} (found : own.rootOf parent = .ok root)
    (agrees : own.findsRemembered memory parent = true) :
    (own.remembering memory).rootOf parent = .ok root := by
  have roots : (own.remembering memory).rootAliases = own.rootAliases := rfl
  have joins : (own.remembering memory).joinRoots = memory ++ own.joinRoots := rfl
  by_cases isRoot : own.rootAliases.contains parent = true
  · rw [rootOf, if_pos isRoot] at found
    rw [rootOf, roots, if_pos isRoot, found]
  · rw [rootOf, roots, joins, if_neg isRoot, List.lookup_append]
    cases known : memory.lookup parent with
    | none =>
      rw [rootOf, if_neg isRoot] at found
      exact found
    | some remembered =>
      rw [findsRemembered, known] at agrees
      have other : parent ∉ own.rootAliases := by simpa using isRoot
      have same : root = remembered := by simpa [other, found, Except.toOption] using agrees
      rw [same]
      rfl

/-- What a call does is the same with joins remembered from before, if a join finds its root. -/
theorem apply_remembering (applied : own.apply method args = .ok next)
    (agrees : method ∈ [.join, .innerJoin, .leftJoin] →
      own.findsRemembered memory (parentAlias (textAt args 0)) = true) :
    (own.remembering memory).apply method args = .ok (next.remembering memory) := by
  have joined : ∀ isLeft, own.findsRemembered memory (parentAlias (textAt args 0)) = true →
      own.addJoin (joinPart isLeft args) = .ok next →
      (own.remembering memory).addJoin (joinPart isLeft args) = .ok (next.remembering memory) := by
    intro isLeft finds added
    obtain ⟨root, found, rfl⟩ := addJoin_ok.mp added
    refine addJoin_ok.mpr ⟨root, rootOf_remembering found finds, ?_⟩
    simp only [remembering, List.append_assoc]
  cases method with
  | join => exact joined false (agrees (by simp)) applied
  | innerJoin => exact joined false (agrees (by simp)) applied
  | leftJoin => exact joined true (agrees (by simp)) applied
  | select | addSelect =>
    cases applied
    simp only [apply, selectAfter]
    split <;> rfl
  | delete | update =>
    cases applied
    simp only [apply, change]
    split <;> rfl
  | indexBy =>
    have same : (own.remembering memory).roots = own.roots := rfl
    simp only [apply, same] at applied ⊢
    cases found : setIndex (textAt args 0) (textAt args 1) own.roots with
    | none =>
      rw [found] at applied
      cases applied
    | some roots =>
      rw [found] at applied
      cases applied
      rfl
  | resetPart =>
    cases applied
    exact congrArg Except.ok (reset_remembering _)
  | resetParts =>
    cases applied
    exact congrArg Except.ok (foldl_reset_remembering _)
  | _ =>
    cases applied
    rfl

end QueryParts

def outcomes (parts : QueryParts) : List (BuilderCall Ty) → List QueryParts
  | [] => [parts]
  | call :: calls =>
    if call.method.shapesText then
      ((argumentChoices? call.args).getD []).flatMap fun args =>
        match parts.apply call.method args with
        | .ok next => outcomes next calls
        | .error _ => []
    else
      outcomes parts calls

/-- Whether each argument that matters for the text of the query is one literal. -/
def BuilderCall.IsSingle (call : BuilderCall Ty) : Prop :=
  call.method.shapesText = true → ∀ arg ∈ call.args, ∃ literal, Literal.choices? arg = some [literal]

theorem foldlM_addChoices?_single {args : List Ty}
    (single : ∀ arg ∈ args, ∃ literal, Literal.choices? arg = some [literal])
    (before : List Literal) : ∃ literals, args.foldlM addChoices? [before] = some [literals] := by
  induction args generalizing before with
  | nil => exact ⟨before, rfl⟩
  | cons arg args ih =>
    obtain ⟨literal, known⟩ := single arg (by simp)
    obtain ⟨literals, rest⟩ := ih (fun a inside => single a (by simp [inside])) (before ++ [literal])
    have added : addChoices? [before] arg = some [before ++ [literal]] := by
      rw [addChoices?, known]
      rfl
    exact ⟨literals, by rw [List.foldlM_cons, added]; exact rest⟩

theorem replaySteps_skip (silent : call.method.shapesText = false) (calls : List (BuilderCall Ty)) :
    replaySteps total (call :: calls) = replaySteps total calls := by
  rw [replaySteps_cons, silent, if_neg Bool.false_ne_true]

theorem replaySteps_incomplete (shapes : call.method.shapesText = true)
    (incomplete : call.isComplete = false) (calls : List (BuilderCall Ty)) :
    replaySteps total (call :: calls) =
      throw (.rejected (.tooFewArguments call.method call.args.length)) := by
  rw [replaySteps_cons, if_pos shapes, incomplete, if_neg Bool.false_ne_true]

theorem replaySteps_single {literals} (few : total ≤ maxCandidates)
    (shapes : call.method.shapesText = true) (complete : call.isComplete = true)
    (known : argumentChoices? call.args = some [literals]) (calls : List (BuilderCall Ty)) :
    replaySteps total (call :: calls) =
      (replaySteps total calls >>= fun steps => pure (⟨call.method, [literals]⟩ :: steps)) := by
  rw [replaySteps_cons, if_pos shapes, if_pos complete, known]
  simp only [List.length_singleton, Nat.mul_one, gt_iff_lt, Nat.not_lt.mpr few, if_false]

theorem replay_single (parts : QueryParts) (method : BuilderMethod) (literals : List Literal)
    (steps : List ReplayStep) :
    replay parts (⟨method, [literals]⟩ :: steps) =
      Replay.lift (parts.apply method literals) >>= fun next => replay next steps := by
  rw [replay]
  simp

def BuilderCall.literal? (call : BuilderCall Ty) : Option (BuilderCall Literal) :=
  match argumentChoices? call.args with
  | some [args] => some ⟨call.method, args⟩
  | _ => none

/-- The calls that shape the text, with the only choice of literals for each. -/
def literalCalls? (calls : List (BuilderCall Ty)) : Option (List (BuilderCall Literal)) :=
  (calls.filter (·.method.shapesText)).mapM BuilderCall.literal?

theorem BuilderCall.literal?_eq_some {made} :
    call.literal? = some made ↔
      made.method = call.method ∧ argumentChoices? call.args = some [made.args] := by
  obtain ⟨method, args⟩ := made
  rw [literal?]
  split
  · rename_i found
    simp [found, eq_comm]
  · rename_i other
    simp only [reduceCtorEq, false_iff, not_and]
    exact fun _ known => other args known

theorem literalCalls?_skip (silent : call.method.shapesText = false)
    (calls : List (BuilderCall Ty)) :
    literalCalls? (call :: calls) = literalCalls? calls := by
  rw [literalCalls?, List.filter_cons_of_neg (by simp [silent])]
  rfl

theorem literalCalls?_cons (shapes : call.method.shapesText = true) :
    literalCalls? (call :: calls) = some made ↔
      ∃ first later, made = first :: later ∧ call.literal? = some first ∧
        literalCalls? calls = some later := by
  rw [literalCalls?, List.filter_cons_of_pos (by simpa using shapes), List.mapM_cons]
  simp only [Option.bind_eq_bind, Option.bind_eq_some_iff, Option.pure_def, Option.some.injEq]
  constructor
  · rintro ⟨first, here, later, rest, rfl⟩
    exact ⟨first, later, rfl, here, rest⟩
  · rintro ⟨first, later, rfl, here, rest⟩
    exact ⟨first, here, later, rest, rfl⟩

/-- Whether every call that shapes the text has the arguments its method asks for. -/
def areComplete (calls : List (BuilderCall Ty)) : Bool :=
  calls.all fun call => !call.method.shapesText || call.isComplete

theorem areComplete_cons (call : BuilderCall Ty) (calls : List (BuilderCall Ty)) :
    areComplete (call :: calls) =
      ((!call.method.shapesText || call.isComplete) && areComplete calls) :=
  rfl

/-- Literal calls are planned as they stand if all of them are complete, and rejected otherwise. -/
theorem replaySteps_literal (few : total ≤ maxCandidates)
    (literal : literalCalls? calls = some made) :
    areComplete calls = true ∧
        replaySteps total calls = pure (made.map fun call => ⟨call.method, [call.args]⟩) ∨
      areComplete calls = false ∧ ∃ fault, replaySteps total calls = throw fault := by
  induction calls generalizing made with
  | nil =>
    cases literal
    exact .inl ⟨rfl, rfl⟩
  | cons call calls ih =>
    rw [areComplete_cons]
    cases shapes : call.method.shapesText with
    | false =>
      rw [literalCalls?_skip shapes] at literal
      rw [replaySteps_skip shapes]
      exact ih literal
    | true =>
      obtain ⟨first, later, rfl, here, rest⟩ := (literalCalls?_cons shapes).mp literal
      obtain ⟨same, known⟩ := BuilderCall.literal?_eq_some.mp here
      cases enough : call.isComplete with
      | false => exact .inr ⟨rfl, _, replaySteps_incomplete shapes enough calls⟩
      | true =>
        rw [replaySteps_single few shapes enough known]
        rcases ih rest with ⟨complete, planned⟩ | ⟨incomplete, fault, failed⟩
        · rw [planned, List.map_cons, same]
          exact .inl ⟨complete, rfl⟩
        · rw [failed]
          exact .inr ⟨incomplete, fault, rfl⟩

theorem exists_literalCalls? (single : ∀ call ∈ calls, call.IsSingle) :
    ∃ made, literalCalls? calls = some made := by
  induction calls with
  | nil => exact ⟨[], rfl⟩
  | cons call calls ih =>
    obtain ⟨later, rest⟩ := ih fun c inside => single c (by simp [inside])
    cases shapes : call.method.shapesText with
    | false => exact ⟨later, (literalCalls?_skip shapes calls).trans rest⟩
    | true =>
      obtain ⟨literals, known⟩ := foldlM_addChoices?_single (single call (by simp) shapes) []
      have here : call.literal? = some ⟨call.method, literals⟩ :=
        BuilderCall.literal?_eq_some.mpr ⟨rfl, known⟩
      exact ⟨_, (literalCalls?_cons shapes).mpr ⟨_, later, rfl, here, rest⟩⟩

/-- Calls with one literal for each argument are rejected, or they lead to one state and are replayed
    to it, whatever calls come after them. -/
theorem replay_of_isSingle (few : total ≤ maxCandidates) {past}
    (single : ∀ call ∈ past, call.IsSingle) (parts : QueryParts) :
    (∃ fault, (replaySteps total past >>= replay parts) = throw fault) ∨
      ∃ last first, outcomes parts past = [last] ∧
        (∀ calls, replaySteps total (past ++ calls) =
          replaySteps total calls >>= fun steps => pure (first ++ steps)) ∧
        ∀ steps, replay parts (first ++ steps) = replay last steps := by
  induction past generalizing parts with
  | nil => exact .inr ⟨parts, [], rfl, fun calls => (bind_pure _).symm, fun steps => rfl⟩
  | cons call past ih =>
    have others : ∀ c ∈ past, c.IsSingle := fun c inside => single c (by simp [inside])
    cases shapes : call.method.shapesText with
    | false =>
      simp only [List.cons_append, replaySteps_skip shapes, outcomes, shapes,
        Bool.false_eq_true, if_false]
      exact ih others parts
    | true =>
      cases complete : call.isComplete with
      | false =>
        rw [replaySteps_incomplete shapes complete]
        exact .inl ⟨_, rfl⟩
      | true =>
        obtain ⟨literals, known⟩ := foldlM_addChoices?_single (single call (by simp) shapes) []
        have planned := replaySteps_single few shapes complete known
        have replayed : (replaySteps total (call :: past) >>= replay parts) =
            replaySteps total past >>= fun steps =>
              Replay.lift (parts.apply call.method literals) >>= fun next =>
                replay next steps := by
          simp [planned, replay_single]
        have states : outcomes parts (call :: past) =
            match parts.apply call.method literals with
            | .ok next => outcomes next past
            | .error _ => [] := by
          rw [outcomes, if_pos shapes, argumentChoices?, known]
          simp
        rw [replayed, states]
        cases applied : parts.apply call.method literals with
        | error fault =>
          left
          obtain ⟨made, literal⟩ := exists_literalCalls? others
          rcases replaySteps_literal few literal with ⟨-, found⟩ | ⟨-, earlier, failed⟩
          · rw [found]
            exact ⟨.rejected fault, rfl⟩
          · rw [failed]
            exact ⟨earlier, rfl⟩
        | ok next =>
          rcases ih others next with failed | ⟨last, first, reached, splits, leads⟩
          · exact .inl failed
          · refine .inr ⟨last, ⟨call.method, [literals]⟩ :: first, reached, ?_, ?_⟩
            · intro calls
              rw [List.cons_append, planned, splits, bind_assoc]
              rfl
            · intro steps
              rw [List.cons_append, replay_single, applied]
              exact leads steps

theorem hasCriteria_outcomes {past} (plain : ∀ call ∈ past, call.method ≠ .addCriteria) {parts last}
    (reached : last ∈ outcomes parts past) : last.hasCriteria = parts.hasCriteria := by
  induction past generalizing parts with
  | nil => rw [List.mem_singleton.mp reached]
  | cons call past ih =>
    have others : ∀ c ∈ past, c.method ≠ .addCriteria := fun c inside => plain c (by simp [inside])
    rw [outcomes] at reached
    split at reached
    · obtain ⟨args, -, inside⟩ := List.mem_flatMap.mp reached
      cases applied : parts.apply call.method args with
      | error fault =>
        rw [applied] at inside
        cases inside
      | ok next =>
        rw [applied] at inside
        rw [ih others inside, QueryParts.hasCriteria_apply applied (plain call (by simp))]
    · exact ih others reached

/-- Whether each join among `calls`, made from `own` on, finds the root that `memory` has for the alias
    it starts from, if it has one. -/
def keepsRoots (memory : List (String × String)) (own : QueryParts) : List (BuilderCall Ty) → Bool
  | [] => true
  | call :: calls =>
    if call.method.shapesText then
      ((argumentChoices? call.args).getD []).all fun args =>
        (!([.join, .innerJoin, .leftJoin] : List BuilderMethod).contains call.method ||
          own.findsRemembered memory (QueryParts.parentAlias (QueryParts.textAt args 0))) &&
        match own.apply call.method args with
        | .ok next => keepsRoots memory next calls
        | .error _ => true
    else
      keepsRoots memory own calls

namespace Replay

variable {α β : Type}

theorem mapM_eq_pure {f g : α → Replay β} {xs : List α} {ys : List β}
    (done : xs.mapM f = pure ys) (same : ∀ x ∈ xs, ∀ y, f x = pure y → g x = pure y) :
    xs.mapM g = pure ys := by
  induction xs generalizing ys with
  | nil => exact done
  | cons x xs ih =>
    rw [List.mapM_cons] at done ⊢
    obtain ⟨y, first, done⟩ := bind_eq_pure.mp done
    obtain ⟨others, rest, done⟩ := bind_eq_pure.mp done
    rw [same x (by simp) y first, ih rest fun z inside => same z (by simp [inside])]
    exact done

end Replay

theorem replaySteps_eq_pure {steps} (shapes : call.method.shapesText = true)
    (planned : replaySteps total (call :: calls) = pure steps) :
    ∃ choices later, argumentChoices? call.args = some choices ∧
      steps = ⟨call.method, choices⟩ :: later ∧
      replaySteps (total * choices.length) calls = pure later := by
  rw [replaySteps_cons, if_pos shapes] at planned
  split at planned
  · cases known : argumentChoices? call.args with
    | none =>
      rw [known] at planned
      cases planned
    | some choices =>
      rw [known] at planned
      dsimp only at planned
      split at planned
      · cases planned
      · obtain ⟨later, rest, done⟩ := Replay.bind_eq_pure.mp planned
        exact ⟨choices, later, rfl, (Replay.pure_inj done).symm, rest⟩
  · cases planned

/-- Joins remembered from before change no text, if each join finds its root both ways. -/
theorem replay_remembering {memory own steps} (planned : replaySteps total calls = pure steps)
    (replayed : replay own steps = pure texts) (keeps : keepsRoots memory own calls = true) :
    replay (own.remembering memory) steps = pure texts := by
  induction calls generalizing total own steps texts with
  | nil =>
    obtain rfl := Replay.pure_inj planned
    rw [replay, QueryParts.render?_remembering]
    exact replayed
  | cons call calls ih =>
    cases shapes : call.method.shapesText with
    | false =>
      rw [replaySteps_skip shapes] at planned
      rw [keepsRoots, shapes, if_neg Bool.false_ne_true] at keeps
      exact ih planned replayed keeps
    | true =>
      obtain ⟨choices, later, known, rfl, rest⟩ := replaySteps_eq_pure shapes planned
      rw [keepsRoots, if_pos shapes, known, Option.getD_some, List.all_eq_true] at keeps
      have filled := replay_filled replayed
      rw [replay_cons filled] at replayed ⊢
      obtain ⟨found, each, done⟩ := Replay.bind_eq_pure.mp replayed
      refine Replay.bind_eq_pure.mpr ⟨found, Replay.mapM_eq_pure each ?_, done⟩
      intro args chosen text once
      obtain ⟨next, applied, after⟩ := Replay.bind_eq_pure.mp once
      have applied : own.apply call.method args = .ok next := Replay.of_lift_eq_pure applied
      have kept := keeps args chosen
      rw [applied, Bool.and_eq_true] at kept
      have finds : call.method ∈ ([.join, .innerJoin, .leftJoin] : List BuilderMethod) →
          own.findsRemembered memory
            (QueryParts.parentAlias (QueryParts.textAt args 0)) = true := by
        intro joins
        have found := kept.1
        rwa [List.contains_iff_mem.mpr joins, Bool.not_true, Bool.false_or] at found
      rw [QueryParts.apply_remembering applied finds]
      exact ih rest after kept.2

theorem candidatesFrom_select (kind : QueryKind) (memory : List (String × String)) (args : List Ty)
    (calls : List (BuilderCall Ty)) :
    candidatesFrom { kind := kind, joinRoots := memory } (⟨.select, args⟩ :: calls) =
      candidatesFrom (({} : QueryParts).remembering memory) (⟨.select, args⟩ :: calls) := by
  have selects : ∀ literals, QueryParts.apply { kind := kind, joinRoots := memory } .select literals =
      (({} : QueryParts).remembering memory).apply .select literals := by
    intro literals
    simp [QueryParts.apply, QueryParts.selectAfter, QueryParts.remembering]
  rw [candidatesFrom, candidatesFrom]
  rcases Replay.cases (replaySteps 1 (⟨.select, args⟩ :: calls)) with
    ⟨steps, planned⟩ | ⟨fault, failed⟩ | unknown
  · obtain ⟨choices, later, -, rfl, -⟩ := replaySteps_eq_pure rfl planned
    simp only [planned, pure_bind, replay, selects]
  · rw [failed]
    rfl
  · rw [unknown]
    rfl

theorem candidatesFrom_eq_some {parts} :
    candidatesFrom parts calls = .ok (some texts) ↔
      ∃ steps, replaySteps 1 calls = pure steps ∧
        ∃ found, replay parts steps = pure found ∧ pure found.eraseDups = (pure texts : Replay _) := by
  rw [candidatesFrom, Replay.outcome_eq_some, Replay.bind_eq_pure]
  simp only [Replay.bind_eq_pure]

theorem candidatesFrom_remembering {memory own}
    (known : candidatesFrom own calls = .ok (some texts))
    (keeps : keepsRoots memory own calls = true) :
    candidatesFrom (own.remembering memory) calls = .ok (some texts) := by
  obtain ⟨steps, planned, found, replayed, once⟩ := candidatesFrom_eq_some.mp known
  have again := replay_remembering planned replayed keeps
  exact candidatesFrom_eq_some.mpr ⟨steps, planned, found, again, once⟩

/-- Calls with one literal for each argument, none of them a condition given as an object, lead a
    builder that takes them all to one state. If all parts are cleared then, the calls after that start
    from a query with no parts that remembers the joins of before, and if each later join finds its
    root, they come to the texts they come to on their own. -/
theorem queryCandidates_after_reset {past : List (BuilderCall Ty)}
    (single : ∀ call ∈ past, call.IsSingle) (plain : ∀ call ∈ past, call.method ≠ .addCriteria)
    (accepted : ∃ texts?, queryCandidates past = .ok texts?)
    (args : List Ty) (calls : List (BuilderCall Ty)) :
    ∃ last, outcomes {} past = [last] ∧
      queryCandidates (past ++ ⟨.resetParts, []⟩ :: ⟨.select, args⟩ :: calls) =
        candidatesFrom (({} : QueryParts).remembering last.joinRoots) (⟨.select, args⟩ :: calls) ∧
      ∀ texts, queryCandidates (⟨.select, args⟩ :: calls) = .ok (some texts) →
        keepsRoots last.joinRoots {} (⟨.select, args⟩ :: calls) = true →
        queryCandidates (past ++ ⟨.resetParts, []⟩ :: ⟨.select, args⟩ :: calls) =
          .ok (some texts) := by
  have few : 1 ≤ maxCandidates := by decide
  have emptied : ∀ later, replaySteps 1 (⟨.resetParts, []⟩ :: later) =
      replaySteps 1 later >>= fun steps => pure (⟨.resetParts, [[]]⟩ :: steps) :=
    replaySteps_single few rfl rfl rfl
  rcases replay_of_isSingle few single {} with
    ⟨fault, failed⟩ | ⟨last, first, reached, splits, leads⟩
  · obtain ⟨texts?, taken⟩ := accepted
    rw [queryCandidates_eq, candidatesFrom, ← bind_assoc, failed] at taken
    cases taken
  · have unmarked : last.hasCriteria = false :=
      hasCriteria_outcomes plain (reached ▸ List.mem_singleton.mpr rfl)
    have cleared : queryCandidates (past ++ ⟨.resetParts, []⟩ :: ⟨.select, args⟩ :: calls) =
        candidatesFrom { kind := last.kind, joinRoots := last.joinRoots }
          (⟨.select, args⟩ :: calls) := by
      rw [queryCandidates_eq, candidatesFrom, candidatesFrom, splits, emptied]
      simp only [bind_assoc, pure_bind, leads, replay_single, QueryParts.apply_resetParts, unmarked]
      rfl
    have started := cleared.trans (candidatesFrom_select _ _ _ _)
    refine ⟨last, reached, started, ?_⟩
    intro texts known keeps
    rw [queryCandidates_eq] at known
    rw [started, candidatesFrom_remembering known keeps]

/-- A query that is built again after a reset, with the joins it had. -/
theorem queryCandidates_after_reset_same_joins :
    queryCandidates [⟨.from, [.constString "E", .constString "e"]⟩,
        ⟨.join, [.constString "e.x", .constString "a"]⟩, ⟨.resetParts, []⟩,
        ⟨.select, [.constString "e"]⟩, ⟨.from, [.constString "E", .constString "e"]⟩,
        ⟨.join, [.constString "e.x", .constString "a"]⟩,
        ⟨.leftJoin, [.constString "a.y", .constString "b"]⟩] =
      .ok (some ["SELECT e FROM E e INNER JOIN e.x a LEFT JOIN a.y b"]) := by
  have single : ∀ call ∈ ([⟨.from, [.constString "E", .constString "e"]⟩,
      ⟨.join, [.constString "e.x", .constString "a"]⟩] : List (BuilderCall Ty)), call.IsSingle := by
    simp [BuilderCall.IsSingle, Literal.choices?]
  obtain ⟨last, reached, -, texts⟩ := queryCandidates_after_reset single (by simp)
    ⟨_, queryCandidates_eq _⟩
    [.constString "e"] [⟨.from, [.constString "E", .constString "e"]⟩,
      ⟨.join, [.constString "e.x", .constString "a"]⟩,
      ⟨.leftJoin, [.constString "a.y", .constString "b"]⟩]
  refine texts _ (queryCandidates_eq _) ?_
  have memory : last.joinRoots = [("a", "e")] := by
    rw [← List.singleton_inj.mp reached]
    rfl
  rw [memory]
  rfl

/-- A join remembered from before a reset takes a later one to a root that is gone, and the later one
    is not in the text. -/
theorem queryCandidates_after_reset_lost_join :
    queryCandidates [⟨.select, [.constString "f"]⟩, ⟨.from, [.constString "F", .constString "f"]⟩,
        ⟨.join, [.constString "f.x", .constString "a"]⟩,
        ⟨.join, [.constString "a.y", .constString "b"]⟩] =
      .ok (some ["SELECT f FROM F f INNER JOIN f.x a INNER JOIN a.y b"]) ∧
    queryCandidates [⟨.from, [.constString "E", .constString "e"]⟩,
        ⟨.join, [.constString "e.x", .constString "a"]⟩, ⟨.resetParts, []⟩,
        ⟨.select, [.constString "f"]⟩, ⟨.from, [.constString "F", .constString "f"]⟩,
        ⟨.join, [.constString "f.x", .constString "a"]⟩,
        ⟨.join, [.constString "a.y", .constString "b"]⟩] =
      .ok (some ["SELECT f FROM F f INNER JOIN f.x a"]) := by
  rw [queryCandidates_eq, queryCandidates_eq]
  constructor <;> rfl

end EntityAudit
