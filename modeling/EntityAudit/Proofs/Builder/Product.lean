import EntityAudit.Proofs.Builder.Odometer
import Mathlib.Algebra.Group.Nat.Defs
import Mathlib.Data.List.Forall2

/-! # Candidates as a product

Every combination of literal arguments is replayed from the empty query, in lexicographic order, and
the first one that comes to no text decides. `productOutcome` says so without loops, caps along the
way or shared beginnings.
-/

namespace EntityAudit

variable {α : Type} {calls : List (BuilderCall Ty)}
variable {total : Nat} {texts : List String}

mutual
/-- Whether a type is an empty union, or a union that has one among its members at any depth. Such a
    type has no values, so a call with it as an argument is never made. -/
def Ty.hasEmptyUnion : Ty → Bool
  | .union members => members.isEmpty || Ty.anyEmptyUnion members
  | _ => false

def Ty.anyEmptyUnion : List Ty → Bool
  | [] => false
  | t :: ts => t.hasEmptyUnion || Ty.anyEmptyUnion ts
end

/-- Whether no argument of a call has an empty union in it. -/
def BuilderCall.isInhabited (call : BuilderCall Ty) : Bool :=
  call.args.all (!·.hasEmptyUnion)

mutual
theorem Literal.choices?_ne_nil : ∀ {t : Ty} {choices : List Literal},
    Literal.choices? t = some choices → t.hasEmptyUnion = false → choices ≠ []
  | .null, _, found, _ | .constBool _, _, found, _ | .constString _, _, found, _
  | .constInt _, _, found, _ => by
    simp only [Literal.choices?, Option.some.injEq] at found
    simp [← found]
  | .constArray _, _, found, _ => by
    simp only [Literal.choices?, Option.map_eq_some_iff] at found
    obtain ⟨items, -, rfl⟩ := found
    simp
  | .union [], _, _, inhabited => by simp [Ty.hasEmptyUnion] at inhabited
  | .union (t :: ts), choices, found, inhabited => by
    simp only [Ty.hasEmptyUnion, Ty.anyEmptyUnion, List.isEmpty_cons, Bool.false_or,
      Bool.or_eq_false_iff] at inhabited
    simp only [Literal.choices?, Literal.choicesOfAll?, Option.bind_eq_bind,
      Option.bind_eq_some_iff, Option.pure_def, Option.some.injEq] at found
    obtain ⟨first, firstFound, rest, -, rfl⟩ := found
    simp [Literal.choices?_ne_nil firstFound inhabited.1]
  | .mixed, _, found, _ | .bool, _, found, _ | .int, _, found, _ | .float, _, found, _
  | .string, _, found, _ | .object _ _, _, found, _ | .iterable _ _, _, found, _
  | .array _ _, _, found, _ | .intersection _, _, found, _ | .template _, _, found, _
  | .builder _, _, found, _ => by simp [Literal.choices?] at found
end

def BuilderCall.isComplete (call : BuilderCall Ty) : Bool :=
  call.method.arity ≤ call.args.length

/-- The literals that each argument of each call may be; none when an argument is no literal. -/
def literalTable? (calls : List (BuilderCall Ty)) : Option (List (List (List Literal))) :=
  calls.mapM fun call => call.args.mapM Literal.choices?

def combinationCount (table : List (List (List Literal))) : Nat :=
  (table.flatten.map List.length).prod

/-- What one combination of arguments for the calls of `methods` comes to, replayed from the empty
    query: a text, or nothing where a part of the query is not known as text. -/
def replayCombination (methods : List BuilderMethod) (args : List (List Literal)) :
    Except Fault (Option String) := do
  let parts ← ((methods.zip args).foldlM (fun (parts : QueryParts) call =>
    parts.apply call.1 call.2) {}).mapError .rejected
  return parts.render?

def replayText? : Except Fault (Option String) → Option String
  | .ok text? => text?
  | .error _ => none

/-- What several replays come to together: the first one without a text decides, and if there is
    none they come to their texts. -/
def firstDecides (replays : List (Except Fault (Option String))) :
    Except Fault (Option (List String)) :=
  match replays.find? fun replay => (replayText? replay).isNone with
  | some (.error fault) => .error fault
  | some (.ok _) => .ok none
  | none => .ok (some (replays.filterMap replayText?))

/-- The candidates of a builder as a product. Among the calls that shape the text, those before the
    first one with too few arguments must be literal and must not have too many combinations; then
    that one is rejected, or all combinations are replayed if there is no such call. A text that
    several combinations come to counts once. -/
def productOutcome (calls : List (BuilderCall Ty)) : Except Fault (Option (List String)) :=
  let shaping := calls.filter (·.method.shapesText)
  match literalTable? (shaping.takeWhile (·.isComplete)) with
  | none => .ok none
  | some table =>
    if combinationCount table > maxCandidates then
      .ok none
    else
      match shaping.dropWhile (·.isComplete) with
      | call :: _ => .error (.rejected (.tooFewArguments call.method call.args.length))
      | [] => do
        let texts? ← firstDecides ((combinations (table.map combinations)).map
          (replayCombination (shaping.map (·.method))))
        return texts?.map List.eraseDups

theorem length_combinations (lists : List (List α)) :
    (combinations lists).length = (lists.map List.length).prod := by
  induction lists with
  | nil => rfl
  | cons choices rest ih => simp [combinations, List.length_flatMap, List.map_const', ih]

/-- The combinations of `lists`, each after one of `filled`. -/
def after {α : Type} (filled : List (List α)) (lists : List (List α)) : List (List α) :=
  filled.flatMap fun before => (combinations lists).map (before ++ ·)

theorem after_cons (filled : List (List α)) (choices : List α) (rest) :
    after filled (choices :: rest) =
      after (filled.flatMap fun before => choices.map (before ++ [·])) rest := by
  simp [after, combinations, List.flatMap_assoc, List.flatMap_map, List.map_flatMap,
    Function.comp_def]

theorem length_after (filled : List (List α)) (lists : List (List α)) :
    (after filled lists).length = filled.length * (combinations lists).length := by
  simp [after, List.length_flatMap, List.map_const']

theorem choices_ne_nil {args : List Ty} {lists} (found : args.mapM Literal.choices? = some lists)
    (inhabited : ∀ arg ∈ args, arg.hasEmptyUnion = false) : ∀ l ∈ lists, l ≠ [] := by
  induction args generalizing lists with
  | nil =>
    simp only [List.mapM_nil, Option.pure_def, Option.some.injEq] at found
    simp [← found]
  | cons arg args ih =>
    simp only [List.mapM_cons, Option.bind_eq_bind, Option.bind_eq_some_iff, Option.pure_def,
      Option.some.injEq] at found
    obtain ⟨choices, first, others, rest, rfl⟩ := found
    intro l member
    rcases List.mem_cons.mp member with rfl | inside
    · exact Literal.choices?_ne_nil first (inhabited arg (by simp))
    · exact ih rest (fun a m => inhabited a (by simp [m])) l inside

theorem foldlM_addChoices? (args : List Ty) (filled : List (List Literal))
    (few : filled.length ≤ maxCandidates)
    (inhabited : ∀ arg ∈ args, arg.hasEmptyUnion = false) :
    args.foldlM addChoices? filled =
      (args.mapM Literal.choices?).bind fun lists =>
        if (after filled lists).length ≤ maxCandidates then some (after filled lists)
        else none := by
  induction args generalizing filled with
  | nil => simp [after, combinations, List.length_flatMap, List.map_const', few]
  | cons arg args ih =>
    rw [List.foldlM_cons, List.mapM_cons]
    cases found : Literal.choices? arg with
    | none => simp [addChoices?, found]
    | some choices =>
      have rest := fun a (m : a ∈ args) => inhabited a (by simp [m])
      by_cases fits :
          (filled.flatMap fun before => choices.map (before ++ [·])).length ≤ maxCandidates
      · have added : addChoices? filled arg =
            some (filled.flatMap fun before => choices.map (before ++ [·])) := by
          simp only [addChoices?, found, Option.bind_eq_bind, Option.bind_some, if_pos fits]
        simp only [added, Option.bind_eq_bind, Option.bind_some, Option.pure_def,
          ih _ fits rest, Option.bind_assoc, after_cons]
      · have refused : addChoices? filled arg = none := by
          simp only [addChoices?, found, Option.bind_eq_bind, Option.bind_some, if_neg fits]
        simp only [refused, Option.bind_eq_bind, Option.bind_some, Option.bind_none,
          Option.pure_def, Option.bind_assoc]
        cases others : args.mapM Literal.choices? with
        | none => rfl
        | some lists =>
          -- The later arguments have literals too, so they do not lower the count again.
          have many := combinations_ne_nil (choices_ne_nil others rest)
          rw [← List.length_pos_iff] at many
          have grows := Nat.le_mul_of_pos_right
            (filled.flatMap fun before => choices.map (before ++ [·])).length many
          rw [Option.bind_some, after_cons, length_after, if_neg (by omega)]

theorem argumentChoices?_eq {args} (inhabited : ∀ arg ∈ args, arg.hasEmptyUnion = false) :
    argumentChoices? args = (args.mapM Literal.choices?).bind fun lists =>
      if (combinations lists).length ≤ maxCandidates then some (combinations lists) else none := by
  rw [argumentChoices?, foldlM_addChoices? args [[]] (by decide) inhabited]
  simp [after]

theorem combinationCount_cons (row : List (List Literal)) (table : List (List (List Literal))) :
    combinationCount (row :: table) = (combinations row).length * combinationCount table := by
  simp [combinationCount, length_combinations]

theorem literalTable?_cons (call : BuilderCall Ty) (calls : List (BuilderCall Ty)) :
    literalTable? (call :: calls) = (call.args.mapM Literal.choices?).bind fun row =>
      (literalTable? calls).map (row :: ·) := by
  simp only [literalTable?, List.mapM_cons, Option.map_eq_bind, Function.comp_def]
  rfl

theorem forall₂_of_literalTable? {table} (found : literalTable? calls = some table) :
    List.Forall₂ (fun call row => call.args.mapM Literal.choices? = some row) calls table := by
  induction calls generalizing table with
  | nil =>
    simp only [literalTable?, List.mapM_nil, Option.pure_def, Option.some.injEq] at found
    exact found ▸ .nil
  | cons call calls ih =>
    rw [literalTable?_cons] at found
    simp only [Option.bind_eq_some_iff, Option.map_eq_some_iff] at found
    obtain ⟨row, own, rest, later, rfl⟩ := found
    exact .cons own (ih later)

theorem literalTable?_filled {table} (found : literalTable? calls = some table)
    (inhabited : ∀ call ∈ calls, call.isInhabited = true) :
    ∀ row ∈ table, combinations row ≠ [] := by
  replace found := forall₂_of_literalTable? found
  induction found with
  | nil => simp
  | cons own _ ih =>
    obtain ⟨here, others⟩ := List.forall_mem_cons.mp inhabited
    refine List.forall_mem_cons.mpr ⟨combinations_ne_nil (choices_ne_nil own ?_), ih others⟩
    simpa [BuilderCall.isInhabited] using here

theorem combinationCount_pos {table} (filled : ∀ row ∈ table, combinations row ≠ []) :
    0 < combinationCount table := by
  induction table with
  | nil => decide
  | cons row table ih =>
    rw [combinationCount_cons]
    exact Nat.mul_pos (List.length_pos_iff.mpr (filled row (by simp)))
      (ih fun r member => filled r (by simp [member]))

theorem replaySteps_cons (total : Nat) (call : BuilderCall Ty) (calls : List (BuilderCall Ty)) :
    replaySteps total (call :: calls) =
      if call.method.shapesText then
        if call.isComplete then
          match argumentChoices? call.args with
          | none => Replay.unknown
          | some choices =>
            if total * choices.length > maxCandidates then Replay.unknown
            else do
              let steps ← replaySteps (total * choices.length) calls
              return ⟨call.method, choices⟩ :: steps
        else throw (.rejected (.tooFewArguments call.method call.args.length))
      else replaySteps total calls := by
  rw [replaySteps]
  by_cases shapes : call.method.shapesText = true
  · by_cases few : call.args.length < call.method.arity
    · have incomplete : call.isComplete = false := by
        simpa [BuilderCall.isComplete] using few
      simp [shapes, few, incomplete]
    · have complete : call.isComplete = true := by
        simpa [BuilderCall.isComplete] using few
      cases argumentChoices? call.args with
      | none => simp [shapes, few, complete, Replay.ofOption]
      | some choices =>
        by_cases many : total * choices.length > maxCandidates
        · simp [shapes, few, complete, many, Replay.ofOption]
        · simp [shapes, few, complete, many, Replay.ofOption]
  · simp [shapes]

theorem replaySteps_filter (total : Nat) (calls : List (BuilderCall Ty)) :
    replaySteps total (calls.filter (·.method.shapesText)) = replaySteps total calls := by
  induction calls generalizing total with
  | nil => rfl
  | cons call calls ih =>
    by_cases shapes : call.method.shapesText = true
    · simp only [List.filter_cons, shapes, if_true, replaySteps_cons, ih]
    · simp only [List.filter_cons, shapes, replaySteps_cons, ih, Bool.false_eq_true, if_false]

/-- The steps that replay calls of `methods` with any of their `choices` of arguments. -/
def stepsOf (methods : List BuilderMethod) (choices : List (List (List Literal))) :
    List ReplayStep :=
  (methods.zip choices).map fun step => ⟨step.1, step.2⟩

theorem map_choices_stepsOf {methods choices} (even : choices.length ≤ methods.length) :
    (stepsOf methods choices).map (·.choices) = choices := by
  rw [stepsOf, List.map_map]
  exact List.map_snd_zip even

theorem map_method_stepsOf {methods choices} (even : methods.length ≤ choices.length) :
    (stepsOf methods choices).map (·.method) = methods := by
  rw [stepsOf, List.map_map]
  exact List.map_fst_zip even

/-- What the table of literals says about the steps of a replay, with `total` combinations of
    arguments before them. -/
def plannedSteps (total : Nat) (calls : List (BuilderCall Ty)) : Replay (List ReplayStep) :=
  match literalTable? (calls.takeWhile (·.isComplete)) with
  | none => Replay.unknown
  | some table =>
    if total * combinationCount table > maxCandidates then
      Replay.unknown
    else
      match calls.dropWhile (·.isComplete) with
      | call :: _ => throw (.rejected (.tooFewArguments call.method call.args.length))
      | [] => pure (stepsOf (calls.map (·.method)) (table.map combinations))

theorem plannedSteps_of_incomplete {call} (few : total ≤ maxCandidates)
    (incomplete : call.isComplete = false) (calls : List (BuilderCall Ty)) :
    plannedSteps total (call :: calls) =
      throw (.rejected (.tooFewArguments call.method call.args.length)) := by
  simp [plannedSteps, incomplete, literalTable?, combinationCount, Nat.not_lt.mpr few]

theorem plannedSteps_of_complete {call row} (complete : call.isComplete = true)
    (found : call.args.mapM Literal.choices? = some row) (calls : List (BuilderCall Ty)) :
    plannedSteps total (call :: calls) =
      (plannedSteps (total * (combinations row).length) calls >>= fun steps =>
        pure (⟨call.method, combinations row⟩ :: steps)) := by
  simp only [plannedSteps, List.takeWhile_cons, List.dropWhile_cons, complete, if_true,
    literalTable?_cons, found, Option.bind_some]
  cases literalTable? (calls.takeWhile (·.isComplete)) with
  | none => rfl
  | some table =>
    simp only [Option.map_some, combinationCount_cons, Nat.mul_assoc]
    split
    · rfl
    · cases calls.dropWhile (·.isComplete) with
      | nil => rfl
      | cons => rfl

theorem plannedSteps_eq_unknown (many : total > maxCandidates)
    (inhabited : ∀ call ∈ calls, call.isInhabited = true) :
    plannedSteps total calls = Replay.unknown := by
  unfold plannedSteps
  split
  · rfl
  · rename_i table found
    have positive := combinationCount_pos (literalTable?_filled found fun call member =>
      inhabited call (List.takeWhile_subset _ member))
    have grows := Nat.le_mul_of_pos_right total positive
    rw [if_pos (by omega)]

/-- The caps along the way come to the same as one look at the whole table. -/
theorem replaySteps_eq_planned (positive : 0 < total) (few : total ≤ maxCandidates)
    (shaping : ∀ call ∈ calls, call.method.shapesText = true)
    (inhabited : ∀ call ∈ calls, call.isInhabited = true) :
    replaySteps total calls = plannedSteps total calls := by
  induction calls generalizing total with
  | nil =>
    simp [replaySteps, plannedSteps, stepsOf, literalTable?, combinationCount,
      Nat.not_lt.mpr few]
  | cons call calls ih =>
    have own : ∀ arg ∈ call.args, arg.hasEmptyUnion = false := by
      simpa [BuilderCall.isInhabited] using inhabited call (by simp)
    have laterShaping := fun c (member : c ∈ calls) => shaping c (by simp [member])
    have laterInhabited := fun c (member : c ∈ calls) => inhabited c (by simp [member])
    rw [replaySteps_cons, if_pos (shaping call (by simp))]
    cases complete : call.isComplete with
    | false => rw [plannedSteps_of_incomplete few complete]; rfl
    | true =>
      rw [if_pos rfl, argumentChoices?_eq own]
      cases found : call.args.mapM Literal.choices? with
      | none => simp [plannedSteps, complete, literalTable?_cons, found]
      | some row =>
        have wide := List.length_pos_iff.mpr (combinations_ne_nil (choices_ne_nil found own))
        have grows := Nat.le_mul_of_pos_left (combinations row).length positive
        rw [plannedSteps_of_complete complete found, Option.bind_some]
        by_cases many : total * (combinations row).length > maxCandidates
        · rw [plannedSteps_eq_unknown many laterInhabited]
          by_cases fits : (combinations row).length ≤ maxCandidates
          · simp [fits, many]
          · simp [fits]
        · rw [if_pos (by omega)]
          simp only [many, if_false]
          rw [ih (Nat.mul_pos positive wide) (by omega) laterShaping laterInhabited]

theorem outcome_replayFrom (methods : List BuilderMethod) (args : List (List Literal)) :
    (replayFrom {} methods args).outcome = replayCombination methods args := by
  simp only [replayFrom, replayCombination]
  cases (methods.zip args).foldlM (fun (parts : QueryParts) call =>
    parts.apply call.1 call.2) {} with
  | error fault => rfl
  | ok parts =>
    have known : (Replay.ofOption parts.render?).outcome = .ok parts.render? := by
      cases parts.render? <;> rfl
    exact known

theorem firstDecides_text (text : String) (replays : List (Except Fault (Option String))) :
    firstDecides (.ok (some text) :: replays) =
      (firstDecides replays >>= fun texts? => pure (texts?.map (text :: ·))) := by
  unfold firstDecides
  rw [List.find?_cons_of_neg (by simp [replayText?])]
  rcases replays.find? fun replay => (replayText? replay).isNone with _ | ⟨fault | text?⟩ <;> rfl

/-- In a replay of several combinations the first one that comes to no text ends it. -/
theorem outcome_mapM (combos : List α) (run : α → Replay String) :
    (combos.mapM run).outcome = firstDecides (combos.map fun combo => (run combo).outcome) := by
  induction combos with
  | nil => rfl
  | cons combo combos ih =>
    rw [List.mapM_cons, List.map_cons]
    rcases Replay.cases (run combo) with ⟨text, same⟩ | ⟨fault, same⟩ | same
    · rw [same, Replay.outcome_pure, firstDecides_text, ← ih, pure_bind]
      rcases Replay.cases (combos.mapM run) with ⟨texts, rest⟩ | ⟨fault, rest⟩ | rest
      all_goals rw [rest]; rfl
    · rw [same]; rfl
    · rw [same]; rfl

theorem outcome_map {β : Type} (r : Replay α) (f : α → β) :
    (r >>= fun a => pure (f a)).outcome = r.outcome >>= fun a? => pure (a?.map f) := by
  rcases Replay.cases r with ⟨a, rfl⟩ | ⟨fault, rfl⟩ | rfl <;> rfl

theorem outcome_replay_stepsOf {table} (found : literalTable? calls = some table)
    (inhabited : ∀ call ∈ calls, call.isInhabited = true) :
    (replay {} (stepsOf (calls.map (·.method)) (table.map combinations))).outcome =
      firstDecides ((combinations (table.map combinations)).map
        (replayCombination (calls.map (·.method)))) := by
  have even : (table.map combinations).length = (calls.map (·.method)).length := by
    simp [(forall₂_of_literalTable? found).length_eq]
  have choices := map_choices_stepsOf (Nat.le_of_eq even)
  have filled : ∀ step ∈ stepsOf (calls.map (·.method)) (table.map combinations),
      step.choices ≠ [] := by
    intro step member
    have inside := List.mem_map_of_mem (f := (·.choices)) member
    rw [choices] at inside
    obtain ⟨row, known, same⟩ := List.mem_map.mp inside
    exact same ▸ literalTable?_filled found inhabited row known
  rw [replay_eq_mapM _ filled, outcome_mapM, choices, map_method_stepsOf (Nat.le_of_eq even.symm)]
  simp only [outcome_replayFrom]

theorem queryCandidates_eq_productOutcome (inhabited : ∀ call ∈ calls, call.isInhabited = true) :
    queryCandidates calls = productOutcome calls := by
  have shaping : ∀ call ∈ calls.filter (·.method.shapesText), call.method.shapesText = true :=
    fun call member => (List.mem_filter.mp member).2
  have kept : ∀ call ∈ calls.filter (·.method.shapesText), call.isInhabited = true :=
    fun call member => inhabited call (List.mem_filter.mp member).1
  rw [queryCandidates_eq, candidatesFrom, ← replaySteps_filter,
    replaySteps_eq_planned (by decide) (by decide) shaping kept]
  simp only [plannedSteps, productOutcome, Nat.one_mul]
  generalize calls.filter (·.method.shapesText) = shapingCalls at kept
  cases found : literalTable? (shapingCalls.takeWhile (·.isComplete)) with
  | none => rfl
  | some table =>
    by_cases many : combinationCount table > maxCandidates
    · simp only [many, if_true]
      rfl
    · simp only [many, if_false]
      cases dropped : shapingCalls.dropWhile (·.isComplete) with
      | cons call rest => rfl
      | nil =>
        have whole := List.takeWhile_append_dropWhile (p := (·.isComplete)) (l := shapingCalls)
        rw [dropped, List.append_nil] at whole
        rw [whole] at found
        simp only [pure_bind, outcome_map, outcome_replay_stepsOf found kept]

theorem length_combinations_map (table : List (List (List Literal))) :
    (combinations (table.map combinations)).length = combinationCount table := by
  induction table with
  | nil => rfl
  | cons row table ih =>
    rw [combinationCount_cons, ← ih, length_combinations, List.map_cons, List.map_cons,
      List.prod_cons, ← length_combinations]

theorem ok_some_of_map {β : Type} {found : Except Fault (Option α)} {f : α → β} {b : β}
    (decided : (found >>= fun a? => pure (a?.map f)) = .ok (some b)) :
    ∃ a, found = .ok (some a) ∧ f a = b := by
  rcases found with fault | (_ | a)
  · contradiction
  · simp [pure, Except.pure, bind, Except.bind] at decided
  · simp only [bind, Except.bind, pure, Except.pure, Option.map_some, Except.ok.injEq,
      Option.some.injEq] at decided
    exact ⟨a, rfl, decided⟩

theorem firstDecides_eq_some {replays} (decided : firstDecides replays = .ok (some texts)) :
    replays = texts.map fun text => .ok (some text) := by
  induction replays generalizing texts with
  | nil =>
    simp only [firstDecides, List.find?_nil, List.filterMap_nil, Except.ok.injEq,
      Option.some.injEq] at decided
    simp [← decided]
  | cons replay replays ih =>
    rcases replay with fault | (_ | text)
    · simp [firstDecides, replayText?] at decided
    · simp [firstDecides, replayText?] at decided
    · rw [firstDecides_text] at decided
      obtain ⟨others, rest, rfl⟩ := ok_some_of_map decided
      rw [List.map_cons, ← ih rest]

theorem length_of_firstDecides {replays} (decided : firstDecides replays = .ok (some texts)) :
    texts.length = replays.length := by
  rw [firstDecides_eq_some decided, List.length_map]

theorem productOutcome_texts (inhabited : ∀ call ∈ calls, call.isInhabited = true)
    (decided : productOutcome calls = .ok (some texts)) :
    texts ≠ [] ∧ texts.length ≤ maxCandidates ∧ texts.Nodup := by
  simp only [productOutcome] at decided
  split at decided
  · simp at decided
  · rename_i table found
    split at decided
    · simp at decided
    · rename_i few
      split at decided
      · simp at decided
      · obtain ⟨all, replayed, rfl⟩ := ok_some_of_map decided
        have size : all.length = combinationCount table := by
          rw [length_of_firstDecides replayed, List.length_map, length_combinations_map]
        have positive : 0 < combinationCount table :=
          combinationCount_pos (literalTable?_filled found fun call member =>
            inhabited call (List.mem_filter.mp (List.takeWhile_subset _ member)).1)
        have fewer := (Distinct.eraseDups_sublist all).length_le
        refine ⟨fun empty => ?_, by omega, Distinct.nodup_eraseDups all⟩
        rw [Distinct.eraseDups_eq_nil_iff.mp empty, List.length_nil] at size
        omega

/-- The candidates of a builder are those of the product of its literal arguments: at least one,
    at most `maxCandidates`, each once. Calls that do not shape the text do not matter, wherever
    they stand and whatever their arguments are. -/
theorem queryCandidates_eq_product (calls : List (BuilderCall Ty))
    (inhabited : ∀ call ∈ calls, call.isInhabited = true) :
    queryCandidates calls = productOutcome calls ∧
      (∀ texts, queryCandidates calls = .ok (some texts) →
        texts ≠ [] ∧ texts.length ≤ 32 ∧ texts.Nodup) ∧
      ∀ others : List (BuilderCall Ty),
        others.filter (·.method.shapesText) = calls.filter (·.method.shapesText) →
          queryCandidates others = queryCandidates calls := by
  have product := queryCandidates_eq_productOutcome inhabited
  refine ⟨product, fun texts decided => ?_, fun others same => ?_⟩
  · exact productOutcome_texts inhabited (product ▸ decided)
  · rw [queryCandidates, ← replaySteps_filter, same, replaySteps_filter, queryCandidates]

/-- A builder that selects one of two aliases, with a limit set on the way. -/
theorem queryCandidates_eq_product_two :
    let calls : List (BuilderCall Ty) :=
      [⟨.select, [.union [.constString "a", .constString "b"]]⟩, ⟨.setMaxResults, [.mixed]⟩,
        ⟨.from, [.constString "App\\Order", .constString "a"]⟩]
    let texts := ["SELECT a FROM App\\Order a", "SELECT b FROM App\\Order a"]
    (∀ call ∈ calls, call.isInhabited = true) ∧ queryCandidates calls = .ok (some texts) ∧
      texts ≠ [] ∧ texts.length ≤ 32 ∧ texts.Nodup := by
  intro calls texts
  have inhabited : ∀ call ∈ calls, call.isInhabited = true := by decide
  have spec := queryCandidates_eq_product calls inhabited
  have found : queryCandidates calls = .ok (some texts) := spec.1.trans rfl
  exact ⟨inhabited, found, spec.2.1 texts found⟩

end EntityAudit
