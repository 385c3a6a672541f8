import EntityAudit.Builder.Candidates
import EntityAudit.Proofs.Distinct

/-! # The turns of an odometer

From wherever the dials point to, their turns come to the combinations that are left, in
lexicographic order, so a sweep comes to what replaying the combinations one by one comes to.
`replay` shares the beginnings of combinations.
-/

namespace EntityAudit

variable {α β : Type} {dials next : List Dial} {steps : List ReplayStep}
variable {texts : List String}

namespace Replay

@[simp] theorem unknown_bind (f : α → Replay β) : (unknown >>= f) = unknown := rfl

@[simp] theorem map_unknown (f : α → β) : f <$> (unknown : Replay α) = unknown := rfl

@[simp] theorem outcome_pure (a : α) : outcome (pure a : Replay α) = .ok (some a) := rfl

theorem cases (r : Replay α) :
    (∃ a, r = pure a) ∨ (∃ fault, r = throw fault) ∨ r = unknown :=
  match r with
  | some (.ok a) => .inl ⟨a, rfl⟩
  | some (.error fault) => .inr (.inl ⟨fault, rfl⟩)
  | none => .inr (.inr rfl)

theorem bind_eq_pure {r : Replay α} {f : α → Replay β} {b : β} :
    (r >>= f) = pure b ↔ ∃ a, r = pure a ∧ f a = pure b := by
  constructor
  · intro done
    rcases cases r with ⟨a, rfl⟩ | ⟨fault, rfl⟩ | rfl
    · exact ⟨a, rfl, done⟩
    · cases done
    · cases done
  · rintro ⟨a, rfl, done⟩
    exact done

theorem outcome_eq_some {r : Replay α} {a} : r.outcome = .ok (some a) ↔ r = pure a := by
  constructor
  · intro known
    rcases cases r with ⟨b, rfl⟩ | ⟨fault, rfl⟩ | rfl
    · cases known
      rfl
    · cases known
    · cases known
  · rintro rfl
    rfl

theorem pure_inj {a b} (same : (pure a : Replay α) = pure b) : a = b :=
  Except.ok.inj (Option.some.inj same)

theorem of_lift_eq_pure {effect : Except BuilderFault α} {a} (done : lift effect = pure a) :
    effect = .ok a := by
  cases effect with
  | error => cases done
  | ok => cases done; rfl

end Replay

/-- Every way to take one element of each list, the last list varying fastest. -/
def combinations {α : Type} : List (List α) → List (List α)
  | [] => [[]]
  | choices :: rest => choices.flatMap fun choice => (combinations rest).map (choice :: ·)

theorem combinations_ne_nil {lists : List (List α)} (filled : ∀ l ∈ lists, l ≠ []) :
    combinations lists ≠ [] := by
  induction lists with
  | nil => simp [combinations]
  | cons choices rest ih =>
    have first : choices ≠ [] := filled choices (by simp)
    have later : combinations rest ≠ [] := ih fun l member => filled l (by simp [member])
    obtain ⟨choice, others, rfl⟩ := List.exists_cons_of_ne_nil first
    simp [combinations, later]

/-- The combination that dials point to, if there is one. -/
def combinationAt? : List Dial → Option (List (List Literal))
  | [] => some []
  | dial :: dials => do return (← dial.step.choices[dial.place]?) :: (← combinationAt? dials)

/-- The combinations from the one that dials point to on. -/
def combinationsFrom : List Dial → List (List (List Literal))
  | [] => [[]]
  | dial :: dials =>
    (dial.step.choices[dial.place]?.toList.flatMap fun choice =>
        (combinationsFrom dials).map (choice :: ·)) ++
      combinations (dial.step.choices.drop (dial.place + 1) :: dials.map (·.step.choices))

def Dial.Points (dial : Dial) : Prop :=
  dial.place < dial.step.choices.length

theorem combinationsFrom_start (steps : List ReplayStep) :
    combinationsFrom (steps.map ({ step := · })) = combinations (steps.map (·.choices)) := by
  induction steps with
  | nil => rfl
  | cons step steps ih =>
    rw [List.map_cons, combinationsFrom, ih]
    cases step with
    | mk method choices => cases choices <;> simp [combinations, Function.comp_def]

theorem turn_wrapped (turned : turn dials = (next, true)) :
    next = (dials.map (·.step)).map ({ step := · }) := by
  fun_induction turn dials generalizing next with
  | case1 => cases turned; rfl
  | case2 | case4 => cases turned
  | case3 dial dials later rest full ih =>
    cases turned
    rw [ih rest]
    rfl

theorem points_turn (points : ∀ dial ∈ dials, dial.Points) :
    ∀ dial ∈ (turn dials).1, dial.Points := by
  fun_induction turn dials with
  | case1 => exact points
  | case2 dial dials later rest fits ih =>
    obtain ⟨-, points⟩ := List.forall_mem_cons.mp points
    rw [rest] at ih
    exact List.forall_mem_cons.mpr ⟨fits, ih points⟩
  | case3 dial dials later rest full ih =>
    obtain ⟨here, points⟩ := List.forall_mem_cons.mp points
    rw [rest] at ih
    exact List.forall_mem_cons.mpr ⟨Nat.zero_lt_of_lt here, ih points⟩
  | case4 dial dials later rest ih =>
    obtain ⟨here, points⟩ := List.forall_mem_cons.mp points
    rw [rest] at ih
    exact List.forall_mem_cons.mpr ⟨here, ih points⟩

/-- A turn goes on to the next combination in lexicographic order. -/
theorem combinationsFrom_eq (points : ∀ dial ∈ dials, dial.Points) :
    ∃ combination, combinationAt? dials = some combination ∧
      combinationsFrom dials = combination ::
        (if (turn dials).2 then [] else combinationsFrom (turn dials).1) := by
  induction dials with
  | nil => exact ⟨[], rfl, rfl⟩
  | cons dial dials ih =>
    obtain ⟨here, points⟩ := List.forall_mem_cons.mp points
    obtain ⟨others, pointed, left⟩ := ih points
    have choice := List.getElem?_eq_getElem here
    refine ⟨_, by rw [combinationAt?, choice, pointed]; rfl, ?_⟩
    rw [combinationsFrom, choice, left, turn]
    rcases turned : turn dials with ⟨later, _ | _⟩
    all_goals
      have same : later.map (·.step.choices) = dials.map (·.step.choices) := by
        simpa only [List.map_map, Function.comp_def] using
          congrArg (List.map (·.choices)) (map_step_turn turned)
    · simp [combinationsFrom, choice, same]
    · have all : combinationsFrom later = combinations (dials.map (·.step.choices)) := by
        rw [turn_wrapped turned, combinationsFrom_start, List.map_map]
        rfl
      by_cases fits : dial.place + 1 < dial.step.choices.length
      · simp only [fits, combinationsFrom, all, same, combinations, if_true, List.map_nil,
          List.map_cons, Option.toList_some, List.flatMap_cons, List.flatMap_nil, List.append_nil,
          List.getElem?_eq_getElem fits, Bool.false_eq_true, if_false]
        rw [List.drop_eq_getElem_cons fits, List.flatMap_cons]
        rfl
      · simp [fits, combinations, List.drop_eq_nil_of_le (Nat.le_of_not_lt fits)]

def replayFrom (parts : QueryParts) (methods : List BuilderMethod) (args : List (List Literal)) :
    Replay String := do
  let parts ← Replay.lift ((methods.zip args).foldlM (fun (parts : QueryParts) call =>
    parts.apply call.1 call.2) parts)
  Replay.ofOption parts.render?

theorem replayFrom_cons (parts : QueryParts) (method : BuilderMethod) (methods : List BuilderMethod)
    (first : List Literal) (args : List (List Literal)) :
    replayFrom parts (method :: methods) (first :: args) =
      Replay.lift (parts.apply method first) >>= fun parts => replayFrom parts methods args := by
  simp only [replayFrom, List.zip_cons_cons, List.foldlM_cons]
  cases parts.apply method first <;> rfl

theorem replayAt_eq {combination} (points : combinationAt? dials = some combination)
    (parts : QueryParts) :
    (replayAt parts dials >>= fun parts => Replay.ofOption parts.render?) =
      replayFrom parts (dials.map (·.step.method)) combination := by
  induction dials generalizing parts combination with
  | nil =>
    cases points
    rfl
  | cons dial dials ih =>
    simp only [combinationAt?, Option.bind_eq_bind, Option.bind_eq_some_iff, Option.pure_def,
      Option.some.injEq] at points
    obtain ⟨args, here, others, later, rfl⟩ := points
    simp only [List.map_cons, replayFrom_cons, ← ih later, replayAt, here, bind_assoc]

/-- A sweep replays the combinations that are left and adds their texts to those of before. -/
theorem sweep_eq (points : ∀ dial ∈ dials, dial.Points) (before : List String) :
    sweep dials before.eraseDups =
      (combinationsFrom dials).mapM (replayFrom {} (dials.map (·.step.method))) >>= fun texts =>
        pure (before ++ texts).eraseDups := by
  induction left : turnsLeft dials using Nat.strongRecOn generalizing dials before with
  | ind n ih =>
    obtain ⟨combination, pointed, split⟩ := combinationsFrom_eq points
    have again := points_turn points
    rw [sweep, split, List.mapM_cons, ← replayAt_eq pointed, bind_assoc, bind_assoc]
    refine congrArg _ (funext fun parts => ?_)
    refine congrArg _ (funext fun text => ?_)
    have added : (if before.eraseDups.contains text then before.eraseDups
        else before.eraseDups ++ [text]) = (before ++ [text]).eraseDups := by
      simp [Distinct.eraseDups_concat]
    dsimp only
    rw [added, bind_assoc]
    simp only [pure_bind]
    split
    · rename_i turned
      simp [turned]
    · rename_i later turned
      have methods : later.map (·.step.method) = dials.map (·.step.method) := by
        simpa only [List.map_map, Function.comp_def] using
          congrArg (List.map (·.method)) (map_step_turn turned)
      rw [turned] at again
      have rest := ih _ (left ▸ turnsLeft_turn turned) again (before ++ [text]) rfl
      simp only [List.append_assoc, List.singleton_append, methods] at rest
      simp only [rest, turned, Bool.false_eq_true, if_false]

/-- The texts that `steps` lead to from `parts`, the choices of the last step varying fastest. -/
def replay (parts : QueryParts) : List ReplayStep → Replay (List String)
  | [] => do return [← Replay.ofOption parts.render?]
  | step :: steps => do
    if step.choices.isEmpty then throw (.breakdown .noChoice)
    let texts ← step.choices.mapM fun args => do
      replay (← Replay.lift (parts.apply step.method args)) steps
    return texts.flatten

theorem replay_cons {parts step} (filled : step.choices ≠ []) :
    replay parts (step :: steps) = (do
      let texts ← step.choices.mapM fun args => do
        replay (← Replay.lift (parts.apply step.method args)) steps
      return texts.flatten) := by
  rw [replay, if_neg (by simpa using filled)]

theorem replay_filled {parts step} (replayed : replay parts (step :: steps) = pure texts) :
    step.choices ≠ [] := by
  intro empty
  rw [replay, empty] at replayed
  cases replayed

theorem mapM_lift_bind {combos} (some : combos ≠ []) (effect : Except BuilderFault QueryParts)
    (next : QueryParts → α → Replay String) :
    (Replay.lift effect >>= fun parts => combos.mapM (next parts)) =
      combos.mapM fun combo => Replay.lift effect >>= fun parts => next parts combo := by
  cases effect with
  | ok parts => rfl
  | error fault =>
    obtain ⟨combo, combos, rfl⟩ := List.exists_cons_of_ne_nil some
    rw [List.mapM_cons]
    rfl

theorem mapM_flatMap {γ : Type} (heads : List α) (f : α → List β) (g : β → Replay γ) :
    (heads.flatMap f).mapM g =
      (heads.mapM fun head => (f head).mapM g) >>= fun found => pure found.flatten := by
  induction heads with
  | nil => rfl
  | cons head heads ih => simp [ih]

/-- Sharing the beginnings of combinations comes to the same as replaying each from its start. -/
theorem replay_eq_mapM (parts : QueryParts) (filled : ∀ step ∈ steps, step.choices ≠ []) :
    replay parts steps =
      (combinations (steps.map (·.choices))).mapM (replayFrom parts (steps.map (·.method))) := by
  induction steps generalizing parts with
  | nil => simp [replay, combinations, replayFrom, Replay.lift]; rfl
  | cons step steps ih =>
    obtain ⟨first, filled⟩ := List.forall_mem_cons.mp filled
    have some : combinations (steps.map (·.choices)) ≠ [] :=
      combinations_ne_nil (by simpa using filled)
    rw [replay_cons first]
    simp only [ih _ filled, mapM_lift_bind some, List.map_cons, combinations, mapM_flatMap,
      List.mapM_map, ← replayFrom_cons, Function.comp_def]

theorem replay_of_empty {step} (inside : step ∈ steps) (empty : step.choices = [])
    (parts : QueryParts) :
    ∃ fault, replay parts steps = throw fault ∧
      replayAt parts (steps.map ({ step := · })) = throw fault := by
  induction steps generalizing parts with
  | nil => cases inside
  | cons first steps ih =>
    cases choices : first.choices with
    | nil => exact ⟨_, by rw [replay, choices]; rfl, by rw [List.map_cons, replayAt, choices]; rfl⟩
    | cons args others =>
      have later : step ∈ steps := by
        refine (List.mem_cons.mp inside).resolve_left ?_
        rintro rfl
        rw [choices] at empty
        cases empty
      rw [replay_cons (by simp [choices]), choices, List.mapM_cons, List.map_cons, replayAt]
      simp only [choices, List.getElem?_cons_zero]
      cases parts.apply first.method args with
      | error fault => exact ⟨.rejected fault, rfl, rfl⟩
      | ok next =>
        obtain ⟨fault, shared, alone⟩ := ih later next
        refine ⟨fault, ?_, alone⟩
        change ((replay next steps >>= _) >>= _) = _
        rw [shared]
        rfl

theorem sweep_start (steps : List ReplayStep) :
    sweep (steps.map ({ step := · })) [] =
      replay {} steps >>= fun texts => pure texts.eraseDups := by
  by_cases filled : ∃ step ∈ steps, step.choices = []
  · obtain ⟨step, inside, empty⟩ := filled
    obtain ⟨fault, shared, alone⟩ := replay_of_empty inside empty {}
    rw [sweep, alone, shared]
    rfl
  · have filled : ∀ step ∈ steps, step.choices ≠ [] :=
      fun step inside empty => filled ⟨step, inside, empty⟩
    have points : ∀ dial ∈ steps.map ({ step := · : Dial }), dial.Points := by
      simpa [Dial.Points, List.length_pos_iff] using filled
    have swept := sweep_eq points []
    rw [combinationsFrom_start, List.map_map] at swept
    rw [replay_eq_mapM _ filled]
    exact swept

/-- The texts that calls come to when they are made on a builder that has some parts already. -/
def candidatesFrom (parts : QueryParts) (calls : List (BuilderCall Ty)) :
    Except Fault (Option (List String)) :=
  Replay.outcome do
    let steps ← replaySteps 1 calls
    return (← replay parts steps).eraseDups

theorem queryCandidates_eq (calls : List (BuilderCall Ty)) :
    queryCandidates calls = candidatesFrom {} calls := by
  simp only [queryCandidates, candidatesFrom, sweep_start]

theorem sweep_ne_nil {found} (swept : sweep dials found = pure texts) : texts ≠ [] := by
  induction dials, found using sweep.induct with
  | case1 dials found ih =>
    rw [sweep] at swept
    obtain ⟨parts, -, swept⟩ := Replay.bind_eq_pure.mp swept
    obtain ⟨text, -, swept⟩ := Replay.bind_eq_pure.mp swept
    have some : (if found.contains text then found else found ++ [text]) ≠ [] := by
      split
      next inside => exact List.ne_nil_of_mem (List.contains_iff_mem.mp inside)
      next => simp
    dsimp only at swept
    split at swept
    next => exact Replay.pure_inj swept ▸ some
    next => exact ih _ _ ‹_› swept

theorem queryCandidates_ne_nil {calls} (known : queryCandidates calls = .ok (some texts)) :
    texts ≠ [] := by
  obtain ⟨steps, -, swept⟩ := Replay.bind_eq_pure.mp (Replay.outcome_eq_some.mp known)
  exact sweep_ne_nil swept

end EntityAudit
