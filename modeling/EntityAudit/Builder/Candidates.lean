import EntityAudit.Builder.QueryParts

/-! # Texts a query builder may produce

The recorded calls of a builder are replayed once for every choice of literals for their arguments,
which are gone through as on an odometer: a dial for each call points to one of its choices, and the
last dial turns fastest.
-/

namespace EntityAudit

def maxCandidates : Nat := 32

/-- A computation that may be rejected by the builder, or come to nothing because something is not
    known. Whichever comes first ends it. -/
abbrev Replay := ExceptT Fault Option

namespace Replay

def unknown {α : Type} : Replay α :=
  ExceptT.mk none

def ofOption {α : Type} : Option α → Replay α
  | some a => pure a
  | none => unknown

def lift {α : Type} (effect : Except BuilderFault α) : Replay α :=
  ExceptT.mk (some (effect.mapError .rejected))

/-- What a computation comes to; `none` when something is not known. -/
def outcome {α : Type} (r : Replay α) : Except Fault (Option α) :=
  match r.run with
  | some (.ok a) => .ok (some a)
  | some (.error fault) => .error fault
  | none => .ok none

end Replay

/-- A call with every choice of literals for its arguments. -/
structure ReplayStep where
  method : BuilderMethod
  choices : List (List Literal)
  deriving DecidableEq

/-- The choices for some arguments with those for one argument more; none when that one is no
    literal or there are too many of them. -/
def addChoices? (filled : List (List Literal)) (arg : Ty) : Option (List (List Literal)) := do
  let choices ← Literal.choices? arg
  let next := filled.flatMap fun before => choices.map (before ++ [·])
  if next.length ≤ maxCandidates then some next else none

/-- Every choice of literals for the arguments of a call, the last argument varying fastest. -/
def argumentChoices? (args : List Ty) : Option (List (List Literal)) :=
  args.foldlM addChoices? [[]]

/-- The calls that shape the text, with their choices; `total` counts the choices before them. -/
def replaySteps (total : Nat) : List (BuilderCall Ty) → Replay (List ReplayStep)
  | [] => return []
  | call :: calls => do
    if call.method.shapesText then
      if call.args.length < call.method.arity then
        throw (.rejected (.tooFewArguments call.method call.args.length))
      let choices ← Replay.ofOption (argumentChoices? call.args)
      let total := total * choices.length
      if total > maxCandidates then Replay.unknown
      return ⟨call.method, choices⟩ :: (← replaySteps total calls)
    else
      replaySteps total calls

/-- A call and the place of the choice it is made with next. -/
structure Dial where
  step : ReplayStep
  place : Nat := 0

/-- The parts of the query once each call was made with the choice that its dial points to. There may
    be no choice there to make it with. -/
def replayAt (parts : QueryParts) : List Dial → Replay QueryParts
  | [] => return parts
  | dial :: dials => do
    let some args := dial.step.choices[dial.place]? | throw (.breakdown .noChoice)
    replayAt (← Replay.lift (parts.apply dial.step.method args)) dials

/-- The dials one turn on, and whether all have wrapped around. A dial turns when all dials after it
    wrap around, and wraps around itself when it comes to the end of its choices. -/
def turn : List Dial → List Dial × Bool
  | [] => ([], true)
  | dial :: dials =>
    match turn dials with
    | (dials, true) =>
      if dial.place + 1 < dial.step.choices.length then
        ({ dial with place := dial.place + 1 } :: dials, false)
      else
        ({ dial with place := 0 } :: dials, true)
    | (dials, false) => (dial :: dials, false)

/-- More than dials for `steps` can turn. -/
def turnBound : List ReplayStep → Nat
  | [] => 1
  | step :: steps => (step.choices.length + 1) * turnBound steps

/-- How far dials are from the last choice of each. -/
def turnsLeft : List Dial → Nat
  | [] => 0
  | dial :: dials =>
    (dial.step.choices.length - dial.place) * turnBound (dials.map (·.step)) + turnsLeft dials

theorem turnsLeft_lt (dials : List Dial) :
    turnsLeft dials < turnBound (dials.map (·.step)) := by
  induction dials with
  | nil => decide
  | cons dial dials ih =>
    have first := Nat.mul_le_mul_right (turnBound (dials.map (·.step)))
      (Nat.sub_le dial.step.choices.length dial.place)
    rw [turnsLeft, List.map_cons, turnBound, Nat.add_mul]
    omega

theorem map_step_turn {dials next wrapped} (turned : turn dials = (next, wrapped)) :
    next.map (·.step) = dials.map (·.step) := by
  fun_induction turn dials generalizing next wrapped with
  | case1 => cases turned; rfl
  | case2 dial dials later rest _ ih | case3 dial dials later rest _ ih
  | case4 dial dials later rest ih =>
    cases turned
    exact congrArg (dial.step :: ·) (ih rest)

theorem turnsLeft_turn {dials next} (turned : turn dials = (next, false)) :
    turnsLeft next < turnsLeft dials := by
  fun_induction turn dials generalizing next with
  | case1 | case3 => cases turned
  | case2 dial dials later rest fits ih =>
    cases turned
    have inside := turnsLeft_lt later
    have split : dial.step.choices.length - dial.place =
        dial.step.choices.length - (dial.place + 1) + 1 := by omega
    rw [turnsLeft, turnsLeft, split, Nat.add_mul, ← map_step_turn rest]
    dsimp only
    omega
  | case4 dial dials later rest ih =>
    cases turned
    rw [turnsLeft, turnsLeft, map_step_turn rest]
    exact Nat.add_lt_add_left (ih rest) _

/-- Replay the choices from where the dials point to on, and add each text that is not found yet. -/
def sweep (dials : List Dial) (found : List String) : Replay (List String) := do
  let parts ← replayAt {} dials
  let text ← Replay.ofOption parts.render?
  let found := if found.contains text then found else found ++ [text]
  match _turned : turn dials with
  | (_, true) => return found
  | (next, false) => sweep next found
termination_by turnsLeft dials
decreasing_by exact turnsLeft_turn ‹_›

/-- The texts a builder with the recorded `calls` may produce, each once; none when they are not
    known. It fails if the builder rejects a call. -/
def queryCandidates (calls : List (BuilderCall Ty)) : Except Fault (Option (List String)) :=
  Replay.outcome do
    let steps ← replaySteps 1 calls
    sweep (steps.map ({ step := · })) []

end EntityAudit
