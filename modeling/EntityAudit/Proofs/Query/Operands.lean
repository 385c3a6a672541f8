import EntityAudit.Proofs.Query.Provenance
import EntityAudit.Proofs.Query.Unlowered
import Mathlib.Data.List.Chain

/-! # Operands stand apart

No operand starts right after another one: a flag tells whether the last piece ends an operand, and
what would start another one is taken only where it is not set. Partial objects are the exception,
since the word `PARTIAL` is followed wherever it stands.
-/

namespace EntityAudit.Query

/-- Whether an operand starts with the piece. -/
def Piece.opensOperand : Piece → Bool
  | .className _ | .function _ | .number _ | .text _ | .parameter _ | .opening | .path _
  | .variable _ | .partialObject _ _ | .subselect _ => true
  | _ => false

def Piece.IsPartialObject (piece : Piece) : Prop :=
  ∃ aliasName fields, piece = .partialObject aliasName fields

namespace Read

variable {p next : Progress} {sub : Read Select} {c c' : Cursor}

theorem Progress.Takes.operand {t following piece} (takes : p.Takes t following piece next) :
    next.afterOperand = piece.isOperand ∧ (piece.opensOperand = true → ¬ p.afterOperand) := by
  cases takes with
  | opening _ ready | className _ ready | function _ _ ready | number _ ready | text _ ready
  | parameter _ ready => exact ⟨rfl, fun _ => ready⟩
  | closing | comma | operator | keyword => exact ⟨rfl, fun no => absurd no Bool.false_ne_true⟩

/-- A step takes one piece and sets the flag by it; the start of an operand is taken only where the
    flag is not set, unless it is a partial object. -/
theorem ScanStep.operand (step : ScanStep sub p c next c') :
    ∃ piece, next.pieces = p.pieces ++ [piece] ∧ next.afterOperand = piece.isOperand ∧
      (piece.opensOperand = true → ¬ p.afterOperand ∨ piece.IsPartialObject) := by
  cases step with
  | take here chosen =>
    obtain ⟨piece, takes⟩ := takes_of_action chosen
    obtain ⟨flag, ready⟩ := takes.operand
    exact ⟨piece, takes.pieces, flag, fun opens => .inl (ready opens)⟩
  | «variable» here chosen =>
    cases acts_of_action chosen with
    | «variable» _ ready => exact ⟨_, rfl, rfl, fun _ => .inl ready⟩
  | path here chosen read =>
    obtain ⟨_, _, _, _, -, rfl, -⟩ := path_ok read
    cases acts_of_action chosen with
    | path ready => exact ⟨_, rfl, rfl, fun _ => .inl ready⟩
  | partialObject here chosen read =>
    obtain ⟨_, _, _, -, -, rfl⟩ := partialObject_ok read
    exact ⟨_, rfl, rfl, fun _ => .inr ⟨_, _, rfl⟩⟩
  | subselect here chosen =>
    cases acts_of_action chosen with
    | subselect _ ready => exact ⟨_, rfl, rfl, fun _ => .inl ready⟩

/-- The flag is that of the last piece, and only partial objects start right after an operand. -/
structure Progress.KeepsApart (p : Progress) : Prop where
  flag : ∀ last ∈ p.pieces.getLast?, p.afterOperand = last.isOperand
  apart : p.pieces.IsChain fun piece next =>
    piece.isOperand = true → next.opensOperand = true → next.IsPartialObject

theorem ScanStep.keepsApart (step : ScanStep sub p c next c') (before : p.KeepsApart) :
    next.KeepsApart := by
  obtain ⟨piece, pieces, flag, ready⟩ := step.operand
  constructor
  · rw [pieces, List.getLast?_concat]
    rintro _ ⟨⟩
    exact flag
  · rw [pieces]
    refine before.apart.append (.singleton piece) ?_
    rintro last isLast _ ⟨⟩ operand opens
    rw [← before.flag last isLast] at operand
    exact (ready opens).resolve_left fun clear => clear operand

end Read

theorem parse_keepsApart {text g g' parsed} (accepted : parse text g = .ok parsed g') :
    ∀ e ∈ parsed.statement.expressions, e.IsChain fun piece next =>
      piece.isOperand = true → next.opensOperand = true → next.IsPartialObject := by
  obtain ⟨outcome, -⟩ := parse_reads accepted
  intro e among
  have read := Read.statement_areRead (Reading.outcome_ok outcome)
  have start : Read.Progress.KeepsApart {} := ⟨by simp, .nil⟩
  obtain ⟨last, apart, rfl⟩ := read.invariant start (fun _ step => step.keepsApart) among
  exact apart.apart

-- The word `PARTIAL` is followed right after a variable.
example : succeeds Read.statement ⟨Token.scan "SELECT u PARTIAL u.{id} FROM User u", []⟩ (fun s =>
    s.expressions.map (·.map fun piece => (piece.isOperand, piece.opensOperand)) ==
      [[(true, true), (true, true)]]) = true := by
  decide +kernel

theorem isUnlowered_of_mem {e piece} (isPartial : piece.IsPartialObject) (inside : piece ∈ e) :
    IsUnlowered e := by
  obtain ⟨aliasName, fields, rfl⟩ := isPartial
  obtain ⟨before, after, rfl⟩ := List.append_of_mem inside
  exact ((isUnlowered_partialObject aliasName fields).append_right after).append_left before

/-- In an accepted text with a relational form, no operand starts right after another one, in any
    expression at any depth. -/
theorem parse_operands_apart {text : String} {g g' : Gateway} {parsed : Parsed}
    (accepted : parse text g = .ok parsed g') (relational : parsed.statement.isRelational = true) :
    ∀ e ∈ parsed.statement.expressions, e.IsChain fun piece next =>
      piece.isOperand = true → next.opensOperand = false := by
  intro e among
  refine (parse_keepsApart accepted e among).imp_of_mem_imp fun piece next _ inside apart operand =>
    ?_
  -- A partial object would leave the whole expression without a relational form.
  have noPartial : ¬ next.IsPartialObject := by
    intro isPartial
    have lowered := List.all_eq_true.mp relational e among
    rw [isUnlowered_of_mem isPartial inside] at lowered
    exact Bool.false_ne_true lowered
  exact Bool.eq_false_iff.mpr fun opens => noPartial (apart operand opens)

/-- Aliases right after operands, a function, a subselect, and words that end operands. -/
theorem parse_operands_apart_aliases :
    let text := "SELECT COUNT(u.id) n, CASE WHEN u.id = 1 THEN NULL ELSE 2 END kind FROM User u " ++
      "WHERE u.id IN (SELECT MAX(w.id) last FROM User w)"
    let user : EntityRecord :=
      { className := "User", table := "users",
        fields := [{ name := "id", column := "id", columnType := "integer", isId := true }] }
    let g : Gateway := .ofSource (Catalog.toSource { records := [("user", user)] })
    ∃ parsed g', parse text g = .ok parsed g' ∧ parsed.statement.isRelational = true ∧
      ∀ e ∈ parsed.statement.expressions, e.IsChain fun piece next =>
        piece.isOperand = true → next.opensOperand = false := by
  intro text user g
  have readable : succeeds (parse text) g (·.statement.isRelational) = true := by decide +kernel
  obtain ⟨parsed, g', accepted, relational⟩ := exists_of_succeeds readable
  exact ⟨parsed, g', accepted, relational, parse_operands_apart accepted relational⟩

end EntityAudit.Query
