import EntityAudit.Proofs.Query.Balance
import EntityAudit.Proofs.Query.Lowering

/-! # Parameters in the order of the text

The parameters among the tokens that a reader takes are those of what it reads, in the same order.
They are counted as lowering goes through an expression, so what it drops after a function without
parentheses does not count.
-/

namespace EntityAudit.Query

variable {p : Progress}

def Token.parameter? (t : Token) : Option String :=
  if t.kind = .parameter then some t.value else none

/-- The parameters among tokens, in order and as often as they stand there. -/
def parameterNames (tokens : List Token) : List String :=
  tokens.filterMap Token.parameter?

/-- Whether a token is the name of a function that SQL writes without parentheses. -/
def Token.isBareFunction (t : Token) : Bool :=
  t.isName && bareFunctions.contains (Text.raiseCase t.value)

def opensEmpty : List Token → Bool
  | opening :: inner :: _ => opening.kind != .openParen || inner.kind == .closeParen
  | _ => true

/-- Whether no function that SQL writes without parentheses has anything between them. -/
def emptyBareCalls : List Token → Bool
  | [] => true
  | token :: rest => (!token.isBareFunction || opensEmpty rest) && emptyBareCalls rest

theorem emptyBareCalls_append {taken rest} (empty : emptyBareCalls (taken ++ rest) = true) :
    emptyBareCalls rest = true := by
  induction taken with
  | nil => exact empty
  | cons token taken ih => exact ih (Bool.and_eq_true_iff.mp empty).2

theorem parameterNames_append (first second : List Token) :
    parameterNames (first ++ second) = parameterNames first ++ parameterNames second :=
  List.filterMap_append

theorem Token.parameter?_of_kind {t : Token} {kind} (same : t.kind = kind)
    (other : kind ≠ .parameter) : t.parameter? = none :=
  if_neg (same ▸ other)

mutual
def pieceParameters : Piece → List String
  | .parameter name => [name]
  | .subselect query => selectParameters query
  | _ => []

/-- The parameters of an expression, in order, less those of the first `dropped` pieces and of what
    functions without parentheses drop. -/
def piecesParameters : List Piece → (dropped : Nat) → List String
  | [], _ => []
  | _ :: rest, dropped + 1 => piecesParameters rest dropped
  | piece :: rest, 0 =>
    pieceParameters piece ++
      piecesParameters rest (if piece.isBareFunction && rest.head?.any (·.isOpening) then 2 else 0)

/-- The parameters of a select statement, in the order of its clauses. -/
def selectParameters : SelectOf (List Piece) → List String
  | ⟨_, items, ranges, filter, groups, groupFilter, orders⟩ =>
    itemParameters items ++ rangeParameters ranges ++ optionalParameters filter ++
      listedParameters groups ++ optionalParameters groupFilter ++ orderParameters orders

def itemParameters : List (SelectItem (List Piece)) → List String
  | [] => []
  | ⟨expr, _⟩ :: rest => piecesParameters expr 0 ++ itemParameters rest

def rangeParameters : List (Range (List Piece)) → List String
  | [] => []
  | ⟨_, _, _, joins⟩ :: rest => joinParameters joins ++ rangeParameters rest

def joinParameters : List (Join (List Piece)) → List String
  | [] => []
  | ⟨_, _, _, _, condition⟩ :: rest => optionalParameters condition ++ joinParameters rest

def optionalParameters : Option (List Piece) → List String
  | none => []
  | some expr => piecesParameters expr 0

def listedParameters : List (List Piece) → List String
  | [] => []
  | expr :: rest => piecesParameters expr 0 ++ listedParameters rest

def orderParameters : List (OrderItem (List Piece)) → List String
  | [] => []
  | ⟨expr, _⟩ :: rest => piecesParameters expr 0 ++ orderParameters rest
end

def Statement.parameters : Statement → List String
  | .select query => selectParameters query
  | .update _ assignments filter =>
    listedParameters (assignments.map (·.value)) ++ optionalParameters filter
  | .delete _ filter => optionalParameters filter

@[simp]
def Part.parameters : Part → List String
  | .name _ => []
  | .expression e => piecesParameters e 0

theorem optionalParameters_eq (clause : Option Expression) :
    optionalParameters clause = (clauseParts clause).flatMap Part.parameters := by
  cases clause <;> simp [optionalParameters, clauseParts]

theorem itemParameters_eq (items : List (SelectItem Expression)) :
    itemParameters items = (items.flatMap SelectItem.parts).flatMap Part.parameters := by
  induction items <;> simp_all [itemParameters, SelectItem.parts, List.flatMap_map]

theorem joinParameters_eq (joins : List (Join Expression)) :
    joinParameters joins = (joins.flatMap Join.parts).flatMap Part.parameters := by
  induction joins <;>
    simp_all [joinParameters, Join.parts, List.flatMap_map, optionalParameters_eq]

theorem rangeParameters_eq (ranges : List (Range Expression)) :
    rangeParameters ranges = (ranges.flatMap Range.parts).flatMap Part.parameters := by
  induction ranges <;>
    simp_all [rangeParameters, Range.parts, List.flatMap_map, joinParameters_eq]

theorem listedParameters_eq (exprs : List Expression) :
    listedParameters exprs = (exprs.map .expression).flatMap Part.parameters := by
  induction exprs <;> simp_all [listedParameters]

theorem orderParameters_eq (orders : List (OrderItem Expression)) :
    orderParameters orders = (orders.map OrderItem.part).flatMap Part.parameters := by
  induction orders <;> simp_all [orderParameters, OrderItem.part]

theorem selectParameters_eq (query : Select) :
    selectParameters query = query.parts.flatMap Part.parameters := by
  cases query
  simp [selectParameters, SelectOf.parts, itemParameters_eq, rangeParameters_eq,
    optionalParameters_eq, listedParameters_eq, orderParameters_eq]

theorem assignedParameters_eq (assignments : List Assignment) :
    listedParameters (assignments.map (·.value)) =
      (assignments.flatMap Assignment.parts).flatMap Part.parameters := by
  induction assignments <;> simp_all [listedParameters, Assignment.parts]

theorem Statement.parameters_eq {s : Statement} (bare : s.IsBare) :
    s.parameters = s.parts.flatMap Part.parameters := by
  cases s with
  | select query => exact selectParameters_eq query
  | update range | delete range =>
    have joins : range.joins = [] := bare
    simp [parameters, parts, Range.parts, joins, List.flatMap_map, assignedParameters_eq,
      optionalParameters_eq]

theorem piecesParameters_drop (pieces : List Piece) (dropped : Nat) :
    piecesParameters (pieces.drop dropped) 0 = piecesParameters pieces dropped := by
  induction pieces generalizing dropped with
  | nil => rw [List.drop_nil, piecesParameters, piecesParameters]
  | cons piece rest ih =>
    cases dropped with
    | zero => rfl
    | succ dropped => exact ih dropped

theorem piecesParameters_cons (piece : Piece) (rest : List Piece) :
    piecesParameters (piece :: rest) 0 =
      pieceParameters piece ++ piecesParameters (piece.onward rest) 0 := by
  rw [piecesParameters, Piece.onward, ← piecesParameters_drop]
  split
  · rfl
  · rfl

def Cursor.Carries (c c' : Cursor) (names : List String) : Prop :=
  ∃ taken, c.rest = taken ++ c'.rest ∧ parameterNames taken = names

namespace Cursor.Carries

variable {c₁ c₂ c₃ : Cursor} {names names' : List String}

theorem still (same : c₁.rest = c₂.rest) : c₁.Carries c₂ [] :=
  ⟨[], same, rfl⟩

theorem trans (first : c₁.Carries c₂ names) (second : c₂.Carries c₃ names') :
    c₁.Carries c₃ (names ++ names') := by
  obtain ⟨taken, rest, rfl⟩ := first
  obtain ⟨taken', rest', rfl⟩ := second
  exact ⟨taken ++ taken', by rw [rest, rest', List.append_assoc], parameterNames_append _ _⟩

theorem empty (carried : c₁.Carries c₂ names) (empty : emptyBareCalls c₁.rest = true) :
    emptyBareCalls c₂.rest = true := by
  obtain ⟨taken, rest, -⟩ := carried
  exact emptyBareCalls_append (rest ▸ empty)

end Cursor.Carries

theorem Cursor.Passes.carries {c c' : Cursor} {token noted} (passed : c.Passes c' [token] noted) :
    c.Carries c' token.parameter?.toList :=
  ⟨[token], passed.rest, filterMap_singleton _ _⟩

theorem Cursor.Passes.silently {c c' : Cursor} {token noted} (passed : c.Passes c' [token] noted)
    (other : token.parameter? = none) : c.Carries c' [] := by
  have carried := passed.carries
  rwa [other] at carried

theorem Cursor.Links.carries {c c' : Cursor} (linked : c.Links c') : c.Carries c' [] := by
  obtain ⟨taken, rest, links⟩ := linked
  have other : ∀ kind ∈ linkKinds, kind ≠ .parameter := by decide
  exact ⟨taken, rest, List.filterMap_eq_nil_iff.mpr fun t inside =>
    Token.parameter?_of_kind rfl (other _ (links t inside))⟩

namespace Read

/-- A token is kept as a piece with the same parameter. Where the piece is a bare function, the
    token names one, and a parenthesis follows that will be taken for its own. -/
theorem Progress.Takes.parameter? {next token following piece}
    (takes : p.Takes token following piece next) :
    pieceParameters piece = token.parameter?.toList ∧
      (piece.isBareFunction = true → token.isBareFunction = true ∧ next.afterOperand = false ∧
        following.map (·.kind) = some .openParen) := by
  cases takes <;> simp_all [Token.parameter?, pieceParameters, Piece.isBareFunction,
    Token.isBareFunction, Token.isName, Token.isWord, Progress.push] <;> grind

variable {sub : Read Select}

theorem Scans.emptyParentheses {c c' e opening rest} (scanned : Scans sub p c e c')
    (here : c.rest = opening :: rest) (opens : opening.kind = .openParen)
    (operand : p.afterOperand = false) (empty : opensEmpty (opening :: rest) = true) :
    p.pieces ++ [.opening, .closing] <+: e := by
  have noSelect : rest.head?.any (·.isWord "SELECT") = false := by
    cases rest with
    | nil => rfl
    | cons closing rest =>
      have closes : closing.kind = .closeParen := by simpa [opensEmpty, opens] using empty
      simp [Token.isWord, closes]
  have opened : p.action opening rest.head? =
      .take { p.push .opening false with depth := p.depth + 1 } := by
    simp [Progress.action, opens, operand, noSelect]
  replace scanned := scanned.take here opened
  cases rest with
  | nil =>
    -- The text cannot end here, with a parenthesis left open.
    cases scanned with
    | stop ends => rcases ends with ⟨closed, -⟩ | ⟨_, _, more, -⟩ <;> contradiction
    | step first => cases first <;> contradiction
  | cons closing rest =>
    have closes : closing.kind = .closeParen := by simpa [opensEmpty, opens] using empty
    have closed : Progress.action { p.push .opening false with depth := p.depth + 1 } closing
        rest.head? = .take { (p.push .opening false).push .closing true with depth := p.depth } := by
      simp [Progress.action, closes, Progress.push]
    have begun := (scanned.take rfl closed).begins
    simp only [Progress.push, List.append_assoc] at begun
    exact begun

/-- A reader of subselects that keeps their parameters in order, before tokens that call no bare
    function with arguments. -/
def Carries (sub : Read Select) : Prop :=
  ∀ {c query c'}, sub c = .ok query c' → emptyBareCalls c.rest = true →
    c.Carries c' (selectParameters query)

theorem ScanStep.carries {next : Progress} {c c'} (subselects : Carries sub)
    (empty : emptyBareCalls c.rest = true) (step : ScanStep sub p c next c') :
    ∃ piece, next.pieces = p.pieces ++ [piece] ∧ c.Carries c' (pieceParameters piece) ∧
      (piece.isBareFunction = true → next.afterOperand = false ∧ opensEmpty c'.rest = true ∧
        c'.rest.head?.map (·.kind) = some .openParen) := by
  cases step with
  | @take token rest next here chosen =>
    obtain ⟨piece, takes⟩ := takes_of_action chosen
    obtain ⟨same, called⟩ := takes.parameter?
    refine ⟨piece, takes.pieces, same ▸ (Cursor.Passes.token here).carries, fun bare => ?_⟩
    obtain ⟨isBare, operand, opening⟩ := called bare
    refine ⟨operand, ?_, opening⟩
    rw [here, emptyBareCalls, isBare] at empty
    exact (Bool.and_eq_true_iff.mp empty).1
  | @«variable» token rest here chosen =>
    cases acts_of_action chosen with
    | «variable» named =>
      have link := Token.link_of_isName named
      exact ⟨_, rfl, ((Cursor.Passes.noting here _).links link).carries,
        fun no => absurd no Bool.false_ne_true⟩
  | path here chosen read =>
    obtain ⟨_, _, _, _, -, rfl, -⟩ := path_ok read
    exact ⟨_, rfl, (links_of_ok read).carries, fun no => absurd no Bool.false_ne_true⟩
  | partialObject here chosen read =>
    cases acts_of_action chosen with
    | partialObject isPartial =>
      obtain ⟨taken, rest, -, kinds⟩ := partialObject_phrase here isPartial read
      have other : ∀ kind ∈ partialKinds, kind ≠ .parameter := by decide
      have silent : parameterNames taken = [] := List.filterMap_eq_nil_iff.mpr fun t inside =>
        Token.parameter?_of_kind rfl (other _ (kinds t inside))
      obtain ⟨_, _, _, -, -, rfl⟩ := partialObject_ok read
      exact ⟨_, rfl, ⟨taken, rest, silent⟩, fun no => absurd no Bool.false_ne_true⟩
  | subselect here chosen read closed isClosing =>
    cases acts_of_action chosen with
    | subselect opening =>
      have opening := Token.parameter?_of_kind opening (by decide)
      have closing := Token.parameter?_of_kind isClosing (by decide)
      have begun := (Cursor.Passes.token here).silently opening
      have carried := subselects read (begun.empty empty)
      have whole := begun.trans (carried.trans (closed.silently closing))
      rw [List.nil_append, List.append_nil] at whole
      exact ⟨_, rfl, whole, fun no => absurd no Bool.false_ne_true⟩

theorem Scans.carries {c c' e} (subselects : Carries sub) (empty : emptyBareCalls c.rest = true)
    (scanned : Scans sub p c e c') :
    ∃ pieces, e = p.pieces ++ pieces ∧ c.Carries c' (piecesParameters pieces 0) := by
  induction scanned with
  | stop => exact ⟨[], (List.append_nil _).symm, .still rfl⟩
  | @step p c next middle e c' first rest ih =>
    obtain ⟨piece, pushed, here, called⟩ := first.carries subselects empty
    obtain ⟨pieces, parts, later⟩ := ih (here.empty empty)
    refine ⟨piece :: pieces, by rw [parts, pushed, List.append_assoc, List.singleton_append], ?_⟩
    rw [piecesParameters_cons]
    cases bare : piece.isBareFunction with
    | false =>
      rw [Piece.onward, bare]
      exact here.trans later
    | true =>
      -- What lowering drops after a bare function is a pair of parentheses.
      obtain ⟨operand, opens, isOpening⟩ := called bare
      obtain ⟨opening, tokens, tokens_eq⟩ := List.exists_cons_of_ne_nil
        (show middle.rest ≠ [] by rintro none; simp [none] at isOpening)
      have begun := rest.emptyParentheses tokens_eq (by simpa [tokens_eq] using isOpening)
        operand (tokens_eq ▸ opens)
      rw [parts, List.prefix_append_right_inj] at begun
      obtain ⟨others, rfl⟩ := begun
      rw [Piece.onward, bare]
      exact here.trans later

theorem travels_carries {c c' : Cursor} {parts} (subselects : Carries sub)
    (way : c.Travels sub parts c') (empty : emptyBareCalls c.rest = true) :
    c.Carries c' (parts.flatMap Part.parameters) := by
  induction way with
  | @names _ uses _ linked =>
    have none : (uses.map .name).flatMap Part.parameters = [] := by simp [List.flatMap_map]
    exact none ▸ linked.carries
  | expression run =>
    obtain ⟨pieces, rfl, carried⟩ := run.carries subselects empty
    rw [List.flatMap_singleton]
    exact carried
  | trans _ _ first second =>
    rw [List.flatMap_append]
    exact (first empty).trans (second ((first empty).empty empty))

theorem statement_carries {c c' : Cursor} {s} (empty : emptyBareCalls c.rest = true)
    (read : statement c = .ok s c') : parameterNames c.rest = s.parameters := by
  obtain ⟨taken, rest, known⟩ := statement_travels (G := fun c parts c' =>
    emptyBareCalls c.rest = true → c.Carries c' (parts.flatMap Part.parameters))
    (fun _ _ subselects => travels_carries fun read => selectParameters_eq _ ▸ subselects read) read
    empty
  rw [s.parameters_eq (statement_isBare read), ← known, rest, (statement_ok read).1, List.append_nil]

end Read

theorem parse_parameters {text g g' parsed} (accepted : parse text g = .ok parsed g')
    (empty : emptyBareCalls (Token.scan text) = true) :
    parsed.statement.parameters = parameterNames (Token.scan text) := by
  obtain ⟨outcome, -⟩ := parse_reads accepted
  exact (Read.statement_carries empty (Reading.outcome_ok outcome)).symm

end EntityAudit.Query
