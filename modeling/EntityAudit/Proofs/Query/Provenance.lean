import EntityAudit.Proofs.Query.Balance
import EntityAudit.Proofs.Query.Spans

/-! # Where expressions come from

Every expression of a statement, at every depth, was read by a run over tokens of the text. So what
the steps of a run make true of the pieces they take is true of every piece. In particular the words
among them have no quotes, parentheses or dollar signs in them.
-/

namespace EntityAudit.Query

variable {c c' : Cursor}

theorem Cursor.Travels.onward {sub} [Read.Onward sub] {parts} (way : c.Travels sub parts c') :
    c'.rest <:+ c.rest := by
  induction way with
  | names linked =>
    obtain ⟨taken, rest, -⟩ := linked
    exact ⟨taken, rest.symm⟩
  | expression run => exact run.onward
  | trans _ _ first second => exact second.trans first

namespace Read

variable {tokens : List Token} {sub : Read Select}

/-- Each of the expressions is what a run within `tokens` came to. -/
def AreRead (tokens : List Token) (expressions : List Expression) : Prop :=
  ∀ e ∈ expressions, ∃ sub c c', Onward sub ∧ c.rest <:+ tokens ∧ Scans sub {} c e c'

theorem areRead_nil : AreRead tokens [] :=
  fun _ inside => absurd inside List.not_mem_nil

theorem areRead_append {first second} :
    AreRead tokens (first ++ second) ↔ AreRead tokens first ∧ AreRead tokens second :=
  List.forall_mem_append

section Expressions

variable (subselects : ∀ {c query c'}, sub c = .ok query c' → c.rest <:+ tokens →
  AreRead tokens (selectExpressions query))

include subselects

theorem ScanStep.takes {p next c c'} (step : ScanStep sub p c next c')
    (inside : c.rest <:+ tokens) :
    ∃ piece, next.pieces = p.pieces ++ [piece] ∧ AreRead tokens (pieceExpressions piece) := by
  cases step with
  | take here chosen =>
    obtain ⟨piece, takes⟩ := takes_of_action chosen
    obtain ⟨-, -, -, flat⟩ := takes.counts
    exact ⟨piece, takes.pieces, flat ▸ areRead_nil⟩
  | «variable» here chosen => exact ⟨_, rfl, areRead_nil⟩
  | path here chosen read =>
    obtain ⟨_, _, _, _, -, rfl, -⟩ := path_ok read
    exact ⟨_, rfl, areRead_nil⟩
  | partialObject here chosen read =>
    obtain ⟨_, _, _, -, -, rfl⟩ := partialObject_ok read
    exact ⟨_, rfl, areRead_nil⟩
  | subselect here chosen read closed isClosing =>
    rw [here] at inside
    exact ⟨_, rfl, subselects read ((List.suffix_cons _ _).trans inside)⟩

variable [Onward sub]

theorem Scans.areRead {p e} (run : Scans sub p c e c') (inside : c.rest <:+ tokens)
    (before : AreRead tokens (nestedExpressions p.pieces)) :
    AreRead tokens (nestedExpressions e) := by
  induction run with
  | stop => exact before
  | step first rest ih =>
    obtain ⟨piece, pieces, known⟩ := first.takes subselects inside
    apply ih (first.onward.trans inside)
    rw [pieces, nestedExpressions_append, areRead_append]
    exact ⟨before, by simpa [nestedExpressions] using known⟩

theorem travels_areRead {parts} (way : c.Travels sub parts c') (inside : c.rest <:+ tokens) :
    AreRead tokens (parts.flatMap Part.expressions) := by
  induction way with
  | names => exact expressions_names _ ▸ areRead_nil
  | @expression c e c' run =>
    rw [List.flatMap_singleton]
    exact List.forall_mem_cons.mpr
      ⟨⟨sub, c, c', ‹_›, inside, run⟩, run.areRead subselects inside areRead_nil⟩
  | trans earlier _ first second =>
    rw [List.flatMap_append, areRead_append]
    exact ⟨first inside, second (earlier.onward.trans inside)⟩

end Expressions

theorem Scans.invariant [Onward sub] {P : Progress → Prop}
    (keeps : ∀ {p c next c'}, c.rest <:+ tokens → ScanStep sub p c next c' → P p → P next) {p e}
    (run : Scans sub p c e c') (inside : c.rest <:+ tokens) (start : P p) :
    ∃ last, P last ∧ last.pieces = e := by
  induction run with
  | @stop p => exact ⟨p, start, rfl⟩
  | step first rest ih => exact ih (first.onward.trans inside) (keeps inside first start)

/-- What holds before anything is read and is kept by every step within `tokens` holds of the
    expressions that are read there. -/
theorem AreRead.invariant {P : Progress → Prop} {expressions} (read : AreRead tokens expressions)
    (start : P {})
    (keeps : ∀ {sub p c next c'}, c.rest <:+ tokens → ScanStep sub p c next c' → P p → P next) {e}
    (among : e ∈ expressions) : ∃ last, P last ∧ last.pieces = e := by
  obtain ⟨sub, c, c', _, inside, run⟩ := read e among
  exact run.invariant keeps inside start

theorem statement_areRead {s} (read : statement c = .ok s c') : AreRead c.rest s.expressions := by
  rw [s.expressions_eq]
  refine statement_travels
    (G := fun c₁ parts _ => c₁.rest <:+ c.rest → AreRead c.rest (parts.flatMap Part.expressions))
    ?_ read List.suffix_rfl
  exact fun _ _ subselects =>
    travels_areRead fun read => selectExpressions_eq _ ▸ subselects read

end Read

/-- A text that has no quotes, parentheses or dollar signs in it. -/
def IsLexicalText (text : String) : Prop :=
  ∀ c ∈ text.toList, IsLexical c

/-- A text that has neither single quotes nor parentheses in it. -/
def IsInertText (text : String) : Prop :=
  ∀ c ∈ text.toList, IsInert c

theorem IsLexicalText.isInertText {text} (lexical : IsLexicalText text) : IsInertText text :=
  fun c inside => (lexical c inside).1

/-- A piece that is no word, or one made of lexical characters. -/
def Piece.IsLexical : Piece → Prop
  | .keyword word | .function word | .number word | .operator word => IsLexicalText word
  | _ => True

def wordKinds : List TokenKind :=
  [.identifier, .qualifiedName, .integer, .float, .operator]

theorem lexeme_lexical {c cs} (word : (lexeme c cs).kind ∈ wordKinds) :
    ∀ d ∈ (lexeme c cs).value, IsLexical d := by
  have other : c ≠ '\'' := by
    rintro rfl
    rw [lexeme_quote] at word
    cases found : quoted? cs <;> simp [found, wordKinds] at word
  have name : c ≠ '"' := by
    rintro rfl
    have kind : (lexeme '"' cs).kind = .unknown := by cases cs <;> rfl
    exact absurd (kind ▸ word) (by decide)
  have dollar : c ≠ '$' := by
    rintro rfl
    have kind : (lexeme '$' cs).kind = .unknown := by cases cs <;> rfl
    exact absurd (kind ▸ word) (by decide)
  have mute : ∀ kind ∈ wordKinds, kind.side? = none := by decide
  have side := (lexeme_starts other cs).side
  obtain ⟨tail, spelled, all⟩ := lexeme_spelled other cs
  rw [spelled]
  exact List.forall_mem_cons.mpr ⟨⟨⟨other, side.symm.trans (mute _ word)⟩, name, dollar⟩, all⟩

theorem scanFrom_lexical {position cs t} (inside : t ∈ Token.scanFrom position cs)
    (word : t.kind ∈ wordKinds) : IsLexicalText t.value := by
  fun_induction Token.scanFrom position cs with
  | case1 => cases inside
  | case2 position c cs blank ih => exact ih inside
  | case3 position c cs solid found ih =>
    rcases List.mem_cons.mp inside with rfl | later
    · rw [IsLexicalText, String.toList_ofList]
      exact lexeme_lexical word
    · exact ih later

theorem isLexicalText_of_isReserved {word} (reserved : word ∈ reservedWords) :
    IsLexicalText word := by
  have all : (reservedWords.all fun word => word.toList.all (decide <| IsLexical ·)) = true := by
    decide +kernel
  simpa [IsLexicalText] using List.all_eq_true.mp all word reserved

namespace Read

variable {p next : Progress}

theorem Progress.Takes.lexical {token following piece}
    (spelled : token.kind ∈ wordKinds → IsLexicalText token.value)
    (takes : p.Takes token following piece next) : piece.IsLexical := by
  cases takes with
  | keyword isWord reserved => exact isLexicalText_of_isReserved reserved
  | function named =>
    apply spelled
    simp only [Token.isName, Bool.or_eq_true, beq_iff_eq] at named
    rcases named with kind | kind <;> simp [kind, wordKinds]
  | number kind =>
    apply spelled
    rcases kind with kind | kind <;> simp [kind, wordKinds]
  | operator kind => exact spelled (by simp [kind, wordKinds])
  | _ => trivial

theorem ScanStep.lexical {sub} (spelled : ∀ t ∈ c.rest, t.kind ∈ wordKinds → IsLexicalText t.value)
    (step : ScanStep sub p c next c') :
    ∃ piece, next.pieces = p.pieces ++ [piece] ∧ piece.IsLexical := by
  cases step with
  | take here chosen =>
    obtain ⟨piece, takes⟩ := takes_of_action chosen
    exact ⟨piece, takes.pieces, takes.lexical (spelled _ (by simp [here]))⟩
  | path here chosen read =>
    obtain ⟨_, _, _, _, -, rfl, -⟩ := path_ok read
    exact ⟨_, rfl, trivial⟩
  | partialObject here chosen read =>
    obtain ⟨_, _, _, -, -, rfl⟩ := partialObject_ok read
    exact ⟨_, rfl, trivial⟩
  | «variable» | subselect => exact ⟨_, rfl, trivial⟩

end Read

theorem parse_lexical {text g g' parsed} (accepted : parse text g = .ok parsed g') :
    ∀ e ∈ parsed.statement.expressions, ∀ piece ∈ e, piece.IsLexical := by
  obtain ⟨outcome, -⟩ := parse_reads accepted
  have read := Read.statement_areRead (Reading.outcome_ok outcome)
  have keeps {sub : Read Select} {p next : Read.Progress} {c c' : Cursor}
      (inside : c.rest <:+ Token.scan text) (step : Read.ScanStep sub p c next c')
      (before : ∀ piece ∈ p.pieces, piece.IsLexical) : ∀ piece ∈ next.pieces, piece.IsLexical := by
    obtain ⟨piece, pieces, lexical⟩ :=
      step.lexical fun t here => scanFrom_lexical (inside.subset here)
    rw [pieces]
    exact List.forall_mem_append.mpr ⟨before, List.forall_mem_singleton.mpr lexical⟩
  intro e among
  obtain ⟨last, lexical, rfl⟩ := read.invariant (by simp) keeps among
  exact lexical

end EntityAudit.Query
