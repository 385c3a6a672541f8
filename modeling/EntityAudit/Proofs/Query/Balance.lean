import EntityAudit.Proofs.Query.Depth
import EntityAudit.Proofs.Query.NameSoundness

/-! # Accepted texts are balanced

Every reader leaves the depth of parentheses as it found it. Inside an expression the tokens it
passes, the pieces it keeps and its count agree at every step, and an expression ends only where the
count is zero.
-/

namespace EntityAudit.Query

variable {c c' : Cursor} {p : Progress}

/-- Whether a token may stand anywhere, as far as brackets go. -/
def Token.isPlain (t : Token) : Bool :=
  match t.kind with
  | .openCurly | .closeCurly | .unknown => false
  | _ => true

/-- Words divided by commas. -/
inductive IsFieldList : List Token → Prop where
  | last {field} (word : field.kind = .identifier) : IsFieldList [field]
  | more {field comma rest} (word : field.kind = .identifier) (divides : comma.kind = .comma)
      (others : IsFieldList rest) :
      IsFieldList (field :: comma :: rest)

/-- A single token other than a curly bracket, or a partial object: the word `PARTIAL`, a word, a
    point and a list of words in curly brackets. -/
inductive IsPhrase : List Token → Prop where
  | token {t} (plain : t.isPlain = true) : IsPhrase [t]
  | partialObject {word name dot opening closing fields} (isPartial : word.isWord "PARTIAL" = true)
      (isName : name.kind = .identifier) (isDot : dot.kind = .dot)
      (opens : opening.kind = .openCurly) (listed : IsFieldList fields)
      (closes : closing.kind = .closeCurly) :
      IsPhrase (word :: name :: dot :: opening :: (fields ++ [closing]))

def ArePhrases (tokens : List Token) : Prop :=
  ∃ phrases : List (List Token), tokens = phrases.flatten ∧ ∀ phrase ∈ phrases, IsPhrase phrase

theorem ArePhrases.nil : ArePhrases [] :=
  ⟨[], rfl, by simp⟩

theorem ArePhrases.append {first second} (here : ArePhrases first) (later : ArePhrases second) :
    ArePhrases (first ++ second) := by
  obtain ⟨phrases, rfl, all⟩ := here
  obtain ⟨phrases', rfl, all'⟩ := later
  refine ⟨phrases ++ phrases', List.flatten_append.symm, fun phrase inside => ?_⟩
  exact (List.mem_append.mp inside).elim (all phrase) (all' phrase)

theorem IsPhrase.arePhrases {phrase} (whole : IsPhrase phrase) : ArePhrases phrase :=
  ⟨[phrase], by simp, by simpa using whole⟩

theorem arePhrases_of_isPlain {tokens} (plain : ∀ t ∈ tokens, t.isPlain = true) :
    ArePhrases tokens := by
  induction tokens with
  | nil => exact .nil
  | cons t rest ih =>
    obtain ⟨first, others⟩ := List.forall_mem_cons.mp plain
    exact (IsPhrase.token first).arePhrases.append (ih others)

def partialKinds : List TokenKind :=
  [.identifier, .comma, .dot, .openCurly, .closeCurly]

theorem IsFieldList.kind_mem {fields} (listed : IsFieldList fields) :
    ∀ t ∈ fields, t.kind ∈ partialKinds := by
  induction listed with
  | last word => simp [word, partialKinds]
  | more word divides others ih => simpa [word, divides, partialKinds] using ih

theorem kind_mem_partialKinds {word name dot opening closing fields}
    (isPartial : word.isWord "PARTIAL" = true) (isName : name.kind = .identifier)
    (isDot : dot.kind = .dot) (opens : opening.kind = .openCurly) (listed : IsFieldList fields)
    (closes : closing.kind = .closeCurly) :
    ∀ t ∈ word :: name :: dot :: opening :: (fields ++ [closing]), t.kind ∈ partialKinds := by
  intro t inside
  simp only [List.mem_cons, List.mem_append, List.not_mem_nil, or_false] at inside
  rcases inside with rfl | rfl | rfl | rfl | among | rfl
  · simp [Token.kind_of_isWord isPartial, partialKinds]
  · simp [isName, partialKinds]
  · simp [isDot, partialKinds]
  · simp [opens, partialKinds]
  · exact listed.kind_mem t among
  · simp [closes, partialKinds]

theorem IsPhrase.no_unknown {phrase} (whole : IsPhrase phrase) :
    ∀ t ∈ phrase, t.kind ≠ .unknown := by
  cases whole with
  | token plain =>
    intro t inside same
    rw [List.mem_singleton.mp inside] at same
    simp [Token.isPlain, same] at plain
  | partialObject isPartial isName isDot opens listed closes =>
    intro t inside
    have known : ∀ kind ∈ partialKinds, kind ≠ .unknown := by decide
    exact known _ (kind_mem_partialKinds isPartial isName isDot opens listed closes t inside)

theorem ArePhrases.no_unknown {tokens} (phrases : ArePhrases tokens) :
    ∀ t ∈ tokens, t.kind ≠ .unknown := by
  obtain ⟨phrases, rfl, all⟩ := phrases
  intro t inside
  obtain ⟨phrase, among, member⟩ := List.mem_flatten.mp inside
  exact (all phrase among).no_unknown t member

/-- Reading from `c` to `c'` goes past whole phrases, and from the depth `d` to the depth `d'`. -/
def Cursor.Crosses (c c' : Cursor) (d d' : Nat) : Prop :=
  ∃ taken, c.rest = taken ++ c'.rest ∧ ArePhrases taken ∧
    depthAfter d (taken.filterMap Token.side?) = some d'

namespace Cursor.Crosses

variable {c₁ c₂ c₃ : Cursor} {d d' d'' : Nat}

theorem still (same : c₂.rest = c₁.rest) : c₁.Crosses c₂ d d :=
  ⟨[], same.symm, .nil, rfl⟩

theorem trans (first : c₁.Crosses c₂ d d') (second : c₂.Crosses c₃ d' d'') :
    c₁.Crosses c₃ d d'' := by
  obtain ⟨taken, rest, phrases, depth⟩ := first
  obtain ⟨taken', rest', phrases', depth'⟩ := second
  refine ⟨taken ++ taken', by rw [rest, rest', List.append_assoc], phrases.append phrases', ?_⟩
  rw [List.filterMap_append]
  exact depthAfter_append depth depth'

theorem deeper (level : c₁.Crosses c₂ 0 0) (d : Nat) : c₁.Crosses c₂ d d := by
  obtain ⟨taken, rest, phrases, depth⟩ := level
  have raised := depthAfter_add d depth
  rw [Nat.zero_add] at raised
  exact ⟨taken, rest, phrases, raised⟩

end Cursor.Crosses

section Passing

variable {c c' : Cursor} {token : Token} {noted : List Mention}

theorem filterMap_singleton {α β : Type} (f : α → Option β) (a : α) :
    [a].filterMap f = (f a).toList := by
  cases found : f a with
  | none => rw [List.filterMap_cons_none found]; rfl
  | some b => rw [List.filterMap_cons_some found]; rfl

theorem Cursor.Passes.crosses {d d'} (passed : c.Passes c' [token] noted)
    (plain : token.isPlain = true) (depth : depthAfter d token.side?.toList = some d') :
    c.Crosses c' d d' :=
  ⟨[token], passed.rest, (IsPhrase.token plain).arePhrases, by rwa [filterMap_singleton]⟩

/-- A token that is no bracket of any sort. -/
def Token.IsMute (t : Token) : Prop :=
  t.isPlain = true ∧ t.side? = none

theorem Token.isMute_of_kind {t : Token} {kind} (same : t.kind = kind)
    (mute : Token.IsMute ⟨kind, "", 0⟩) : t.IsMute := by
  subst same
  exact mute

theorem Token.isMute_of_linkKinds {t : Token} (link : t.kind ∈ linkKinds) : t.IsMute := by
  have mute : ∀ kind ∈ linkKinds, Token.IsMute ⟨kind, "", 0⟩ := by
    simp [linkKinds, Token.IsMute, Token.isPlain, Token.side?, TokenKind.side?]
  exact Token.isMute_of_kind rfl (mute _ link)

theorem Cursor.Links.crosses (linked : c.Links c') (d : Nat) : c.Crosses c' d d := by
  obtain ⟨taken, rest, links⟩ := linked
  have all (t : Token) (inside : t ∈ taken) : t.IsMute :=
    Token.isMute_of_linkKinds (links t inside)
  refine ⟨taken, rest, arePhrases_of_isPlain fun t inside => (all t inside).1, ?_⟩
  rw [List.filterMap_eq_nil_iff.mpr fun t inside => (all t inside).2]
  rfl

end Passing

namespace Read

theorem partialFields_listed {aliasName names}
    (read : commaList (partialField aliasName) c = .ok names c') :
    ∃ taken, c.rest = taken ++ c'.rest ∧ IsFieldList taken := by
  have item {c c' : Cursor} {name : String} (read : partialField aliasName c = .ok name c') :
      ∃ field, c.rest = field :: c'.rest ∧ field.kind = .identifier := by
    simp only [partialField, bind_ok, pure_ok] at read
    obtain ⟨field, _, word, _, _, noted, rfl, rfl⟩ := read
    obtain ⟨passed, kind⟩ := expectIdentifier_ok word
    exact ⟨field, (passed.trans (note_passes noted)).rest, kind⟩
  refine commaList_induction
    (P := fun c _ c' => ∃ taken, c.rest = taken ++ c'.rest ∧ IsFieldList taken) ?_ ?_ read
  · intro c c' name only _
    obtain ⟨field, rest, kind⟩ := item only
    exact ⟨[field], rest, .last kind⟩
  · rintro c c₁ c₂ c' name tail comma first passed divides ⟨taken, later, listed⟩
    obtain ⟨field, rest, kind⟩ := item first
    exact ⟨field :: comma :: taken, by simp [rest, passed.rest, later], .more kind divides listed⟩

theorem partialObject_phrase {token rest piece} (here : c.rest = token :: rest)
    (isPartial : token.isWord "PARTIAL" = true)
    (read : partialObject ⟨rest, c.mentions⟩ = .ok piece c') :
    ∃ taken, c.rest = taken ++ c'.rest ∧ IsPhrase taken ∧ ∀ t ∈ taken, t.kind ∈ partialKinds := by
  simp only [partialObject, bind_ok, pure_ok, discard_ok] at read
  obtain ⟨name, c₁, first, _, c₂, noted, _, c₃, point, _, c₄, ⟨opening, opened⟩, names, c₅, listed,
    _, _, ⟨closing, closed⟩, rfl, rfl⟩ := read
  obtain ⟨passed, isName⟩ := expectIdentifier_ok first
  obtain ⟨dot, passed', isDot⟩ := expectDot_ok point
  obtain ⟨passed'', opens⟩ := expect_ok opened
  obtain ⟨fields, fieldRest, listed⟩ := partialFields_listed listed
  obtain ⟨ended, closes⟩ := expect_ok closed
  have start := (passed.trans ((note_passes noted).trans (passed'.trans passed''))).rest
  have whole : rest = name :: dot :: opening :: c₄.rest := start
  refine ⟨token :: name :: dot :: opening :: (fields ++ [closing]), ?_,
    .partialObject isPartial isName isDot (eq_of_beq opens) listed (eq_of_beq closes),
    kind_mem_partialKinds isPartial isName isDot (eq_of_beq opens) listed (eq_of_beq closes)⟩
  rw [here, whole, fieldRest, ended.rest]
  simp

/-- The expressions all have balanced parentheses among their own pieces. -/
def AreBalanced (expressions : List Expression) : Prop :=
  ∀ e ∈ expressions, IsBalanced Piece.side? e

theorem areBalanced_nil : AreBalanced [] :=
  fun _ inside => absurd inside List.not_mem_nil

theorem areBalanced_append {first second} :
    AreBalanced (first ++ second) ↔ AreBalanced first ∧ AreBalanced second :=
  List.forall_mem_append

/-- The count of open parentheses is that of the pieces so far, and the subselects among them are
    balanced. -/
structure Progress.Counts (p : Progress) : Prop where
  depth : depthAfter 0 (p.pieces.filterMap Piece.side?) = some p.depth
  nested : AreBalanced (nestedExpressions p.pieces)

theorem Progress.Counts.step {next : Progress} {piece} (counts : p.Counts)
    (pieces : next.pieces = p.pieces ++ [piece])
    (depth : depthAfter p.depth piece.side?.toList = some next.depth)
    (inner : AreBalanced (pieceExpressions piece)) : next.Counts where
  depth := by
    rw [pieces, List.filterMap_append, filterMap_singleton]
    exact depthAfter_append counts.depth depth
  nested := by
    rw [pieces, nestedExpressions_append, areBalanced_append]
    exact ⟨counts.nested, by simpa [nestedExpressions] using inner⟩

/-- A token that is taken is kept as a piece that is the same parenthesis, and the count follows. -/
theorem Progress.Takes.counts {next token following piece}
    (takes : p.Takes token following piece next) :
    token.isPlain = true ∧ depthAfter p.depth token.side?.toList = some next.depth ∧
      piece.side? = token.side? ∧ pieceExpressions piece = [] := by
  have mute (mute : token.IsMute) (quiet : piece.side? = none) (flat : pieceExpressions piece = [])
      (depth : next.depth = p.depth) :
      token.isPlain = true ∧ depthAfter p.depth token.side?.toList = some next.depth ∧
        piece.side? = token.side? ∧ pieceExpressions piece = [] := by
    rw [mute.2, depth]
    exact ⟨mute.1, rfl, quiet, flat⟩
  cases takes with
  | closing kind inside =>
    obtain ⟨outer, same⟩ := Nat.exists_eq_succ_of_ne_zero inside
    simp [Token.isPlain, Token.side?, kind, TokenKind.side?, depthAfter, same, Piece.side?,
      pieceExpressions]
  | opening kind =>
    simp [Token.isPlain, Token.side?, kind, TokenKind.side?, depthAfter, Piece.side?,
      pieceExpressions]
  | comma kind | operator kind | text kind | parameter kind =>
    exact mute (Token.isMute_of_kind kind ⟨rfl, rfl⟩) rfl rfl rfl
  | keyword isWord =>
    exact mute (Token.isMute_of_kind (Token.kind_of_isWord isWord) ⟨rfl, rfl⟩) rfl rfl rfl
  | number kind =>
    rcases kind with kind | kind <;>
      exact mute (Token.isMute_of_kind kind ⟨rfl, rfl⟩) rfl rfl rfl
  | className named | function named =>
    exact mute (Token.isMute_of_linkKinds (Token.link_of_isName named)) rfl rfl rfl

theorem depth_of_endsAt (ends : p.EndsAt c) : p.depth = 0 := by
  rcases ends with ⟨closed, -⟩ | ⟨token, rest, -, chosen⟩
  · exact closed
  · cases acts_of_action chosen
    assumption

variable {sub : Read Select}

/-- A reader of subselects, which must have balanced expressions at every depth. -/
def Balances (sub : Read Select) : Prop :=
  ∀ {c query c'}, sub c = .ok query c' → c.Crosses c' 0 0 ∧ AreBalanced (selectExpressions query)

theorem ScanStep.crosses {next} (subselects : Balances sub) (step : ScanStep sub p c next c')
    (counts : p.Counts) : c.Crosses c' p.depth next.depth ∧ next.Counts := by
  cases step with
  | take here chosen =>
    obtain ⟨piece, takes⟩ := takes_of_action chosen
    obtain ⟨plain, depth, same, flat⟩ := takes.counts
    refine ⟨(Cursor.Passes.token here).crosses plain depth, counts.step takes.pieces ?_ ?_⟩
    · rw [same]
      exact depth
    · rw [flat]
      exact areBalanced_nil
  | «variable» here chosen =>
    cases acts_of_action chosen with
    | «variable» named =>
      have link := Token.link_of_isName named
      exact ⟨((Cursor.Passes.noting here _).links link).crosses _,
        counts.step rfl rfl areBalanced_nil⟩
  | path here chosen read =>
    obtain ⟨_, _, _, _, -, rfl, -⟩ := path_ok read
    exact ⟨(links_of_ok read).crosses _, counts.step rfl rfl areBalanced_nil⟩
  | partialObject here chosen read =>
    cases acts_of_action chosen with
    | partialObject isPartial =>
      obtain ⟨taken, rest, phrase, kinds⟩ := partialObject_phrase here isPartial read
      have quiet : ∀ kind ∈ partialKinds, kind.side? = none := by decide
      have silent : taken.filterMap Token.side? = [] :=
        List.filterMap_eq_nil_iff.mpr fun t inside => quiet _ (kinds t inside)
      obtain ⟨_, _, _, -, -, rfl⟩ := partialObject_ok read
      exact ⟨⟨taken, rest, phrase.arePhrases, by rw [silent]; rfl⟩,
        counts.step rfl rfl areBalanced_nil⟩
  | @subselect token rest query middle closing _ here chosen read closed isClosing =>
    cases acts_of_action chosen with
    | subselect opening =>
      have opened : c.Crosses ⟨rest, c.mentions⟩ p.depth (p.depth + 1) :=
        (Cursor.Passes.token here).crosses (by simp [Token.isPlain, opening])
          (by rw [Token.side?, opening]; rfl)
      have ended : middle.Crosses c' (p.depth + 1) p.depth :=
        closed.crosses (by simp [Token.isPlain, isClosing]) (by rw [Token.side?, isClosing]; rfl)
      obtain ⟨crossed, balanced⟩ := subselects read
      exact ⟨opened.trans ((crossed.deeper _).trans ended), counts.step rfl rfl balanced⟩

theorem Scans.crosses {e} (subselects : Balances sub) (run : Scans sub p c e c')
    (counts : p.Counts) :
    c.Crosses c' p.depth 0 ∧ AreBalanced (e :: nestedExpressions e) := by
  induction run with
  | @stop p c ends nonempty =>
    have closed := depth_of_endsAt ends
    have balanced : IsBalanced Piece.side? p.pieces :=
      isBalanced_iff.mpr (closed ▸ counts.depth)
    rw [closed]
    exact ⟨.still rfl, List.forall_mem_cons.mpr ⟨balanced, counts.nested⟩⟩
  | step first rest ih =>
    obtain ⟨crossed, counted⟩ := first.crosses subselects counts
    obtain ⟨later, balanced⟩ := ih counted
    exact ⟨crossed.trans later, balanced⟩

theorem travels_crosses {parts} (subselects : Balances sub) (way : c.Travels sub parts c') :
    c.Crosses c' 0 0 ∧ AreBalanced (parts.flatMap Part.expressions) := by
  induction way with
  | names linked => exact ⟨linked.crosses 0, expressions_names _ ▸ areBalanced_nil⟩
  | expression run =>
    obtain ⟨crossed, balanced⟩ := run.crosses subselects ⟨rfl, areBalanced_nil⟩
    exact ⟨crossed, List.flatMap_singleton _ _ ▸ balanced⟩
  | trans _ _ first second =>
    rw [List.flatMap_append, areBalanced_append]
    exact ⟨first.1.trans second.1, first.2, second.2⟩

theorem statement_balanced {s} (read : statement c = .ok s c') :
    ArePhrases c.rest ∧ IsBalanced Token.side? c.rest ∧ AreBalanced s.expressions := by
  obtain ⟨⟨taken, rest, phrases, depth⟩, balanced⟩ := statement_travels
    (G := fun c parts c' => c.Crosses c' 0 0 ∧ AreBalanced (parts.flatMap Part.expressions))
    (fun _ _ subselects => travels_crosses fun read => selectExpressions_eq _ ▸ subselects read) read
  rw [(statement_ok read).1, List.append_nil] at rest
  rw [rest, s.expressions_eq]
  exact ⟨phrases, isBalanced_iff.mpr depth, balanced⟩

end Read

theorem parse_balanced {text g g' parsed} (accepted : parse text g = .ok parsed g') :
    ArePhrases (Token.scan text) ∧ IsBalanced Token.side? (Token.scan text) ∧
      Read.AreBalanced parsed.statement.expressions := by
  obtain ⟨outcome, -⟩ := parse_reads accepted
  exact Read.statement_balanced (Reading.outcome_ok outcome)

theorem countSide_opening (tokens : List Token) :
    countSide Token.side? .opening tokens = tokens.countP (·.kind == .openParen) := by
  refine List.countP_congr fun t _ => ?_
  cases kind : t.kind <;> simp [Token.side?, kind, TokenKind.side?]

theorem countSide_closing (tokens : List Token) :
    countSide Token.side? .closing tokens = tokens.countP (·.kind == .closeParen) := by
  refine List.countP_congr fun t _ => ?_
  cases kind : t.kind <;> simp [Token.side?, kind, TokenKind.side?]

/-- The text of a statement has nothing in it that the language has no use for, and its brackets
    match. -/
structure Statement.IsClean (s : Statement) (text : String) : Prop where
  /-- Every token has a meaning. -/
  known : ∀ t ∈ Token.scan text, t.kind ≠ .unknown
  /-- No beginning of the text closes more parentheses than it opens, -/
  beginnings : ∀ before, before <+: Token.scan text →
    before.countP (·.kind == .closeParen) ≤ before.countP (·.kind == .openParen)
  /-- and the whole closes all of them. -/
  whole : (Token.scan text).countP (·.kind == .openParen) =
    (Token.scan text).countP (·.kind == .closeParen)
  /-- Curly brackets stand in partial objects only. -/
  phrases : ArePhrases (Token.scan text)
  /-- The parentheses of every expression match, at every depth. -/
  expressions : ∀ e ∈ s.expressions, IsBalanced Piece.side? e

/-- A text that is accepted is clean, so one whose parentheses outside literals do not match is
    rejected. -/
theorem compile_clean (text : String) (g : Gateway) :
    (∀ compiled g', compile text g = .ok compiled g' →
      ∃ parsed, parse text g = .ok parsed g' ∧
        compiled = .ofStatement parsed.aliases parsed.statement ∧
        parsed.statement.IsClean text) ∧
    (¬ IsBalanced charSide? (unquoted text.toList) →
      ∃ rejection g', compile text g = .error rejection g') := by
  constructor
  · intro compiled g' accepted
    obtain ⟨parsed, found, same⟩ := compile_ok.mp accepted
    obtain ⟨phrases, ⟨beginnings, whole⟩, expressions⟩ := parse_balanced found
    simp only [countSide_opening, countSide_closing] at beginnings whole
    exact ⟨parsed, found, same, phrases.no_unknown, beginnings, whole, phrases, expressions⟩
  · intro unbalanced
    cases outcome : compile text g with
    | error rejection g' => exact ⟨rejection, g', rfl⟩
    | ok compiled g' =>
      obtain ⟨parsed, found, -⟩ := compile_ok.mp outcome
      obtain ⟨-, balanced, -⟩ := parse_balanced found
      exact absurd ((isBalanced_scan_iff text).mp balanced) unbalanced

/-- A partial object, a subselect and a literal with a parenthesis in it. A text that closes a
    parenthesis in a literal only is rejected. -/
theorem compile_clean_partial :
    let text := "SELECT PARTIAL u.\x7bid, name\x7d FROM User u " ++
      "WHERE (u.id IN (SELECT MAX((x.id)) FROM User x)) AND u.name <> ')'"
    let open_ := "SELECT u FROM User u WHERE (u.name <> ')' OR u.id = 1"
    let user : EntityRecord :=
      { className := "User", table := "users",
        fields := [{ name := "id", column := "id", columnType := "integer" },
          { name := "name", column := "name", columnType := "string" }] }
    let g : Gateway := .ofSource (Catalog.toSource { records := [("user", user)] })
    (∃ compiled g' parsed, compile text g = .ok compiled g' ∧ parse text g = .ok parsed g' ∧
      parsed.statement.IsClean text) ∧
    ∃ rejection g', compile open_ g = .error rejection g' := by
  intro text open_ user g
  have unbalanced : ¬ IsBalanced charSide? (unquoted open_.toList) := by decide +kernel
  have readable : succeeds (compile text) g (fun _ => true) = true := by decide +kernel
  refine ⟨?_, (compile_clean open_ g).2 unbalanced⟩
  obtain ⟨compiled, g', accepted, -⟩ := exists_of_succeeds readable
  obtain ⟨parsed, found, -, clean⟩ := (compile_clean text g).1 compiled g' accepted
  exact ⟨compiled, g', parsed, accepted, found, clean⟩

end EntityAudit.Query
