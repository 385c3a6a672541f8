import EntityAudit.Proofs.Query.Locality

/-! # Conditions with one phrase more

What becomes of a select statement when a phrase is joined to its condition by `AND`. The one thing
that is carried over is that a class name is awaited: `NEW` and `INSTANCE OF` call for one, and the
next name is taken for it, however far it is.
-/

namespace EntityAudit.Query

/-- Whether a class name is awaited after one piece more, and whether that piece is `INSTANCE`. -/
def Piece.awaits (before : Bool × Bool) : Piece → Bool × Bool
  | .className _ => (false, false)
  | .keyword word =>
    (before.1 || word == "NEW" || (word == "OF" && before.2), word == "INSTANCE")
  | _ => (before.1, false)

/-- Whether the next name after an expression would be read as that of a class: `NEW` and
    `INSTANCE OF` call for one, wherever it comes. -/
def awaitsClass (e : Expression) : Bool :=
  (e.foldl Piece.awaits (false, false)).1

namespace Read

/-- The flags of a progress are those of its pieces. -/
def Progress.Tracks (p : Progress) : Prop :=
  p.pieces.foldl Piece.awaits (false, false) = (p.classNext, p.endsIn "INSTANCE")

variable {p next : Progress} {sub : Read Select} {c c' d : Cursor} {e : Expression}

theorem Progress.Tracks.awaitsClass_eq (tracks : p.Tracks) :
    awaitsClass p.pieces = p.classNext := by
  rw [awaitsClass, tracks]

theorem Progress.Tracks.pushed {piece} (tracks : p.Tracks)
    (pieces : next.pieces = p.pieces ++ [piece])
    (flag : next.classNext = (piece.awaits (p.classNext, p.endsIn "INSTANCE")).1) :
    next.Tracks := by
  have last : next.endsIn "INSTANCE" = (piece.awaits (p.classNext, p.endsIn "INSTANCE")).2 := by
    rw [Progress.endsIn, pieces, List.getLast?_concat, Option.any_some]
    cases piece <;> rfl
  rw [Progress.Tracks, pieces, List.foldl_append, tracks, flag, last]
  rfl

theorem action_tracks {t following} (tracks : p.Tracks)
    (chosen : p.action t following = .take next) :
    next.Tracks := by
  obtain ⟨piece, takes⟩ := takes_of_action chosen
  refine tracks.pushed takes.pieces ?_
  cases takes <;> rfl

theorem ScanStep.tracks (tracks : p.Tracks) (step : ScanStep sub p c next d) : next.Tracks := by
  cases step with
  | take here chosen => exact action_tracks tracks chosen
  | «variable» here chosen => exact tracks.pushed rfl rfl
  | path here chosen read =>
    obtain ⟨_, _, _, _, -, rfl, -⟩ := path_ok read
    exact tracks.pushed rfl rfl
  | partialObject here chosen read =>
    obtain ⟨_, _, _, -, -, rfl⟩ := partialObject_ok read
    exact tracks.pushed rfl rfl
  | subselect here chosen read closed isClosing => exact tracks.pushed rfl rfl

/-- Reading an expression comes from the first place to the second one. -/
inductive Leads (sub : Read Select) : Progress → Cursor → Progress → Cursor → Prop
  | refl (p : Progress) (c : Cursor) : Leads sub p c p c
  | step {p q next c d middle} (first : ScanStep sub p c next middle)
      (rest : Leads sub next middle q d) : Leads sub p c q d

namespace Leads

variable {q r : Progress} {c₁ c₂ c₃ : Cursor}

theorem trans (first : Leads sub p c₁ q c₂) (second : Leads sub q c₂ r c₃) :
    Leads sub p c₁ r c₃ := by
  induction first with
  | refl => exact second
  | step here _ ih => exact .step here (ih second)

theorem single (step : ScanStep sub p c₁ q c₂) : Leads sub p c₁ q c₂ :=
  .step step (.refl q c₂)

variable (leads : Leads sub p c₁ q c₂)

include leads

theorem scans (run : Scans sub q c₂ e c₃) : Scans sub p c₁ e c₃ := by
  induction leads with
  | refl => exact run
  | step here _ ih => exact .step here (ih run)

theorem past (run : Scans sub p c₁ e c₃) : Scans sub q c₂ e c₃ := by
  induction leads with
  | refl => exact run
  | step here _ ih => exact ih (run.past here)

theorem tracks (known : p.Tracks) : q.Tracks := by
  induction leads with
  | refl => exact known
  | step here _ ih => exact ih (here.tracks known)

end Leads

/-- Up to a quiet seam an expression is read in the other text as well, where it may go on. -/
theorem Scans.leads [MimicsSelects sub] {k : Seam} [k.Quiet] (holds : k.Holds c c')
    (run : Scans sub p c e d) (inside : k.after.length ≤ d.rest.length) :
    ∃ last d', last.pieces = e ∧ last.depth = 0 ∧ k.Holds d d' ∧ Leads sub p c' last d' := by
  induction run generalizing c' with
  | @stop p c stops nonempty => exact ⟨p, c', rfl, depth_of_endsAt stops, holds, .refl p c'⟩
  | step first rest ih =>
    have later := rest.onward.length_le
    obtain ⟨middle', first', holds⟩ := first.mimics holds (by omega)
    obtain ⟨last, d', pieces, depth, holds, leads⟩ := ih holds inside
    exact ⟨last, d', pieces, depth, holds, .step first' leads⟩

/-- The progress when `before` was read first. -/
def Progress.after (p : Progress) (before : Expression) : Progress :=
  { p with pieces := before ++ p.pieces }

/-- The same action when `before` was read first. -/
def Action.after (before : Expression) : Action → Action
  | .take next => .take (next.after before)
  | action => action

/-- Pieces that end in `AND`, so that what follows is read as if they were not there. -/
def EndsInAnd (before : Expression) : Prop :=
  ∃ e, before = e ++ [.keyword "AND"]

section After

variable {before : Expression} (joined : EndsInAnd before)
include joined

theorem endsIn_after : (p.after before).endsIn "INSTANCE" = p.endsIn "INSTANCE" := by
  obtain ⟨e, rfl⟩ := joined
  unfold Progress.endsIn Progress.after
  cases pieces : p.pieces.getLast? with
  | none => simp [List.getLast?_eq_none_iff.mp pieces, Piece.isWord]
  | some piece => rw [List.getLast?_append, pieces, Option.some_or]

theorem allowsCollection_after (e : Expression) :
    allowsCollection (before ++ e) = allowsCollection e := by
  obtain ⟨b, rfl⟩ := joined
  unfold allowsCollection
  rw [List.reverse_append, List.reverse_append]
  generalize e.reverse = backwards
  cases backwards with
  | nil => rfl
  | cons piece earlier =>
    cases piece with
    | keyword word => by_cases of : word = "OF" <;> simp [of]
    | opening =>
      cases earlier with
      | nil => rfl
      | cons other _ => cases other <;> rfl
    | _ => rfl

theorem path_after (e : Expression) : path (before ++ e) = path e := by
  unfold path
  simp only [allowsCollection_after joined]

theorem action_after (t : Token) (following : Option Token) :
    (p.after before).action t following = (p.action t following).after before := by
  have push (piece : Piece) (operand : Bool) :
      (p.after before).push piece operand = (p.push piece operand).after before := by
    simp [Progress.push, Progress.after]
  have ends := endsIn_after (p := p) joined
  have depth : (p.after before).depth = p.depth := rfl
  have operand : (p.after before).afterOperand = p.afterOperand := rfl
  have flag : (p.after before).classNext = p.classNext := rfl
  simp only [Progress.action, Progress.onKeyword, Progress.onName, Progress.onLiteral,
    Progress.ending, push, ends, depth, operand, flag]
  repeat' split
  all_goals rfl

theorem ScanStep.after (step : ScanStep sub p c next d) :
    ScanStep sub (p.after before) c (next.after before) d := by
  have pushed (piece : Piece) :
      (p.push piece true).after before = (p.after before).push piece true := by
    simp [Progress.push, Progress.after]
  have acts {t : Token} {rest : List Token} {action : Action}
      (chosen : p.action t rest.head? = action) :
      (p.after before).action t rest.head? = action.after before := by
    rw [action_after joined, chosen]
  cases step with
  | take here chosen => exact .take here (acts chosen)
  | «variable» here chosen => exact pushed _ ▸ .variable here (acts chosen)
  | path here chosen read =>
    exact pushed _ ▸ .path here (acts chosen) ((path_after joined p.pieces).symm ▸ read)
  | partialObject here chosen read => exact pushed _ ▸ .partialObject here (acts chosen) read
  | subselect here chosen read closed isClosing =>
    exact pushed _ ▸ .subselect here (acts chosen) read closed isClosing

theorem Scans.after (run : Scans sub p c e d) : Scans sub (p.after before) c (before ++ e) d := by
  induction run with
  | @stop p c stops nonempty =>
    refine .stop (p := p.after before) ?_ ?_
    · rcases stops with ended | ⟨t, rest, here, chosen⟩
      · exact .inl ended
      · exact .inr ⟨t, rest, here, by rw [action_after joined, chosen]; rfl⟩
    · exact fun empty => nonempty (List.append_eq_nil_iff.mp empty).2
  | step first _ ih => exact .step (first.after joined) ih

end After

/-- Words of an expression that are neither operands nor the start or the end of anything. -/
def joiningWords : List String :=
  ["AND", "MEMBER", "OF", "INSTANCE", "NEW"]

theorem action_joining {t following word} (is : t.isWord word = true)
    (joining : word ∈ joiningWords) :
    p.action t following = .take { p.push (.keyword word) false with
      classNext := p.classNext || word == "NEW" || (word == "OF" && p.endsIn "INSTANCE") } := by
  simp only [Token.isWord, Bool.and_eq_true, beq_iff_eq] at is
  have plain : ∀ word ∈ joiningWords, reservedWords.contains word = true ∧
      clauseWords.contains word = false ∧ ["AS", "ASC", "DESC", "HIDDEN"].contains word = false ∧
      word ≠ "PARTIAL" ∧ ["NULL", "TRUE", "FALSE", "END", "EMPTY"].contains word = false := by
    decide
  obtain ⟨reserved, clause, ending, other, operand⟩ := plain word joining
  simp only [Progress.action, is, isReserved, reserved, if_true, Progress.onKeyword, clause, ending,
    other, operand, Bool.false_eq_true, if_false]

/-- A phrase after which no class name is awaited may be followed by `AND` and any condition. -/
theorem Scans.joined {last middle t rest} (leads : Leads sub {} c last middle)
    (depth : last.depth = 0) (free : awaitsClass last.pieces = false)
    (here : middle.rest = t :: rest) (isAnd : t.isWord "AND" = true)
    (run : Scans sub {} ⟨rest, middle.mentions⟩ e d) :
    Scans sub {} c (last.pieces ++ .keyword "AND" :: e) d := by
  have joined : EndsInAnd (last.pieces ++ [.keyword "AND"]) := ⟨_, rfl⟩
  have shifted := run.after joined
  have flag : last.classNext = false := (leads.tracks rfl).awaitsClass_eq.symm.trans free
  have start : ({} : Progress).after (last.pieces ++ [.keyword "AND"]) =
      { last.push (.keyword "AND") false with classNext := false } := by
    simp [Progress.after, Progress.push, depth]
  rw [List.append_assoc, List.singleton_append, start] at shifted
  refine leads.scans (.step (.take here ?_) shifted)
  rw [action_joining isAnd (by decide), flag]
  rfl

/-- The tokens are read as `pieces` wherever an expression starts with them and what follows is
    quiet, and mention `uses`. -/
structure ReadsAs (sub : Read Select) (phrase : List Token) (pieces : Expression)
    (uses : List Mention) : Prop where
  nonempty : pieces ≠ []
  leads : ∀ (rest : List Token) (ms : List Mention), rest.head?.all Token.isQuiet = true →
    ∃ last : Progress, last.pieces = pieces ∧ last.depth = 0 ∧
      Leads sub {} ⟨phrase ++ rest, ms⟩ last ⟨rest, ms ++ uses⟩

theorem ReadsAs.scans {phrase rest pieces uses} (reads : ReadsAs sub phrase pieces uses)
    (divides : rest.head?.all Token.isDivider = true) (ms : List Mention) :
    Scans sub {} ⟨phrase ++ rest, ms⟩ pieces ⟨rest, ms ++ uses⟩ := by
  have quiet : rest.head?.all Token.isQuiet = true := by
    cases rest with
    | nil => rfl
    | cons t _ => exact Token.isQuiet_of_isDivider divides
  obtain ⟨last, rfl, depth, leads⟩ := reads.leads rest ms quiet
  refine leads.scans (.stop ?_ reads.nonempty)
  cases rest with
  | nil => exact .inl ⟨depth, rfl⟩
  | cons t _ => exact .inr ⟨t, _, rfl, action_stop_of_isDivider depth divides⟩

theorem divides_of_afterFilter {start filter q} (read : afterFilter sub start filter c = .ok q d)
    (ended : d.rest = []) : c.rest.head?.all Token.isDivider = true := by
  have starts {t : Token} {taken : List Token} {middle : Cursor} {word : String}
      (passed : c.Passes middle (t :: taken) []) (is : t.isWord word = true)
      (clause : word ∈ clauseWords) : c.rest.head?.all Token.isDivider = true := by
    rw [passed.rest]
    exact Token.isDivider_of_isWord is clause
  simp only [afterFilter, bind_ok, pure_ok] at read
  obtain ⟨groups, _, grouped, limit, _, limited, orders, _, ordered, -, rfl⟩ := read
  rcases byClause_ok grouped with ⟨_, _, _, passed, word, -⟩ | ⟨-, rfl⟩
  · exact starts passed word (by decide)
  rcases optionally_ok limited with ⟨_, _, _, passed, word, -⟩ | ⟨-, rfl⟩
  · exact starts passed word (by decide)
  rcases byClause_ok ordered with ⟨_, _, _, passed, word, -⟩ | ⟨-, rfl⟩
  · exact starts passed word (by decide)
  rw [ended]
  rfl

theorem afterFilter_ok {start filter q} (read : afterFilter sub start filter c = .ok q d)
    (filter' : Option Expression) :
    afterFilter sub start filter' c = .ok { q with filter := filter' } d := by
  simp only [afterFilter, bind_ok, pure_ok] at read ⊢
  obtain ⟨groups, _, grouped, limit, _, limited, orders, _, ordered, rfl, rfl⟩ := read
  exact ⟨groups, _, grouped, limit, _, limited, orders, _, ordered, rfl, rfl⟩

theorem isQuiet_of_joining {t : Token} {word} (is : t.isWord word = true)
    (joining : word ∈ joiningWords) : t.isQuiet = true := by
  have other : ∀ word ∈ joiningWords, word ∉ ["SELECT", "IS", "NOT", "EMPTY"] := by decide
  have loud := other word joining
  simp only [Token.isWord, Bool.and_eq_true, beq_iff_eq] at is
  simp only [List.mem_cons, List.not_mem_nil, or_false, not_or] at loud
  simp [Token.isQuiet, Token.isWord, is.1, is.2, loud]

section Phrases

variable [MimicsSelects sub] {extra : Mention → Prop} {phrase : List Token} {and : Token}
  {pieces : Expression} {uses ms : List Mention} {middle grouped : Cursor}
  (run : Scans sub {} middle e grouped) (reads : ReadsAs sub phrase pieces uses)
  (isAnd : and.isWord "AND" = true) (sound : ∀ use ∈ uses, extra use)
  (widened : Mention.Widened extra middle.mentions ms)
include run reads isAnd sound widened

theorem scans_phrase_first {rest'} (free : awaitsClass pieces = false)
    (same : List.Forall₂ Token.Same middle.rest rest') :
    ∃ grouped', Scans sub {} ⟨phrase ++ and :: rest', ms⟩ (pieces ++ .keyword "AND" :: e)
        grouped' ∧
      Seam.Holds ⟨[], [], extra⟩ grouped grouped' := by
  have both : Seam.Holds ⟨[], [], extra⟩ middle ⟨rest', ms ++ uses⟩ :=
    .toEnd same (widened.append sound)
  obtain ⟨grouped', run', holds⟩ := run.mimics both (Nat.zero_le _)
  obtain ⟨last, rfl, depth, leads⟩ :=
    reads.leads (and :: rest') ms (isQuiet_of_joining isAnd (by decide))
  exact ⟨grouped', Scans.joined leads depth free rfl isAnd run', holds⟩

theorem scans_phrase_last {condition condition' back'} (free : awaitsClass e = false)
    (divides : grouped.rest.head?.all Token.isDivider = true)
    (parts : middle.rest = condition ++ grouped.rest)
    (sameCondition : List.Forall₂ Token.Same condition condition')
    (sameBack : List.Forall₂ Token.Same grouped.rest back') :
    ∃ grouped', Scans sub {} ⟨condition' ++ and :: (phrase ++ back'), ms⟩
        (e ++ .keyword "AND" :: pieces) grouped' ∧
      Seam.Holds ⟨[], [], extra⟩ grouped grouped' := by
  let k : Seam := ⟨grouped.rest, and :: (phrase ++ back'), extra⟩
  have quiet : k.Quiet := by
    refine ⟨?_, isQuiet_of_joining isAnd (by decide)⟩
    cases back : grouped.rest with
    | nil => simp [k, back]
    | cons t _ =>
      rw [back] at divides
      simp only [k, back]
      exact Token.isQuiet_of_isDivider divides
  have starts : k.Holds middle ⟨condition' ++ and :: (phrase ++ back'), ms⟩ := by
    obtain ⟨rest, mentions⟩ := middle
    obtain rfl : rest = condition ++ grouped.rest := parts
    exact .intro sameCondition widened
  obtain ⟨last, grouped', rfl, depth, holds, leads⟩ := run.leads starts (Nat.le_refl _)
  obtain ⟨there, widened⟩ := holds.atSeam rfl
  have divides' := (Token.all_isDivider_eq (Token.rel_head_of_same sameBack)).symm.trans divides
  have phrased := reads.scans divides' grouped'.mentions
  exact ⟨_, Scans.joined leads depth free there isAnd phrased,
    .toEnd sameBack (widened.append sound)⟩

end Phrases

section Places

variable [MimicsSelects sub] {extra : Mention → Prop}
  {tokens front front' rest' : List Token} {word word' : Token} {start : SelectStart}
  {filtered middle : Cursor} (begun : beforeFilter sub ⟨tokens, []⟩ = .ok start filtered)
  (passed : filtered.Passes middle [word] []) (isWhere : word.isWord "WHERE" = true)
  (whole : tokens = front ++ filtered.rest) (sameFront : List.Forall₂ Token.Same front front')
  (sameWord : word.Same word')
include begun passed isWhere whole sameFront sameWord

theorem reaches_condition (extra : Mention → Prop) :
    ∃ filtered', beforeFilter sub ⟨front' ++ word' :: rest', []⟩ = .ok start filtered' ∧
      eatWord "WHERE" filtered' = .ok true ⟨rest', filtered'.mentions⟩ ∧
      Mention.Widened extra middle.mentions filtered'.mentions := by
  let k : Seam := ⟨filtered.rest, word' :: rest', extra⟩
  have here : filtered.rest = word :: middle.rest := passed.rest
  have divides : k.Divides := by
    refine ⟨?_, ?_⟩
    · simp only [k, here, List.head?_cons]
      exact .some sameWord
    · simp only [k, here, List.head?_cons, Option.all_some]
      exact Token.isDivider_of_isWord isWhere (by decide)
  have starts : k.Holds ⟨tokens, []⟩ ⟨front' ++ word' :: rest', []⟩ := by
    rw [whole]
    exact .intro sameFront .nil
  obtain ⟨filtered', begun', holds⟩ := mimics_ok starts begun (Nat.le_refl _)
  obtain ⟨there, widened⟩ := holds.atSeam rfl
  have quiet : middle.mentions = filtered.mentions := passed.mentions.trans (List.append_nil _)
  have isWhere' := (sameWord.isWord_eq "WHERE").symm.trans isWhere
  refine ⟨filtered', begun', ?_, quiet ▸ widened⟩
  rw [eatWord, bind_of_ok (eat?_passes isWhere' (.token there))]
  rfl

theorem replaces_condition {q e' grouped} (rest : afterFilter sub start (some e) grouped = .ok q d)
    (scans : ∀ ms, Mention.Widened extra middle.mentions ms →
      ∃ grouped', Scans sub {} ⟨rest', ms⟩ e' grouped' ∧
        Seam.Holds ⟨[], [], extra⟩ grouped grouped') :
    ∃ d', selectWith sub ⟨front' ++ word' :: rest', []⟩ = .ok { q with filter := some e' } d' ∧
      Seam.Holds ⟨[], [], extra⟩ d d' := by
  obtain ⟨filtered', begun', eaten, widened⟩ :=
    reaches_condition begun passed isWhere whole sameFront sameWord extra
  obtain ⟨grouped', run, holds⟩ := scans filtered'.mentions widened
  have filter : optionally "WHERE" (expression sub) filtered' = .ok (some e') grouped' := by
    rw [optionally, bind_of_ok eaten, if_pos rfl, bind_of_ok run.expression_ok]
    rfl
  obtain ⟨d', rest', holds⟩ := mimics_ok holds rest (Nat.zero_le _)
  refine ⟨d', ?_, holds⟩
  rw [selectWith_eq, bind_of_ok begun', bind_of_ok filter]
  exact afterFilter_ok rest' _

theorem scans_condition :
    (front' ++ word' :: rest').head?.any (·.isWord "SELECT") = true ∧
      ∀ q' d', selectWith sub ⟨front' ++ word' :: rest', []⟩ = .ok q' d' →
        ∃ ms e' grouped', Scans sub {} ⟨rest', ms⟩ e' grouped' := by
  obtain ⟨filtered', begun', eaten, -⟩ :=
    reaches_condition begun passed isWhere whole sameFront sameWord fun _ => True
  obtain ⟨_, _, first, -⟩ := bind_ok.mp begun'
  refine ⟨sees_of_expectWord first, fun q' d' read => ?_⟩
  rw [selectWith_eq, bind_of_ok begun'] at read
  obtain ⟨_, grouped', filter, -⟩ := bind_ok.mp read
  rw [optionally, bind_of_ok eaten, if_pos rfl] at filter
  obtain ⟨e', _, found, -⟩ := bind_ok.mp filter
  exact ⟨filtered'.mentions, e', _, expression_scans found⟩

end Places

/-- The condition after `WHERE` has a place before it and one after it, where a phrase can be joined
    to it by `AND`, as long as what comes first leaves no class name awaited. -/
theorem exists_condition_place [MimicsSelects sub] {tokens q}
    (read : selectWith sub ⟨tokens, []⟩ = .ok q d) (ended : d.rest = [])
    (filter : q.filter = some e) :
    ∃ front condition back, tokens = front ++ (condition ++ back) ∧
      front.getLast?.any (·.isWord "WHERE") = true ∧ back.head?.all Token.isDivider = true ∧
      ∀ {extra : Mention → Prop} {front' condition' back' phrase : List Token} {and : Token}
        {pieces : Expression} {uses : List Mention}, List.Forall₂ Token.Same front front' →
        List.Forall₂ Token.Same condition condition' → List.Forall₂ Token.Same back back' →
        and.isWord "AND" = true → ReadsAs sub phrase pieces uses → (∀ use ∈ uses, extra use) →
        (awaitsClass pieces = false →
          ∃ d', selectWith sub ⟨front' ++ (phrase ++ and :: (condition' ++ back')), []⟩ =
              .ok { q with filter := some (pieces ++ .keyword "AND" :: e) } d' ∧
            Seam.Holds ⟨[], [], extra⟩ d d') ∧
        (awaitsClass e = false →
          ∃ d', selectWith sub ⟨front' ++ (condition' ++ and :: (phrase ++ back')), []⟩ =
              .ok { q with filter := some (e ++ .keyword "AND" :: pieces) } d' ∧
            Seam.Holds ⟨[], [], extra⟩ d d') ∧
        (front' ++ (phrase ++ and :: (condition' ++ back'))).head?.any (·.isWord "SELECT") = true ∧
        ∀ q' d',
          selectWith sub ⟨front' ++ (phrase ++ and :: (condition' ++ back')), []⟩ = .ok q' d' →
          ∃ ms e' grouped',
            Scans sub {} ⟨phrase ++ and :: (condition' ++ back'), ms⟩ e' grouped' := by
  rw [selectWith_eq] at read
  obtain ⟨start, filtered, begun, read⟩ := bind_ok.mp read
  obtain ⟨found, grouped, clause, rest⟩ := bind_ok.mp read
  obtain rfl : found = some e := by
    simp only [afterFilter, bind_ok, pure_ok] at rest
    obtain ⟨_, _, -, _, _, -, _, _, -, rfl, -⟩ := rest
    exact filter
  obtain ⟨word, middle, _, passed, isWhere, inner, same⟩ | ⟨no, -⟩ := optionally_ok clause
  swap
  · cases no
  obtain rfl := Option.some.inj same
  have run := expression_scans inner
  have divides := divides_of_afterFilter rest ended
  obtain ⟨front, whole⟩ := onward_of_ok begun
  obtain ⟨condition, parts⟩ := run.onward
  have here : filtered.rest = word :: middle.rest := passed.rest
  refine ⟨front ++ [word], condition, grouped.rest, ?_, by simpa using isWhere, divides, ?_⟩
  · rw [parts, List.append_assoc, List.singleton_append, ← here, whole]
  intro extra frontAll condition' back' phrase and pieces uses sameStart sameCondition sameBack isAnd
    reads sound
  obtain ⟨front', _, rfl, sameFront, sameWord⟩ := exists_append_of_forall₂ sameStart
  cases sameWord with
  | @cons _ word' _ _ sameWord none =>
    cases none
    have same : List.Forall₂ Token.Same middle.rest (condition' ++ back') :=
      parts ▸ List.rel_append sameCondition sameBack
    have joined (later : List Token) : front' ++ [word'] ++ later = front' ++ word' :: later := by
      simp
    rw [joined, joined]
    refine ⟨fun free => ?_, fun free => ?_, ?_⟩
    · exact replaces_condition begun passed isWhere whole.symm sameFront sameWord rest
        fun ms widened => scans_phrase_first run reads isAnd sound widened free same
    · exact replaces_condition begun passed isWhere whole.symm sameFront sameWord rest
        fun ms widened => scans_phrase_last run reads isAnd sound widened free divides parts.symm
          sameCondition sameBack
    · exact scans_condition begun passed isWhere whole.symm sameFront sameWord

end Read

end EntityAudit.Query
