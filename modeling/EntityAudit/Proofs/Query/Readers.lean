import EntityAudit.Proofs.Query.Onward

/-! # What readers do

For each reader, what follows from its success. Proofs about reading use these lemmas and never
unfold a reader.
-/

namespace EntityAudit.Query

namespace Read

variable {α : Type} {sub : Read Select} {c c' : Cursor}

theorem optionally_ok {word item} {found : Option α}
    (read : optionally word item c = .ok found c') :
    (∃ token middle a, c.Passes middle [token] [] ∧ token.isWord word ∧ item middle = .ok a c' ∧
        found = some a) ∨
      (found = none ∧ c = c') := by
  obtain ⟨seen, middle, eaten, read⟩ := bind_ok.mp read
  rcases eatWord_ok eaten with ⟨rfl, token, passed, approved⟩ | ⟨rfl, rfl⟩
  · obtain ⟨a, _, inner, read⟩ := bind_ok.mp read
    obtain ⟨rfl, rfl⟩ := pure_ok.mp read
    exact .inl ⟨token, middle, a, passed, approved, inner, rfl⟩
  · obtain ⟨rfl, rfl⟩ := pure_ok.mp read
    exact .inr ⟨rfl, rfl⟩

theorem noted_ok {accept what name} {mention : Token → Mention}
    (read : (do
      let token ← expect accept what
      note (mention token)
      return token.value) c = .ok name c') :
    ∃ token, c.Passes c' [token] [mention token] ∧ accept token ∧ token.value = name := by
  simp only [bind_ok, pure_ok] at read
  obtain ⟨token, _, taken, _, _, noted, rfl, rfl⟩ := read
  obtain ⟨passed, approved⟩ := expect_ok taken
  exact ⟨token, passed.trans (note_passes noted), approved, rfl⟩

theorem aliasName_ok {mention name} (read : aliasName mention c = .ok name c') :
    ∃ token, c.Passes c' [token] [mention token] ∧ token.isAlias ∧ token.value = name :=
  noted_ok read

theorem className_ok {name} (read : className c = .ok name c') :
    ∃ token, c.Passes c' [token] [.className token] ∧ token.isName ∧ token.value = name :=
  noted_ok read

theorem simplePath_ok {path} (read : simplePath c = .ok path c') :
    ∃ aliasName dot field : Token,
      c.Passes c' [aliasName, dot, field] [.path aliasName field false] ∧
      aliasName.kind = .identifier ∧ dot.kind = .dot ∧ field.kind = .identifier ∧
      path = ⟨aliasName.value, field.value⟩ := by
  simp only [simplePath, bind_ok, pure_ok] at read
  obtain ⟨aliasName, _, first, _, _, second, field, _, third, _, _, noted, rfl, rfl⟩ := read
  obtain ⟨start, word⟩ := expectIdentifier_ok first
  obtain ⟨dot, middle, point⟩ := expectDot_ok second
  obtain ⟨last, word'⟩ := expectIdentifier_ok third
  exact ⟨aliasName, dot, field, start.trans (middle.trans (last.trans (note_passes noted))), word,
    point, word', rfl⟩

theorem indexBy_ok {index} (read : indexBy c = .ok index c') :
    (∃ first second middle path, c.Passes middle [first, second] [] ∧ first.isWord "INDEX" ∧
        second.isWord "BY" ∧ simplePath middle = .ok path c' ∧ index = some path) ∨
      (index = none ∧ c = c') := by
  rcases optionally_ok read with ⟨first, middle, path, passed, word, inner, rfl⟩ | ⟨rfl, rfl⟩
  · obtain ⟨_, middle', by_, inner⟩ := bind_ok.mp inner
    obtain ⟨second, passed', word'⟩ := expectWord_ok by_
    exact .inl ⟨first, second, middle', path, passed.trans passed', word, word', inner, rfl⟩
  · exact .inr ⟨rfl, rfl⟩

/-- The tokens start with `IS EMPTY` or with `IS NOT EMPTY`. -/
def TestsEmptiness (tokens : List Token) : Prop :=
  (∃ is empty rest, tokens = is :: empty :: rest ∧ is.isWord "IS" ∧ empty.isWord "EMPTY") ∨
    ∃ is not empty rest, tokens = is :: not :: empty :: rest ∧ is.isWord "IS" ∧
      not.isWord "NOT" ∧ empty.isWord "EMPTY"

theorem seesEmptinessTest_ok {seen} (read : seesEmptinessTest c = .ok seen c') :
    c = c' ∧ (seen = true → TestsEmptiness c.rest) := by
  simp only [seesEmptinessTest, bind_ok, peekAt_ok, sees_ok, pure_ok] at read
  obtain ⟨_, _, ⟨rfl, rfl⟩, _, _, ⟨rfl, rfl⟩, _, _, ⟨rfl, rfl⟩, rfl, rfl⟩ := read
  refine ⟨rfl, fun found => ?_⟩
  match remaining : c.rest with
  | [] => simp [remaining] at found
  | [_] => simp [remaining] at found
  | [is, empty] =>
    simp only [remaining, List.head?_cons, Option.any_some, List.getElem?_cons_succ,
      List.getElem?_cons_zero, List.getElem?_nil, Option.any_none, Bool.and_false, Bool.or_false,
      Bool.and_eq_true] at found
    exact .inl ⟨is, empty, [], rfl, found⟩
  | is :: second :: third :: rest =>
    simp only [remaining, List.head?_cons, Option.any_some, List.getElem?_cons_succ,
      List.getElem?_cons_zero, Bool.and_eq_true, Bool.or_eq_true] at found
    rcases found with ⟨first, empty | ⟨not, empty⟩⟩
    · exact .inl ⟨is, second, third :: rest, rfl, first, empty⟩
    · exact .inr ⟨is, second, third, rest, rfl, first, not, empty⟩

theorem path_ok {before piece} (read : path before c = .ok piece c') :
    ∃ (aliasName field : Token) (taken : List Token) (collection : Bool),
      c.Passes c' (aliasName :: taken) [.path aliasName field collection] ∧
      piece = .path ⟨aliasName.value, field.value⟩ ∧
      (collection = true → allowsCollection before = true ∨ TestsEmptiness c'.rest) := by
  obtain ⟨aliasName, _, first, read⟩ := bind_ok.mp read
  obtain ⟨parts, middle, following, read⟩ := bind_ok.mp read
  obtain ⟨taken, passed⟩ := skips_of_ok following
  cases reversed : parts.reverse with
  | nil =>
    simp only [reversed, failExpected_ok] at read
  | cons last earlier =>
    simp only [reversed] at read
    obtain ⟨seen, _, look, read⟩ := bind_ok.mp read
    obtain ⟨rfl, test⟩ := seesEmptinessTest_ok look
    obtain ⟨_, _, noted, read⟩ := bind_ok.mp read
    obtain ⟨rfl, rfl⟩ := pure_ok.mp read
    have whole := (expectIdentifier_ok first).1.trans (passed.trans (note_passes noted))
    rw [List.append_nil] at whole
    cases note_ok.mp noted
    exact ⟨aliasName, _, taken, _, whole, rfl, fun found =>
      (Bool.or_eq_true_iff.mp found).imp_right test⟩

def partialField (aliasName : Token) : Read String := do
  let field ← expectIdentifier
  note (.path aliasName field false)
  return field.value

instance {aliasName} : Advances (partialField aliasName) := by
  unfold partialField; infer_instance

theorem partialFields_ok {aliasName names}
    (read : commaList (partialField aliasName) c = .ok names c') :
    ∃ fields taken : List Token,
      c.Passes c' taken (fields.map fun field => .path aliasName field false) ∧
      fields.Sublist taken ∧ names = fields.map (·.value) := by
  refine commaList_induction (P := fun c names c' => ∃ fields taken : List Token,
    c.Passes c' taken (fields.map fun field => .path aliasName field false) ∧
    fields.Sublist taken ∧ names = fields.map (·.value)) ?_ ?_ read
  · intro c c' name item _
    simp only [partialField, bind_ok, pure_ok] at item
    obtain ⟨field, _, word, _, _, noted, rfl, rfl⟩ := item
    have start := (expectIdentifier_ok word).1.trans (note_passes noted)
    exact ⟨[field], _, start, .refl _, rfl⟩
  · intro c c₁ c₂ c' name names comma item skipped _ later
    simp only [partialField, bind_ok, pure_ok] at item
    obtain ⟨field, _, word, _, _, noted, rfl, rfl⟩ := item
    obtain ⟨fields, taken, passed, within, rfl⟩ := later
    have start := (expectIdentifier_ok word).1.trans (note_passes noted)
    exact ⟨field :: fields, _, start.trans (skipped.trans passed),
      (within.cons comma).cons_cons _, rfl⟩

theorem partialObject_ok {piece} (read : partialObject c = .ok piece c') :
    ∃ (aliasName : Token) (fields taken : List Token),
      c.Passes c' taken
        (.variable aliasName :: fields.map fun field => .path aliasName field false) ∧
      (aliasName :: fields).Sublist taken ∧
      piece = .partialObject aliasName.value (fields.map (·.value)) := by
  simp only [partialObject, bind_ok, pure_ok, discard_ok] at read
  obtain ⟨aliasName, _, first, _, _, noted, _, _, point, _, _, ⟨_, opening⟩, names, _, listed, _, _,
    ⟨_, closing⟩, rfl, rfl⟩ := read
  obtain ⟨dot, second, -⟩ := expectDot_ok point
  obtain ⟨fields, taken, passed, within, rfl⟩ := partialFields_ok listed
  have whole := (expectIdentifier_ok first).1.trans ((note_passes noted).trans (second.trans
    ((expect_ok opening).1.trans (passed.trans (expect_ok closing).1))))
  rw [List.append_nil] at whole
  refine ⟨aliasName, fields, _, whole, ?_, rfl⟩
  exact (((within.trans (List.sublist_append_left _ _)).cons _).cons _).cons_cons _

theorem selectItem_ok {item} (read : selectItem sub c = .ok item c') :
    ∃ middle, expression sub c = .ok item.expr middle ∧
      ((∃ taken last name, middle.Passes last taken [] ∧
          aliasName .resultAlias last = .ok name c' ∧ item.aliasName = some name) ∨
        (item.aliasName = none ∧ middle = c')) := by
  obtain ⟨expr, middle, first, read⟩ := bind_ok.mp read
  obtain ⟨named, after, eaten, read⟩ := bind_ok.mp read
  cases named with
  | true =>
    simp only [if_true, Bool.true_or, bind_ok, pure_ok, discard_ok, peek_ok] at read
    obtain ⟨_, _, ⟨_, hidden⟩, _, _, ⟨-, rfl⟩, name, _, given, rfl, rfl⟩ := read
    obtain ⟨as, passed⟩ := skips_of_ok eaten
    obtain ⟨taken, passed'⟩ := skips_of_ok hidden
    exact ⟨middle, first, .inl ⟨as ++ taken, _, name, passed.trans passed', given, rfl⟩⟩
  | false =>
    obtain ⟨taken, passed⟩ := skips_of_ok eaten
    simp only [Bool.false_eq_true, if_false, Bool.false_or, bind_ok, peek_ok] at read
    obtain ⟨_, _, ⟨rfl, rfl⟩, read⟩ := read
    split at read
    next =>
      simp only [bind_ok, pure_ok] at read
      obtain ⟨name, _, given, rfl, rfl⟩ := read
      exact ⟨middle, first, .inl ⟨taken, _, name, passed, given, rfl⟩⟩
    next =>
      obtain ⟨rfl, rfl⟩ := pure_ok.mp read
      rcases eatWord_ok eaten with ⟨yes, -⟩ | ⟨-, rfl⟩
      · cases yes
      · exact ⟨middle, first, .inr ⟨rfl, rfl⟩⟩

theorem joinTarget_ok {target} (read : joinTarget c = .ok target c') :
    (∃ (parent dot field : Token) (next next' : Option Token),
        c.Passes c' [parent, dot, field] [.joinRoot parent next, .joinField field next'] ∧
        target = .association ⟨parent.value, field.value⟩) ∨
      ∃ name, className c = .ok name c' ∧ target = .entity name := by
  simp only [joinTarget, bind_ok, peek_ok, peekAt_ok] at read
  obtain ⟨_, _, ⟨rfl, rfl⟩, _, _, ⟨rfl, rfl⟩, read⟩ := read
  split at read
  next =>
    simp only [bind_ok, pure_ok, peek_ok] at read
    obtain ⟨parent, _, first, next, _, ⟨rfl, rfl⟩, _, _, noted, _, _, point, field, _, last, next',
      _, ⟨rfl, rfl⟩, _, _, noted', rfl, rfl⟩ := read
    obtain ⟨dot, passed, -⟩ := expectDot_ok point
    have root := (expectIdentifier_ok first).1.trans (note_passes noted)
    have field := (expectIdentifier_ok last).1.trans (note_passes noted')
    exact .inl ⟨parent, dot, _, _, _, root.trans (passed.trans field), rfl⟩
  next =>
    simp only [bind_ok, pure_ok] at read
    obtain ⟨name, _, given, rfl, rfl⟩ := read
    exact .inr ⟨name, given, rfl⟩

theorem byClause_ok {word item} {found : List α} (read : byClause word item c = .ok found c') :
    (∃ first second middle, c.Passes middle [first, second] [] ∧ first.isWord word ∧
        second.isWord "BY" ∧ commaList item middle = .ok found c') ∨
      (found = [] ∧ c = c') := by
  obtain ⟨seen, middle, eaten, read⟩ := bind_ok.mp read
  rcases eatWord_ok eaten with ⟨rfl, token, passed, approved⟩ | ⟨rfl, rfl⟩
  · obtain ⟨_, _, by_, read⟩ := bind_ok.mp read
    obtain ⟨second, passed', approved'⟩ := expectWord_ok by_
    exact .inl ⟨token, second, _, passed.trans passed', approved, approved', read⟩
  · obtain ⟨rfl, rfl⟩ := pure_ok.mp read
    exact .inr ⟨rfl, rfl⟩

theorem update_ok {found} (read : update c = .ok found c') :
    ∃ start ended assigned filtered range assignments filter first second,
      c.Passes start [first] [] ∧ bareRange start = .ok range ended ∧
      ended.Passes assigned [second] [] ∧ commaList assignment assigned = .ok assignments filtered ∧
      optionally "WHERE" (expression select) filtered = .ok filter c' ∧
      found = .update range assignments filter := by
  simp only [update, bind_ok, pure_ok] at read
  obtain ⟨_, start, word, range, ended, ranged, _, assigned, set, assignments, filtered, listed,
    filter, _, last, rfl, rfl⟩ := read
  obtain ⟨first, passed, -⟩ := expectWord_ok word
  obtain ⟨second, passed', -⟩ := expectWord_ok set
  exact ⟨start, ended, assigned, filtered, range, assignments, filter, first, second, passed,
    ranged, passed', listed, last, rfl⟩

theorem delete_ok {found} (read : delete c = .ok found c') :
    ∃ start filtered range filter taken, c.Passes start taken [] ∧
      bareRange start = .ok range filtered ∧
      optionally "WHERE" (expression select) filtered = .ok filter c' ∧
      found = .delete range filter := by
  simp only [delete, bind_ok, discard_ok, pure_ok] at read
  obtain ⟨_, _, word, _, start, ⟨_, from_⟩, range, filtered, ranged, filter, _, last, rfl, rfl⟩ :=
    read
  obtain ⟨first, passed, -⟩ := expectWord_ok word
  obtain ⟨taken, passed'⟩ := skips_of_ok from_
  exact ⟨start, filtered, range, filter, _, passed.trans passed', ranged, last, rfl⟩

theorem ended_ok {known found}
    (read : (do
      if (← peek).isSome then
        failExpected .endOfText
      return known : Read Statement) c = .ok found c') : c.rest = [] ∧ known = found ∧ c = c' := by
  simp only [bind_ok, peek_ok] at read
  obtain ⟨_, _, ⟨rfl, rfl⟩, read⟩ := read
  split at read
  next => simp only [bind_ok, failExpected_ok, false_and, exists_false] at read
  next ended => exact ⟨by simpa using ended, pure_ok.mp read⟩

theorem statement_ok {found} (read : statement c = .ok found c') :
    c'.rest = [] ∧
      ((∃ query, select c = .ok query c' ∧ found = .select query) ∨ update c = .ok found c' ∨
        delete c = .ok found c') := by
  simp only [statement, bind_ok, sees_ok] at read
  obtain ⟨_, _, ⟨rfl, rfl⟩, _, _, ⟨rfl, rfl⟩, _, _, ⟨rfl, rfl⟩, read⟩ := read
  split at read
  next =>
    obtain ⟨_, _, inner, read⟩ := bind_ok.mp read
    obtain ⟨query, selected, rfl⟩ := map_ok.mp inner
    obtain ⟨ended, rfl, rfl⟩ := ended_ok read
    exact ⟨ended, .inl ⟨query, selected, rfl⟩⟩
  next =>
    split at read
    next =>
      obtain ⟨_, _, inner, read⟩ := bind_ok.mp read
      obtain ⟨ended, rfl, rfl⟩ := ended_ok read
      exact ⟨ended, .inr (.inl inner)⟩
    next =>
      split at read
      next =>
        obtain ⟨_, _, inner, read⟩ := bind_ok.mp read
        obtain ⟨ended, rfl, rfl⟩ := ended_ok read
        exact ⟨ended, .inr (.inr inner)⟩
      next => simp only [bind_ok, failExpected_ok, false_and, exists_false] at read

end Read

end EntityAudit.Query
