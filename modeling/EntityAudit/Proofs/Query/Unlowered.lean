import EntityAudit.Proofs.Query.Phrases
import EntityAudit.Proofs.Query.Widening

/-! # Statements without a relational form

A statement with a partial object in the select list, or a membership or class test in the
condition, stays accepted as long as its names have a meaning, and has no SQL. An instantiation in
the select list is always rejected. So are class tests that leave a class name awaited, in front of
a path, and class tests against lists of classes.
-/

namespace EntityAudit.Query

open Read

/-- The pieces have no relational form, wherever they stand. -/
def IsUnlowered (e : Expression) : Prop :=
  ∀ afterInstance, relationalFrom afterInstance e = false

theorem IsUnlowered.append_left {e} (unlowered : IsUnlowered e) (before : Expression) :
    IsUnlowered (before ++ e) := by
  induction before with
  | nil => exact unlowered
  | cons piece before ih =>
    intro afterInstance
    rw [List.cons_append, relationalFrom, ih, Bool.and_false]

theorem relationalFrom_append_of_false {afterInstance e}
    (none : relationalFrom afterInstance e = false) (after : Expression) :
    relationalFrom afterInstance (e ++ after) = false := by
  induction e generalizing afterInstance with
  | nil => cases none
  | cons piece e ih =>
    rw [relationalFrom, Bool.and_eq_false_iff] at none
    rw [List.cons_append, relationalFrom, Bool.and_eq_false_iff]
    exact none.imp_right ih

theorem IsUnlowered.append_right {e} (unlowered : IsUnlowered e) (after : Expression) :
    IsUnlowered (e ++ after) :=
  fun afterInstance => relationalFrom_append_of_false (unlowered afterInstance) after

theorem IsTest.isUnlowered {phrase pieces uses} (isTest : IsTest phrase pieces uses) :
    IsUnlowered pieces := by
  intro afterInstance
  cases isTest <;> simp [relationalFrom, Piece.isRelational, Piece.isWord]

theorem isUnlowered_partialObject (aliasName : String) (fields : List String) :
    IsUnlowered [.partialObject aliasName fields] :=
  fun _ => rfl

theorem Compiled.ofStatement_eq_withoutSql {s e} (inside : e ∈ s.expressions)
    (unlowered : IsUnlowered e) (aliases : Aliases) : ofStatement aliases s = withoutSql := by
  have none : s.isRelational = false :=
    List.all_eq_false.mpr ⟨e, inside, by rw [unlowered]; exact Bool.false_ne_true⟩
  rw [ofStatement, relationalForm?, none]
  rfl

theorem Statement.mem_expressions_of_item {q item} (inside : item ∈ q.items) :
    item.expr ∈ (Statement.select q).expressions := by
  rw [expressions_eq]
  refine List.mem_flatMap.mpr ⟨.expression item.expr, ?_, List.mem_cons_self⟩
  have listed : .expression item.expr ∈ q.items.flatMap SelectItem.parts :=
    List.mem_flatMap.mpr ⟨item, inside, List.mem_cons_self⟩
  simp [parts, SelectOf.parts, listed]

theorem Statement.mem_expressions_of_filter {q e} (filter : q.filter = some e) :
    e ∈ (Statement.select q).expressions := by
  rw [expressions_eq]
  refine List.mem_flatMap.mpr ⟨.expression e, ?_, List.mem_cons_self⟩
  simp [parts, SelectOf.parts, clauseParts, filter]

section Uses

variable {aliases : Aliases} {s : Statement} {text : String} {g : Gateway}
  {tokens : List Token} {pieces : Expression} {uses : List Mention}

theorem IsFurther.mem (further : IsFurther tokens pieces uses) :
    ∀ use ∈ uses, ∃ t, use = .variable t ∧ .variable t.value ∈ pieces := by
  induction further with
  | nil => exact List.forall_mem_nil _
  | @cons comma name _ pieces _ _ _ _ ih =>
    refine List.forall_mem_cons.mpr ⟨⟨name, rfl, by simp⟩, fun use inside => ?_⟩
    obtain ⟨t, same, member⟩ := ih use inside
    exact ⟨t, same, by simp [member]⟩

theorem IsClassOperand.mem (isClass : IsClassOperand tokens pieces uses) :
    ∀ use ∈ uses, ∃ t, use = .variable t ∧ .variable t.value ∈ pieces := by
  cases isClass with
  | name | parameter => exact List.forall_mem_nil _
  | list _ _ further _ =>
    intro use inside
    obtain ⟨t, same, member⟩ := further.mem use inside
    exact ⟨t, same, by simp [member]⟩

theorem IsPartial.isUse {piece} (isPartial : IsPartial tokens piece uses) :
    ∀ use ∈ uses, use.IsUse := by
  cases isPartial with
  | intro => simp [Mention.IsUse]

theorem IsTest.isUse (isTest : IsTest tokens pieces uses) : ∀ use ∈ uses, use.IsUse := by
  cases isTest with
  | memberOf isOperand =>
    intro use inside
    rcases List.mem_append.mp inside with first | last
    · cases isOperand with
      | number | text | parameter => cases first
      | «variable» | path =>
        obtain rfl := List.mem_singleton.mp first
        exact trivial
    · obtain rfl := List.mem_singleton.mp last
      exact trivial
  | instanceOf _ _ _ isClass =>
    refine List.forall_mem_cons.mpr ⟨trivial, fun use inside => ?_⟩
    obtain ⟨t, rfl, -⟩ := isClass.mem use inside
    exact trivial

theorem not_isCollectionPlace (after : Expression) (starts : before = [] ∨ EndsInAnd before) :
    ¬IsCollectionPlace before (.keyword "MEMBER" :: after) := by
  have last {earlier : Expression} {piece : Piece} (ends : earlier ++ [piece] <:+ before) :
      piece = .keyword "AND" := by
    obtain ⟨e, whole⟩ := ends
    rw [← List.append_assoc] at whole
    rcases starts with rfl | ⟨_, rfl⟩
    · simp at whole
    · exact List.singleton_inj.mp (List.append_inj' whole rfl).2
  rintro (ofBefore | ⟨name, -, sizeBefore⟩ | empty | notEmpty)
  · have := @last [] _ ofBefore
    simp at this
  · have := @last [.function name] _ sizeBefore
    simp at this
  · simp at empty
  · simp at notEmpty

variable (sound : s.NamesSound text g aliases)
include sound
variable {before : Expression}

theorem IsPartial.isSound {piece} (isPartial : IsPartial tokens piece uses)
    (inside : [piece] ∈ s.expressions) : ∀ use ∈ uses, use.IsSound aliases := by
  cases isPartial with
  | intro =>
    obtain ⟨known, mapped⟩ := sound.partials _ inside _ _ (List.mem_singleton_self _)
    refine List.forall_mem_cons.mpr ⟨known, fun use given => ?_⟩
    obtain ⟨field, member, rfl⟩ := List.mem_map.mp given
    exact (mapped _ (List.mem_map_of_mem member)).mono False.elim

theorem IsOperand.isSound {x} (isOperand : IsOperand tokens x uses) {after}
    (starts : before = [] ∨ EndsInAnd before)
    (inside : before ++ x :: .keyword "MEMBER" :: after ∈ s.expressions) :
    ∀ use ∈ uses, use.IsSound aliases := by
  cases isOperand with
  | number | text | parameter => exact List.forall_mem_nil _
  | @«variable» t _ =>
    have known := sound.aliasUses _ inside t.value (by simp)
    exact List.forall_mem_singleton.mpr known
  | path =>
    have property := sound.paths _ inside before _ _ rfl
    have never := not_isCollectionPlace after starts
    exact List.forall_mem_singleton.mpr (property.mono fun place => (never place).elim)

theorem IsTest.isSound (isTest : IsTest tokens pieces uses) {after}
    (starts : before = [] ∨ EndsInAnd before) (inside : before ++ pieces ++ after ∈ s.expressions) :
    ∀ use ∈ uses, use.IsSound aliases := by
  rw [List.append_assoc] at inside
  cases isTest with
  | @memberOf _ _ x _ member of_ a field isOperand =>
    have operand := isOperand.isSound sound starts inside
    have parts : before ++ ([x, .keyword "MEMBER", .keyword "OF",
        .path ⟨a.value, field.value⟩] ++ after) =
        (before ++ [x, .keyword "MEMBER", .keyword "OF"]) ++
          .path ⟨a.value, field.value⟩ :: after := by
      simp
    have property := sound.paths _ inside _ _ _ parts
    intro use given
    rcases List.mem_append.mp given with first | last
    · exact operand use first
    · obtain rfl := List.mem_singleton.mp last
      exact property.mono fun _ => rfl
  | @instanceOf a _ _ _ pieces uses _ _ _ isClass =>
    have known := sound.aliasUses _ inside a.value (by simp)
    refine List.forall_mem_cons.mpr ⟨known, fun use given => ?_⟩
    obtain ⟨t, rfl, member⟩ := isClass.mem use given
    exact sound.aliasUses _ inside t.value (by simp [member])

end Uses

def IsRejected (text : String) (g : Gateway) : Prop :=
  ∀ compiled g', compile text g ≠ .ok compiled g'

/-- If `sound` holds, the text is accepted as `q` and has no SQL; otherwise it is rejected. -/
structure AcceptedWithoutSql (text : String) (g g' : Gateway) (q : Select) (aliases : Aliases)
    (sound : Prop) : Prop where
  accepted : sound → parse text g = .ok ⟨.select q, aliases⟩ g' ∧
    compile text g = .ok .withoutSql g'
  rejected : ¬sound → IsRejected text g

/-- What becomes of a text with `entry` between the entries `before` and `after` of `q`. -/
structure JudgesEntry (text : String) (g g' : Gateway) (q : Select) (aliases : Aliases)
    (before after : List (SelectItem Expression)) (entry : List Token) : Prop where
  partialObject : ∀ piece uses, IsPartial entry piece uses →
    AcceptedWithoutSql text g g' { q with items := before ++ ⟨[piece], none⟩ :: after } aliases
      (∀ use ∈ uses, use.IsSound aliases)
  instantiation : IsNew entry → IsRejected text g

section Verdicts

variable {text : String} {g g' : Gateway} {q : Select} {aliases : Aliases} {d : Cursor}
  (resolved : resolveAliases d.mentions g = .ok aliases g')
  (checked : checkUses aliases d.mentions = .ok ()) (ended : d.rest = [])
include resolved checked ended

theorem acceptedWithoutSql {q' : Select} {uses : List Mention} {e : Expression}
    (inside : e ∈ (Statement.select q').expressions) (unlowered : IsUnlowered e)
    (areUses : ∀ use ∈ uses, use.IsUse)
    (judged : ∀ {aliases}, (Statement.select q').NamesSound text g aliases →
      ∀ use ∈ uses, use.IsSound aliases)
    (reads : ∀ extra, (∀ use ∈ uses, extra use) →
      ∃ d', selectWith select ⟨Token.scan text, []⟩ = .ok q' d' ∧
        Seam.Holds ⟨[], [], extra⟩ d d') :
    AcceptedWithoutSql text g g' q' aliases (∀ use ∈ uses, use.IsSound aliases) where
  accepted := by
    intro sound
    obtain ⟨d', read, holds⟩ := reads _ sound
    obtain ⟨ended', widened⟩ := holds.atSeam ended
    have resolved' := (widened.mono Mention.IsSound.isUse).resolveAliases_ok resolved
    have parsed := parse_select_ok.mpr
      ⟨d', read, ended', resolved', widened.checkUses_ok checked⟩
    refine ⟨parsed, compile_ok.mpr ⟨_, parsed, ?_⟩⟩
    exact (Compiled.ofStatement_eq_withoutSql inside unlowered aliases).symm
  rejected := by
    intro unsound compiled g'' done
    obtain ⟨parsed, accepted, -⟩ := compile_ok.mp done
    obtain ⟨d', read, holds⟩ := reads _ areUses
    obtain ⟨q'', d'', isSelect, read', resolved'⟩ :=
      select_of_parse accepted (sees_of_selectWith read)
    obtain ⟨rfl, rfl⟩ := EStateM.Result.ok.inj (read.symm.trans read')
    have same := ((holds.atSeam ended).2.resolveAliases_ok resolved).symm.trans resolved'
    obtain ⟨rfl, -⟩ := EStateM.Result.ok.inj same
    obtain ⟨mentions, -, order, -, -⟩ := parse_ok accepted
    have sound := Statement.namesSound order (parse_declares accepted)
      (parse_uses_resolved accepted)
    rw [isSelect] at sound
    exact unsound (judged sound)

theorem judgesEntry {before after entry}
    (place : ∀ extra, entry.head?.any (fun t => !t.isWord "DISTINCT") = true →
      Accommodates select extra q d before after entry (Token.scan text)) :
    JudgesEntry text g g' q aliases before after entry := by
  constructor
  · intro piece uses isPartial
    have inside : [piece] ∈
        (Statement.select { q with items := before ++ ⟨[piece], none⟩ :: after }).expressions :=
      @Statement.mem_expressions_of_item _ ⟨[piece], none⟩ (by simp)
    refine acceptedWithoutSql resolved checked ended inside ?_ isPartial.isUse
      (fun sound => isPartial.isSound sound inside) fun extra added => ?_
    · cases isPartial with
      | intro => exact isUnlowered_partialObject _ _
    · obtain ⟨m, follow, reaches, here, divides, completes⟩ := place extra isPartial.plain
      have read := @IsPartial.selectItem_ok select _ _ _ _ isPartial _ divides m.mentions
      rw [← here] at read
      exact completes _ uses read added
  · intro isNew compiled g'' done
    obtain ⟨m, follow, reaches, here, -⟩ := place (fun _ => True) isNew.plain
    obtain ⟨item, opening, later, opens, read⟩ :=
      @IsNew.selectItem_ok select _ _ isNew follow m.mentions
    rw [← here] at read
    have noComma := @eatKind_none ⟨opening :: later, m.mentions⟩ .comma (by simp [opens])
    obtain ⟨parsed, accepted, -⟩ := compile_ok.mp done
    have ⟨begun, listed, select, _⟩ := reaches
    obtain ⟨_, _, -, read', -⟩ := select_of_parse accepted (sees_of_expectWord select)
    rw [reaches.selectWith_eq read noComma] at read'
    have divides := isDivider_of_afterItems read'
    simp [Token.isDivider, opens] at divides

theorem judgesTest {phrase pieces before after uses} (isTest : IsTest phrase pieces uses)
    (starts : before = [] ∨ EndsInAnd before)
    (reads : ∀ extra, (∀ use ∈ uses, extra use) →
      ∃ d', selectWith select ⟨Token.scan text, []⟩ =
          .ok { q with filter := some (before ++ pieces ++ after) } d' ∧
        Seam.Holds ⟨[], [], extra⟩ d d') :
    AcceptedWithoutSql text g g' { q with filter := some (before ++ pieces ++ after) } aliases
      (∀ use ∈ uses, use.IsSound aliases) := by
  have inside := @Statement.mem_expressions_of_filter
    { q with filter := some (before ++ pieces ++ after) } _ rfl
  exact acceptedWithoutSql resolved checked ended inside
    ((isTest.isUnlowered.append_left before).append_right after) isTest.isUse
    (fun sound => isTest.isSound sound starts inside) reads

end Verdicts

section Places

variable (text : String) (g g' : Gateway) (q : Select) (aliases : Aliases)

def JudgesMore : Prop :=
  ∀ before after, q.items = before ++ after →
    ∃ front back, Token.scan text = front ++ back ∧
      ∀ text' front' back' entry comma, List.Forall₂ Token.Same front front' →
        List.Forall₂ Token.Same back back' → comma.kind = .comma →
        Token.scan text' = front' ++ (besideComma after.isEmpty comma entry ++ back') →
        JudgesEntry text' g g' q aliases before after entry

def JudgesInstead : Prop :=
  ∀ before digits after, q.items = before ++ ⟨[.number digits], none⟩ :: after →
    ∃ front number back, Token.scan text = front ++ number :: back ∧ number.IsNumber digits ∧
      ∀ text' front' back' entry, List.Forall₂ Token.Same front front' →
        List.Forall₂ Token.Same back back' → Token.scan text' = front' ++ (entry ++ back') →
        JudgesEntry text' g g' q aliases before after entry

/-- What becomes of a test that `AND` joins to the condition `e`, as long as the first of the two
    leaves no class name awaited. If one is, the next name is taken for it. -/
def JudgesJoined : Prop :=
  ∀ e, q.filter = some e →
    ∃ front condition back, Token.scan text = front ++ (condition ++ back) ∧
      front.getLast?.any (·.isWord "WHERE") = true ∧ back.head?.all Token.isDivider = true ∧
      ∀ text' front' condition' back' phrase and pieces uses,
        List.Forall₂ Token.Same front front' → List.Forall₂ Token.Same condition condition' →
        List.Forall₂ Token.Same back back' → and.isWord "AND" = true →
        IsTest phrase pieces uses →
        (Token.scan text' = front' ++ (phrase ++ and :: (condition' ++ back')) →
          (awaitsClass pieces = false →
            AcceptedWithoutSql text' g g' { q with filter := some (pieces ++ .keyword "AND" :: e) }
              aliases (∀ use ∈ uses, use.IsSound aliases)) ∧
          (awaitsClass pieces = true → StartsWithPath condition' → IsRejected text' g)) ∧
        (Token.scan text' = front' ++ (condition' ++ and :: (phrase ++ back')) →
          awaitsClass e = false →
          AcceptedWithoutSql text' g g' { q with filter := some (e ++ .keyword "AND" :: pieces) }
            aliases (∀ use ∈ uses, use.IsSound aliases))

end Places

section Statements

variable {text : String} {g g' : Gateway} {q : Select} {aliases : Aliases}
  (accepted : parse text g = .ok ⟨.select q, aliases⟩ g')
include accepted

theorem judgesMore : JudgesMore text g g' q aliases := by
  intro before after parts
  obtain ⟨d, read, ended, resolved, checked⟩ := parse_select_ok.mp accepted
  obtain ⟨front, back, whole, places⟩ := exists_place read parts
  refine ⟨front, back, whole, ?_⟩
  intro text' front' back' entry comma sameFront sameBack isComma same
  apply judgesEntry resolved checked ended
  intro extra plain
  rw [same]
  exact places extra sameFront sameBack isComma plain

theorem judgesInstead : JudgesInstead text g g' q aliases := by
  intro before digits after parts
  obtain ⟨d, read, ended, resolved, checked⟩ := parse_select_ok.mp accepted
  obtain ⟨front, number, back, whole, isNumber, places⟩ := exists_place_of_number read parts
  refine ⟨front, number, back, whole, isNumber, ?_⟩
  intro text' front' back' entry sameFront sameBack same
  apply judgesEntry resolved checked ended
  intro extra plain
  rw [same]
  exact places extra sameFront sameBack plain

theorem judgesJoined : JudgesJoined text g g' q aliases := by
  intro e filter
  obtain ⟨d, read, ended, resolved, checked⟩ := parse_select_ok.mp accepted
  obtain ⟨front, condition, back, whole, isWhere, divides, places⟩ :=
    exists_condition_place read ended filter
  refine ⟨front, condition, back, whole, isWhere, divides, ?_⟩
  intro text' front' condition' back' phrase and pieces uses sameFront sameCondition sameBack isAnd
    isTest
  have reads {extra : Mention → Prop} (added : ∀ use ∈ uses, extra use) :=
    places sameFront sameCondition sameBack isAnd isTest.readsAs added
  constructor
  · intro same
    refine ⟨fun free => ?_, fun awaited path compiled g'' done => ?_⟩
    · refine @judgesTest text' _ _ _ _ _ resolved checked ended _ _ [] (.keyword "AND" :: e) _
        isTest (.inl rfl) fun extra added => ?_
      rw [same]
      exact (reads added).1 free
    · obtain ⟨-, -, seen, scans⟩ := reads isTest.isUse
      obtain ⟨parsed, accepted', -⟩ := compile_ok.mp done
      rw [← same] at seen scans
      obtain ⟨_, _, -, read', -⟩ := select_of_parse accepted' seen
      obtain ⟨_, _, _, run⟩ := scans _ _ read'
      exact isTest.readsAs.not_scans awaited isAnd path run
  · intro same free
    have parts : e ++ .keyword "AND" :: pieces = e ++ [.keyword "AND"] ++ pieces ++ [] := by simp
    rw [parts]
    refine judgesTest resolved checked ended isTest (.inr ⟨e, rfl⟩) fun extra added => ?_
    rw [same, ← parts]
    exact (reads added).2.1 free

end Statements

/-- In an accepted select statement partial objects, memberships and class tests are accepted if
    what they use has a meaning, and instantiations are rejected. Nothing that is accepted with one
    of them has SQL. -/
theorem compile_unlowered {text : String} {g g' : Gateway} {q : Select} {aliases : Aliases}
    (accepted : parse text g = .ok ⟨.select q, aliases⟩ g') :
    JudgesMore text g g' q aliases ∧ JudgesInstead text g g' q aliases ∧
      JudgesJoined text g g' q aliases :=
  ⟨judgesMore accepted, judgesInstead accepted, judgesJoined accepted⟩

/-- A text is accepted as a select statement with one entry, the number `digits`, and a condition
    that leaves no class name awaited. -/
theorem exists_number_select {text g digits aliases}
    (found : succeeds (parse text) g (fun parsed =>
      match parsed with
      | ⟨.select ⟨_, [⟨[.number n], none⟩], _, some e, _, _, _⟩, known⟩ =>
        decide (n = digits) && !awaitsClass e && decide (known = aliases)
      | _ => false) = true) :
    ∃ q e g', parse text g = .ok ⟨.select q, aliases⟩ g' ∧
      q.items = [⟨[.number digits], none⟩] ∧ q.filter = some e ∧ awaitsClass e = false := by
  obtain ⟨parsed, g', accepted, passes⟩ := exists_of_succeeds found
  split at passes
  next =>
    simp only [Bool.and_eq_true, decide_eq_true_eq, Bool.not_eq_true'] at passes
    obtain ⟨⟨rfl, free⟩, rfl⟩ := passes
    exact ⟨_, _, g', accepted, rfl, rfl, free⟩
  next => cases passes

/-- A partial object and an instantiation instead of a number that is all a statement selects. -/
theorem compile_unlowered_instead :
    let id : Field := { name := "id", column := "id", columnType := "integer" }
    let user : EntityRecord := { className := "User", table := "users", fields := [id] }
    let g : Gateway := .ofSource (Catalog.toSource { records := [("user", user)] })
    let text := "SELECT 7 FROM User u WHERE u.id = 1"
    ∃ q e g', parse text g = .ok ⟨.select q, [("u", .entity user)]⟩ g' ∧
      q.filter = some e ∧ awaitsClass e = false ∧
      compile "SELECT PARTIAL u.\x7bid\x7d FROM User u WHERE u.id = 1" g = .ok .withoutSql g' ∧
      IsRejected "SELECT NEW User(u.id) FROM User u WHERE u.id = 1" g := by
  intro id user g text
  obtain ⟨q, e, g', accepted, items, filter, free⟩ : ∃ q e g',
      parse text g = .ok ⟨.select q, [("u", .entity user)]⟩ g' ∧
        q.items = [⟨[.number "7"], none⟩] ∧ q.filter = some e ∧ awaitsClass e = false :=
    exists_number_select (by unfold g user id text; decide +kernel)
  obtain ⟨front, number, back, whole, isNumber, entries⟩ :=
    (compile_unlowered accepted).2.1 [] "7" [] items
  -- The number stands once in the text, which tells where its place is.
  have split : Token.scan text =
      (Token.scan text).take 1 ++ ⟨.integer, "7", 7⟩ :: (Token.scan text).drop 2 := by
    unfold text
    decide +kernel
  have other : ∀ t ∈ (Token.scan text).take 1 ++ (Token.scan text).drop 2, t.value ≠ "7" := by
    unfold text
    decide +kernel
  obtain ⟨rfl, rfl, rfl⟩ := (List.append_cons_inj_of_notMem
    (fun inside => other _ (List.mem_append_left _ inside) isNumber.value)
    (fun inside => other _ (List.mem_append_right _ inside) isNumber.value)).mp
      (split.symm.trans whole)
  refine ⟨q, e, g', accepted, filter, free, ?_, ?_⟩
  · let text' := "SELECT PARTIAL u.\x7bid\x7d FROM User u WHERE u.id = 1"
    let entry : List Token := [⟨.identifier, "PARTIAL", 7⟩, ⟨.identifier, "u", 15⟩, ⟨.dot, ".", 16⟩,
      ⟨.openCurly, "\x7b", 17⟩, ⟨.identifier, "id", 18⟩, ⟨.closeCurly, "\x7d", 20⟩]
    have judged := entries text' ((Token.scan text').take 1) ((Token.scan text').drop 7) entry
      (Token.forall₂_same_of_map_eq (by unfold text text'; decide +kernel))
      (Token.forall₂_same_of_map_eq (by unfold text text'; decide +kernel))
      (by unfold entry text'; decide +kernel)
    have isPartial : IsPartial entry (.partialObject "u" ["id"])
        [.variable ⟨.identifier, "u", 15⟩,
          .path ⟨.identifier, "u", 15⟩ ⟨.identifier, "id", 18⟩ false] :=
      .intro (by decide) rfl rfl rfl (.last rfl) rfl
    have mapped : Aliases.HasProperty [("u", .entity user)] ⟨"u", "id"⟩ (false = true) :=
      ⟨user, rfl, .inl rfl, fun _ named => nomatch named⟩
    have accepted := (judged.partialObject _ _ isPartial).accepted
      (List.forall_mem_cons.mpr ⟨rfl, List.forall_mem_singleton.mpr mapped⟩)
    exact accepted.2
  · let text' := "SELECT NEW User(u.id) FROM User u WHERE u.id = 1"
    let entry : List Token := [⟨.identifier, "NEW", 7⟩, ⟨.identifier, "User", 11⟩,
      ⟨.openParen, "(", 15⟩, ⟨.identifier, "u", 16⟩, ⟨.dot, ".", 17⟩, ⟨.identifier, "id", 18⟩,
      ⟨.closeParen, ")", 20⟩]
    have judged := entries text' ((Token.scan text').take 1) ((Token.scan text').drop 8) entry
      (Token.forall₂_same_of_map_eq (by unfold text text'; decide +kernel))
      (Token.forall₂_same_of_map_eq (by unfold text text'; decide +kernel))
      (by unfold entry text'; decide +kernel)
    exact judged.instantiation (.intro (by decide) (by decide) rfl)

theorem isRejected_of_not_succeeds {text g}
    (fails : succeeds (compile text) g (fun _ => true) = false) : IsRejected text g := by
  intro compiled g' done
  rw [succeeds, done] at fails
  cases fails

/-- An instantiation, a class test against a parameter in front of a path, and one against a list of
    two classes are rejected, though every alias and property they use has a meaning. -/
theorem compile_rejects_new :
    let id : Field := { name := "id", column := "id", columnType := "integer" }
    let user : EntityRecord := { className := "User", table := "users", fields := [id] }
    let g : Gateway := .ofSource (Catalog.toSource { records := [("user", user)] })
    IsRejected "SELECT NEW Dto(u.id) FROM User u" g ∧
      IsRejected "SELECT u.id FROM User u WHERE u INSTANCE OF :type AND u.id = 1" g ∧
      IsRejected "SELECT u.id FROM User u WHERE u.id = 1 AND u INSTANCE OF (User, User)" g :=
  ⟨isRejected_of_not_succeeds (by decide +kernel), isRejected_of_not_succeeds (by decide +kernel),
    isRejected_of_not_succeeds (by decide +kernel)⟩

end EntityAudit.Query
