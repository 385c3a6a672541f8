import EntityAudit.Proofs.Query.Conditions
import EntityAudit.Proofs.Query.Entries

/-! # Constructs without a relational form

The tokens that partial objects, instantiations, memberships and class tests are written with, and
what they are read as. Only an instantiation is not read to its end.
-/

namespace EntityAudit.Query

/-- Whether the token is a name that is not reserved. -/
def Token.isFreeName (t : Token) : Bool :=
  t.isAlias || t.kind == .qualifiedName

/-- Words with a point before each of them. -/
inductive Dotted : List Token → List Token → Prop
  | nil : Dotted [] []
  | cons {dot word tokens words} (isDot : dot.kind = .dot) (isWord : word.kind = .identifier)
      (others : Dotted tokens words) :
      Dotted (dot :: word :: tokens) (word :: words)

/-- A path: an alias and dotted words after it. The last of these stands for the whole property. -/
inductive IsPath : List Token → Token → Token → Prop
  | intro {a last parts words} (named : a.isAlias = true) (dotted : Dotted parts words)
      (ends : words.getLast? = some last) :
      IsPath (a :: parts) a { last with value := ".".intercalate (words.map (·.value)) }

/-- A literal, a parameter, an alias or a path, with the names it uses. -/
inductive IsOperand : List Token → Piece → List Mention → Prop
  | number {t} (isNumber : t.kind = .integer ∨ t.kind = .float) : IsOperand [t] (.number t.value) []
  | text {t} (isText : t.kind = .string) : IsOperand [t] (.text t.value) []
  | parameter {t} (isParameter : t.kind = .parameter) : IsOperand [t] (.parameter t.value) []
  | variable {t} (named : t.isAlias = true) : IsOperand [t] (.variable t.value) [.variable t]
  | path {tokens a field} (isPath : IsPath tokens a field) :
      IsOperand tokens (.path ⟨a.value, field.value⟩) [.path a field false]

/-- Names with a comma before each of them. They are read as aliases. -/
inductive IsFurther : List Token → Expression → List Mention → Prop
  | nil : IsFurther [] [] []
  | cons {comma name tokens pieces uses} (isComma : comma.kind = .comma)
      (named : name.isFreeName = true) (others : IsFurther tokens pieces uses) :
      IsFurther (comma :: name :: tokens) (.comma :: .variable name.value :: pieces)
        (.variable name :: uses)

/-- What may follow `INSTANCE OF`: a class, a parameter, or a list in parentheses. -/
inductive IsClassOperand : List Token → Expression → List Mention → Prop
  | name {t} (named : t.isFreeName = true) : IsClassOperand [t] [.className t.value] []
  | parameter {t} (isParameter : t.kind = .parameter) : IsClassOperand [t] [.parameter t.value] []
  | list {opening t closing tokens pieces uses} (opens : opening.kind = .openParen)
      (named : t.isFreeName = true) (further : IsFurther tokens pieces uses)
      (closes : closing.kind = .closeParen) :
      IsClassOperand (opening :: t :: (tokens ++ [closing]))
        (.opening :: .className t.value :: (pieces ++ [.closing])) uses

/-- A membership or a class test, with the names it uses. -/
inductive IsTest : List Token → Expression → List Mention → Prop
  | memberOf {operand path x uses member of_ a field} (isOperand : IsOperand operand x uses)
      (isMember : member.isWord "MEMBER" = true) (isOf : of_.isWord "OF" = true)
      (isPath : IsPath path a field) :
      IsTest (operand ++ member :: of_ :: path)
        [x, .keyword "MEMBER", .keyword "OF", .path ⟨a.value, field.value⟩]
        (uses ++ [.path a field true])
  | instanceOf {a instance_ of_ operand pieces uses} (named : a.isAlias = true)
      (isInstance : instance_.isWord "INSTANCE" = true) (isOf : of_.isWord "OF" = true)
      (isClass : IsClassOperand operand pieces uses) :
      IsTest (a :: instance_ :: of_ :: operand)
        (.variable a.value :: .keyword "INSTANCE" :: .keyword "OF" :: pieces) (.variable a :: uses)

/-- Words divided by commas. -/
inductive Divided : List Token → List Token → Prop
  | last {word} (isWord : word.kind = .identifier) : Divided [word] [word]
  | more {word comma tokens words} (isWord : word.kind = .identifier)
      (isComma : comma.kind = .comma) (others : Divided tokens words) :
      Divided (word :: comma :: tokens) (word :: words)

/-- A partial object, with the names it uses. -/
inductive IsPartial : List Token → Piece → List Mention → Prop
  | intro {word name dot opening closing tokens fields} (isWord : word.isWord "PARTIAL" = true)
      (named : name.kind = .identifier) (isDot : dot.kind = .dot)
      (opens : opening.kind = .openCurly) (divided : Divided tokens fields)
      (closes : closing.kind = .closeCurly) :
      IsPartial (word :: name :: dot :: opening :: (tokens ++ [closing]))
        (.partialObject name.value (fields.map (·.value)))
        (.variable name :: fields.map (.path name · false))

/-- An instantiation, with anything for its arguments. -/
inductive IsNew : List Token → Prop
  | intro {word name opening arguments} (isWord : word.isWord "NEW" = true)
      (named : name.isFreeName = true) (opens : opening.kind = .openParen) :
      IsNew (word :: name :: opening :: arguments)

/-- The tokens start like a path. -/
inductive StartsWithPath : List Token → Prop
  | intro {name dot : Token} {rest : List Token} (named : name.isFreeName = true)
      (isDot : dot.kind = .dot) : StartsWithPath (name :: dot :: rest)

namespace Read

variable {p next : Progress} {sub : Read Select} {t : Token} {rest : List Token} {ms : List Mention}
variable {uses : List Mention}

theorem expectKind_cons {kind} (is : t.kind = kind) (name : String) :
    discard (expect (·.kind == kind) name) ⟨t :: rest, ms⟩ = .ok ⟨⟩ ⟨rest, ms⟩ := by
  have approved : (fun t : Token => t.kind == kind) t = true := beq_iff_eq.mpr is
  exact discard_ok.mpr ⟨t, expect_passes _ approved (.token rfl)⟩

theorem expectDot_cons (isDot : t.kind = .dot) : expectDot ⟨t :: rest, ms⟩ = .ok () ⟨rest, ms⟩ :=
  expectKind_cons isDot _

theorem expectIdentifier_cons (isWord : t.kind = .identifier) :
    expectIdentifier ⟨t :: rest, ms⟩ = .ok t ⟨rest, ms⟩ := by
  have approved : (fun t : Token => t.kind == .identifier) t = true := beq_iff_eq.mpr isWord
  exact expect_passes _ approved (.token rfl)

theorem pathParts_ok_of_dotted {tokens words} (dotted : Dotted tokens words)
    (ends : rest.head?.any (·.kind == .dot) = false) :
    pathParts ⟨tokens ++ rest, ms⟩ = .ok words ⟨rest, ms⟩ := by
  have looks (c : Cursor) : (do return (← peek).any (·.kind == .dot) : Read Bool) c =
      .ok (c.rest.head?.any (·.kind == .dot)) c := rfl
  induction dotted with
  | nil =>
    rw [pathParts, whileSeen_eq, bind_of_ok (looks _)]
    simp only [List.nil_append, ends, Bool.false_eq_true, if_false]
    rfl
  | @cons dot word tokens words isDot isWord others ih =>
    have item : (do expectDot; expectIdentifier : Read Token)
        ⟨dot :: word :: (tokens ++ rest), ms⟩ = .ok word ⟨tokens ++ rest, ms⟩ :=
      (bind_of_ok (expectDot_cons isDot) _).trans (expectIdentifier_cons isWord)
    rw [pathParts, whileSeen_eq, bind_of_ok (looks _)]
    simp only [List.cons_append, List.head?_cons, Option.any_some, isDot, beq_self_eq_true,
      if_true]
    rw [bind_of_ok item]
    exact bind_of_ok ih _

theorem emptinessAhead_of_quiet {tokens} (quiet : tokens.head?.all Token.isQuiet = true) :
    emptinessAhead tokens = false := by
  cases tokens with
  | nil => rfl
  | cons t _ =>
    have other : t.isWord "IS" = false := not_isWord_of_isQuiet (by simp) t quiet
    simp [emptinessAhead, other]

theorem not_dot_of_quiet {next : Option Token} (quiet : next.all Token.isQuiet = true) :
    next.any (·.kind == .dot) = false := by
  cases next with
  | none => rfl
  | some t => exact not_dot_of_isQuiet t quiet

theorem path_ok_of_isPath {tokens a field} (isPath : IsPath tokens a field) (before : Expression)
    (quiet : rest.head?.all Token.isQuiet = true) (ms : List Mention) :
    path before ⟨tokens ++ rest, ms⟩ =
      .ok (.path ⟨a.value, field.value⟩)
        ⟨rest, ms ++ [.path a field (allowsCollection before)]⟩ := by
  cases isPath with
  | @intro _ last parts words named dotted ends =>
    have isWord : a.kind = .identifier := by
      simp only [Token.isAlias, Bool.and_eq_true, beq_iff_eq] at named
      exact named.1
    obtain ⟨earlier, rfl⟩ := List.getLast?_eq_some_iff.mp ends
    have looks : seesEmptinessTest ⟨rest, ms⟩ = .ok false ⟨rest, ms⟩ := by
      rw [← emptinessAhead_of_quiet quiet]
      rfl
    rw [path, List.cons_append, bind_of_ok (expectIdentifier_cons isWord),
      bind_of_ok (pathParts_ok_of_dotted dotted (not_dot_of_quiet quiet)), List.reverse_concat]
    simp only
    rw [bind_of_ok looks, Bool.or_false, List.reverse_cons, List.reverse_reverse]
    rfl

theorem Leads.take (chosen : p.action t rest.head? = .take next) :
    Leads sub p ⟨t :: rest, ms⟩ next ⟨rest, ms⟩ :=
  .single (.take rfl chosen)

theorem Leads.joining {word} (is : t.isWord word = true) (joining : word ∈ joiningWords) :
    Leads sub p ⟨t :: rest, ms⟩
      { p.push (.keyword word) false with
        classNext := p.classNext || word == "NEW" || (word == "OF" && p.endsIn "INSTANCE") }
      ⟨rest, ms⟩ :=
  .take (action_joining is joining)

section

variable (named : t.isFreeName = true)

include named

theorem action_freeName {following} :
    p.action t following = p.onName t.value (following.map (·.kind)) := by
  simp only [Token.isFreeName, Token.isAlias, Bool.or_eq_true, Bool.and_eq_true, beq_iff_eq,
    Bool.not_eq_true'] at named
  rcases named with ⟨kind, free⟩ | kind
  · simp [Progress.action, kind, free]
  · simp only [Progress.action, kind]

theorem not_isWord_of_isFreeName {word} (reserved : word ∈ reservedWords) :
    t.isWord word = false := by
  by_contra is
  simp only [Bool.not_eq_false, Token.isWord, Bool.and_eq_true, beq_iff_eq] at is
  simp [Token.isFreeName, Token.isAlias, isReserved, is, reserved] at named

theorem Leads.variable (ready : p.afterOperand = false) (free : p.classNext = false)
    (quiet : rest.head?.all Token.isQuiet = true) :
    Leads sub p ⟨t :: rest, ms⟩ (p.push (.variable t.value) true) ⟨rest, ms ++ [.variable t]⟩ := by
  refine .single (.variable rfl ?_)
  rw [action_freeName named, onName_of_quiet quiet]
  simp [Progress.onName, ready, free]

theorem Leads.className (ready : p.afterOperand = false) (awaited : p.classNext = true) :
    Leads sub p ⟨t :: rest, ms⟩ { p.push (.className t.value) true with classNext := false }
      ⟨rest, ms⟩ := by
  apply Leads.take
  rw [action_freeName named]
  simp [Progress.onName, ready, awaited]

end

theorem Leads.path {tokens a field} (isPath : IsPath tokens a field)
    (ready : p.afterOperand = false) (free : p.classNext = false)
    (quiet : rest.head?.all Token.isQuiet = true) :
    Leads sub p ⟨tokens ++ rest, ms⟩ (p.push (.path ⟨a.value, field.value⟩) true)
      ⟨rest, ms ++ [.path a field (allowsCollection p.pieces)]⟩ := by
  have read := path_ok_of_isPath isPath p.pieces quiet
  cases isPath with
  | @intro _ last parts words named dotted ends =>
    have free_ : a.isFreeName = true := by rw [Token.isFreeName, named, Bool.true_or]
    cases dotted with
    | nil => cases ends
    | @cons dot _ _ _ isDot _ _ =>
      refine .single (.path rfl ?_ (read _))
      rw [action_freeName free_]
      simp [Progress.onName, ready, free, isDot]

theorem Leads.operand {tokens x} (isOperand : IsOperand tokens x uses)
    (quiet : rest.head?.all Token.isQuiet = true) :
    Leads sub {} ⟨tokens ++ rest, ms⟩ (({} : Progress).push x true) ⟨rest, ms ++ uses⟩ := by
  cases isOperand with
  | number isNumber =>
    rw [List.append_nil]
    apply Leads.take
    rcases isNumber with kind | kind <;> simp [Progress.action, kind, Progress.onLiteral]
  | text isText =>
    rw [List.append_nil]
    apply Leads.take
    simp [Progress.action, isText, Progress.onLiteral]
  | parameter isParameter =>
    rw [List.append_nil]
    apply Leads.take
    simp [Progress.action, isParameter, Progress.onLiteral]
  | «variable» named =>
    exact .variable (by rw [Token.isFreeName, named, Bool.true_or]) rfl rfl quiet
  | path isPath => exact .path isPath rfl rfl quiet

theorem Leads.further {tokens pieces uses} (further : IsFurther tokens pieces uses)
    (depth : p.depth ≠ 0) (free : p.classNext = false) (operand : p.afterOperand = true)
    (quiet : rest.head?.all Token.isQuiet = true) :
    Leads sub p ⟨tokens ++ rest, ms⟩ { p with pieces := p.pieces ++ pieces }
      ⟨rest, ms ++ uses⟩ := by
  induction further generalizing p ms with
  | nil =>
    simp only [List.append_nil]
    exact .refl p _
  | @cons comma name tokens pieces uses isComma named others ih =>
    have ahead : (tokens ++ rest).head?.all Token.isQuiet = true := by
      cases others with
      | nil => exact quiet
      | cons isComma _ _ =>
        simp only [List.cons_append, List.head?_cons, Option.all_some]
        exact Token.isQuiet_of_isDivider (by simp [Token.isDivider, isComma])
    have divides : Leads sub p ⟨comma :: name :: (tokens ++ rest), ms⟩ (p.push .comma false)
        ⟨name :: (tokens ++ rest), ms⟩ := by
      apply Leads.take
      simp [Progress.action, isComma, depth]
    have names : Leads sub (p.push .comma false) ⟨name :: (tokens ++ rest), ms⟩
        ((p.push .comma false).push (.variable name.value) true)
        ⟨tokens ++ rest, ms ++ [.variable name]⟩ :=
      .variable named rfl free ahead
    have later : Leads sub ((p.push .comma false).push (.variable name.value) true)
        ⟨tokens ++ rest, ms ++ [.variable name]⟩ _ _ := ih depth free rfl
    have whole := (divides.trans names).trans later
    simp only [Progress.push, List.append_assoc, List.singleton_append] at whole
    rw [operand.symm] at whole
    exact whole

theorem Leads.classOperand {tokens pieces} (isClass : IsClassOperand tokens pieces uses)
    (ready : p.afterOperand = false) (awaited : p.classNext = true) :
    ∃ last : Progress, last.pieces = p.pieces ++ pieces ∧ last.depth = p.depth ∧
      Leads sub p ⟨tokens ++ rest, ms⟩ last ⟨rest, ms ++ uses⟩ := by
  cases isClass with
  | @name t named =>
    rw [List.append_nil]
    exact ⟨{ p.push (.className t.value) true with classNext := false }, rfl, rfl,
      .className named ready awaited⟩
  | @parameter t isParameter =>
    rw [List.append_nil]
    refine ⟨p.push (.parameter t.value) true, rfl, rfl, .take ?_⟩
    simp [Progress.action, isParameter, Progress.onLiteral, ready]
  | @list opening t closing tokens pieces uses opens named further closes =>
    let inner : Progress := { p.push .opening false with depth := p.depth + 1 }
    let first : Progress := { inner.push (.className t.value) true with classNext := false }
    let all : Progress := { first with pieces := first.pieces ++ pieces }
    have opened : Leads sub p ⟨opening :: t :: (tokens ++ closing :: rest), ms⟩ inner
        ⟨t :: (tokens ++ closing :: rest), ms⟩ := by
      have other : t.isWord "SELECT" = false := not_isWord_of_isFreeName named (by decide)
      apply Leads.take
      simp [Progress.action, opens, ready, other, inner]
    have named : Leads sub inner ⟨t :: (tokens ++ closing :: rest), ms⟩ first
        ⟨tokens ++ closing :: rest, ms⟩ := .className named rfl awaited
    have listed : Leads sub first ⟨tokens ++ closing :: rest, ms⟩ all
        ⟨closing :: rest, ms ++ uses⟩ :=
      .further further (Nat.succ_ne_zero _) rfl rfl
        (Token.isQuiet_of_isDivider (by simp [Token.isDivider, closes]))
    have closed : Leads sub all ⟨closing :: rest, ms ++ uses⟩
        { all.push .closing true with depth := p.depth } ⟨rest, ms ++ uses⟩ := by
      apply Leads.take
      simp [Progress.action, closes, all, first, inner, Progress.push]
    refine ⟨{ all.push .closing true with depth := p.depth }, ?_, rfl, ?_⟩
    · simp [all, first, inner, Progress.push]
    · have whole := opened.trans (named.trans (listed.trans closed))
      simpa using whole

/-- A path after a phrase that leaves a class name awaited: its alias is taken for the class, and
    nothing may follow with a point. -/
theorem ReadsAs.not_scans {phrase pieces e and condition d} (reads : ReadsAs sub phrase pieces uses)
    (awaited : awaitsClass pieces = true) (isAnd : and.isWord "AND" = true)
    (path : StartsWithPath condition) :
    ¬Scans sub {} ⟨phrase ++ and :: (condition ++ rest), ms⟩ e d := by
  intro run
  obtain @⟨name, dot, more, named, isDot⟩ := path
  obtain ⟨last, rfl, -, leads⟩ :=
    reads.leads (and :: name :: dot :: (more ++ rest)) ms (isQuiet_of_joining isAnd (by decide))
  have flag : last.classNext = true := (leads.tracks rfl).awaitsClass_eq.symm.trans awaited
  have joined := leads.trans (.joining isAnd (by decide))
  have taken := joined.trans (.className named rfl (by simp [flag]))
  cases taken.past run with
  | stop ends =>
    obtain ⟨-, no⟩ | ⟨_, _, here, stops⟩ := ends
    · cases no
    · obtain ⟨rfl, rfl⟩ := List.cons.inj here
      simp [Progress.action, isDot] at stops
  | step first =>
    cases first with
    | _ here chosen =>
      obtain ⟨rfl, rfl⟩ := List.cons.inj here
      simp [Progress.action, isDot] at chosen

theorem selectItem_ok_of_expression {c d e} (read : expression sub c = .ok e d)
    (unnamed : d.rest.head?.any (fun t => t.isWord "AS" || t.isAlias) = false) :
    selectItem sub c = .ok ⟨e, none⟩ d := by
  have looks : peek d = .ok d.rest.head? d := rfl
  have both : d.rest.head?.any (·.isWord "AS") = false ∧ d.rest.head?.any (·.isAlias) = false := by
    cases head : d.rest.head? with
    | none => exact ⟨rfl, rfl⟩
    | some t =>
      rw [head, Option.any_some, Bool.or_eq_false_iff] at unnamed
      exact unnamed
  have eaten : eatWord "AS" d = .ok false d := by
    rw [eatWord, bind_of_ok (eat?_none both.1)]
    rfl
  rw [selectItem, bind_of_ok read, bind_of_ok eaten]
  simp only [Bool.false_eq_true, if_false, Bool.false_or]
  rw [bind_of_ok looks]
  simp only [both.2, Bool.false_eq_true, if_false]
  rfl

theorem unnamed_of_isDivider {next : Option Token} (divides : next.any Token.isDivider = true) :
    next.any (fun t => t.isWord "AS" || t.isAlias) = false := by
  cases next with
  | none => rfl
  | some t =>
    rw [Option.any_some, Token.not_isWord_of_isDivider divides (by decide),
      Token.not_isAlias_of_isDivider divides]
    rfl

theorem partialField_cons {name word} (isWord : word.kind = .identifier) :
    partialField name ⟨word :: rest, ms⟩ =
      .ok word.value ⟨rest, ms ++ [.path name word false]⟩ := by
  rw [partialField, bind_of_ok (expectIdentifier_cons isWord)]
  rfl

theorem partialFields_ok_of_divided {name tokens fields} (divided : Divided tokens fields)
    (ends : rest.head?.any (·.kind == .comma) = false) (ms : List Mention) :
    commaList (partialField name) ⟨tokens ++ rest, ms⟩ =
      .ok (fields.map (·.value)) ⟨rest, ms ++ fields.map (.path name · false)⟩ := by
  obtain ⟨before, last, middle, same, listed, found⟩ :
      ∃ before last middle, fields.map (·.value) = before ++ [last] ∧
        Listed (partialField name) ⟨tokens ++ rest, ms⟩ before middle ∧
        partialField name middle =
          .ok last ⟨rest, ms ++ fields.map (.path name · false)⟩ := by
    induction divided generalizing ms with
    | @last word isWord => exact ⟨[], word.value, _, rfl, .nil _, partialField_cons isWord⟩
    | @more word comma tokens words isWord isComma others ih =>
      obtain ⟨before, last, middle, same, listed, found⟩ := ih (ms ++ [.path name word false])
      refine ⟨word.value :: before, last, middle, by rw [List.map_cons, same]; rfl,
        .cons (partialField_cons isWord) (.token rfl) isComma listed, ?_⟩
      rw [found, List.map_cons, List.append_assoc, List.singleton_append]
  rw [same]
  exact listed.commaList_ok found (eatKind_none ends)

theorem Leads.selectItem_ok [Onward sub] {c d} (leads : Leads sub {} c p d)
    (here : d.rest = t :: rest) (stops : p.action t rest.head? = .stop) (nonempty : p.pieces ≠ [])
    (unnamed : (t.isWord "AS" || t.isAlias) = false) :
    selectItem sub c = .ok ⟨p.pieces, none⟩ d := by
  have run := leads.scans (.stop (.inr ⟨t, rest, here, stops⟩) nonempty)
  apply selectItem_ok_of_expression run.expression_ok
  rw [here]
  exact unnamed

theorem action_partial {following} (is : t.isWord "PARTIAL" = true) :
    p.action t following = .partialObject := by
  simp only [Token.isWord, Bool.and_eq_true, beq_iff_eq] at is
  simp [Progress.action, Progress.onKeyword, isReserved, is, reservedWords, clauseWords]

end Read

open Read

variable {sub : Read Select}
variable {uses : List Mention} {entry : List Token}

theorem IsTest.readsAs {phrase pieces} (isTest : IsTest phrase pieces uses) :
    ReadsAs sub phrase pieces uses := by
  cases isTest with
  | @memberOf operand path x uses member of_ a field isOperand isMember isOf isPath =>
    refine ⟨List.cons_ne_nil _ _, fun rest ms quiet => ?_⟩
    have first : Leads sub {} ⟨operand ++ member :: of_ :: (path ++ rest), ms⟩
        ⟨[x], 0, true, false⟩ ⟨member :: of_ :: (path ++ rest), ms ++ uses⟩ :=
      .operand isOperand (isQuiet_of_joining isMember (by decide))
    have second : Leads sub ⟨[x], 0, true, false⟩ ⟨member :: of_ :: (path ++ rest), ms ++ uses⟩
        ⟨[x, .keyword "MEMBER"], 0, false, false⟩ ⟨of_ :: (path ++ rest), ms ++ uses⟩ :=
      .joining isMember (by decide)
    have third : Leads sub ⟨[x, .keyword "MEMBER"], 0, false, false⟩
        ⟨of_ :: (path ++ rest), ms ++ uses⟩
        ⟨[x, .keyword "MEMBER", .keyword "OF"], 0, false, false⟩ ⟨path ++ rest, ms ++ uses⟩ :=
      .joining isOf (by decide)
    have fourth : Leads sub ⟨[x, .keyword "MEMBER", .keyword "OF"], 0, false, false⟩
        ⟨path ++ rest, ms ++ uses⟩
        ⟨[x, .keyword "MEMBER", .keyword "OF", .path ⟨a.value, field.value⟩], 0, true, false⟩
        ⟨rest, ms ++ uses ++ [.path a field true]⟩ :=
      .path isPath rfl rfl quiet
    have whole := first.trans (second.trans (third.trans fourth))
    refine ⟨⟨[x, .keyword "MEMBER", .keyword "OF", .path ⟨a.value, field.value⟩], 0, true, false⟩,
      rfl, rfl, ?_⟩
    simpa using whole
  | @instanceOf a instance_ of_ operand pieces uses named isInstance isOf isClass =>
    refine ⟨List.cons_ne_nil _ _, fun rest ms quiet => ?_⟩
    have first : Leads sub {} ⟨a :: instance_ :: of_ :: (operand ++ rest), ms⟩
        ⟨[.variable a.value], 0, true, false⟩
        ⟨instance_ :: of_ :: (operand ++ rest), ms ++ [.variable a]⟩ :=
      .variable (by rw [Token.isFreeName, named, Bool.true_or]) rfl rfl
        (isQuiet_of_joining isInstance (by decide))
    have second : Leads sub ⟨[.variable a.value], 0, true, false⟩
        ⟨instance_ :: of_ :: (operand ++ rest), ms ++ [.variable a]⟩
        ⟨[.variable a.value, .keyword "INSTANCE"], 0, false, false⟩
        ⟨of_ :: (operand ++ rest), ms ++ [.variable a]⟩ :=
      .joining isInstance (by decide)
    let tested : Progress :=
      ⟨[.variable a.value, .keyword "INSTANCE", .keyword "OF"], 0, false, true⟩
    have third : Leads sub ⟨[.variable a.value, .keyword "INSTANCE"], 0, false, false⟩
        ⟨of_ :: (operand ++ rest), ms ++ [.variable a]⟩ tested
        ⟨operand ++ rest, ms ++ [.variable a]⟩ :=
      .joining isOf (by decide)
    obtain ⟨last, same, depth, fourth⟩ : ∃ last : Progress,
        last.pieces = tested.pieces ++ pieces ∧ last.depth = tested.depth ∧
        Leads sub tested ⟨operand ++ rest, ms ++ [.variable a]⟩ last
          ⟨rest, ms ++ [.variable a] ++ uses⟩ :=
      Leads.classOperand isClass rfl rfl
    have whole := first.trans (second.trans (third.trans fourth))
    refine ⟨last, same, depth, ?_⟩
    simpa using whole

theorem IsPartial.selectItem_ok [Onward sub] {piece} (isPartial : IsPartial entry piece uses) {rest}
    (divides : rest.head?.any Token.isDivider = true) (ms : List Mention) :
    selectItem sub ⟨entry ++ rest, ms⟩ = .ok ⟨[piece], none⟩ ⟨rest, ms ++ uses⟩ := by
  obtain ⟨t, later, rfl⟩ : ∃ t later, rest = t :: later := by
    cases rest with
    | nil => cases divides
    | cons t later => exact ⟨t, later, rfl⟩
  cases isPartial with
  | @intro word name dot opening closing tokens fields isWord named isDot opens divided closes =>
    have noted : note (.variable name)
        ⟨dot :: opening :: (tokens ++ closing :: t :: later), ms⟩ =
        .ok () ⟨dot :: opening :: (tokens ++ closing :: t :: later), ms ++ [.variable name]⟩ :=
      rfl
    have ends : (closing :: t :: later).head?.any (·.kind == .comma) = false := by simp [closes]
    have listed := @partialFields_ok_of_divided _ name _ _ divided ends (ms ++ [.variable name])
    unfold partialField at listed
    have read : partialObject ⟨name :: dot :: opening :: (tokens ++ closing :: t :: later), ms⟩ =
        .ok (.partialObject name.value (fields.map (·.value)))
          ⟨t :: later, ms ++ .variable name :: fields.map (.path name · false)⟩ := by
      rw [partialObject, bind_of_ok (expectIdentifier_cons named), bind_of_ok noted,
        bind_of_ok (expectDot_cons isDot), bind_of_ok (expectKind_cons opens _),
        bind_of_ok listed, bind_of_ok (expectKind_cons closes _), List.append_assoc]
      rfl
    have leads : Leads sub {} ⟨word :: name :: dot :: opening ::
        (tokens ++ closing :: t :: later), ms⟩ (({} : Progress).push _ true) _ :=
      .single (.partialObject rfl (action_partial isWord) read)
    have item := leads.selectItem_ok rfl (action_stop_of_isDivider rfl divides)
      (List.cons_ne_nil _ _) (unnamed_of_isDivider divides)
    simp only [List.cons_append, List.append_assoc]
    exact item

theorem not_isDistinct_of_isWord {t : Token} {word} (is : t.isWord word = true)
    (other : word ≠ "DISTINCT") : (!t.isWord "DISTINCT") = true := by
  simp only [Token.isWord, Bool.and_eq_true, beq_iff_eq] at is
  simp [Token.isWord, is, other]

theorem IsPartial.plain {piece : Piece} (isPartial : IsPartial entry piece uses) :
    entry.head?.any (fun t => !t.isWord "DISTINCT") = true := by
  cases isPartial with
  | intro isWord => exact not_isDistinct_of_isWord isWord (by decide)

theorem IsNew.plain (isNew : IsNew entry) :
    entry.head?.any (fun t => !t.isWord "DISTINCT") = true := by
  cases isNew with
  | intro isWord => exact not_isDistinct_of_isWord isWord (by decide)

theorem IsNew.selectItem_ok [Onward sub] (isNew : IsNew entry) (rest : List Token)
    (ms : List Mention) :
    ∃ item opening later, opening.kind = .openParen ∧
      selectItem sub ⟨entry ++ rest, ms⟩ = .ok item ⟨opening :: later, ms⟩ := by
  cases isNew with
  | @intro word name opening arguments isWord named opens =>
    have first : Leads sub {} ⟨word :: name :: opening :: (arguments ++ rest), ms⟩
        ⟨[.keyword "NEW"], 0, false, true⟩ ⟨name :: opening :: (arguments ++ rest), ms⟩ :=
      .joining isWord (by decide)
    have second : Leads sub ⟨[.keyword "NEW"], 0, false, true⟩
        ⟨name :: opening :: (arguments ++ rest), ms⟩
        ⟨[.keyword "NEW", .className name.value], 0, true, false⟩
        ⟨opening :: (arguments ++ rest), ms⟩ :=
      .className named rfl rfl
    have stops : (⟨[.keyword "NEW", .className name.value], 0, true, false⟩ : Progress).action
        opening (arguments ++ rest).head? = .stop := by
      simp [Progress.action, opens, Progress.ending]
    exact ⟨_, opening, arguments ++ rest, opens, (first.trans second).selectItem_ok rfl stops
      (List.cons_ne_nil _ _) (by simp [Token.isWord, Token.isAlias, opens])⟩

end EntityAudit.Query
