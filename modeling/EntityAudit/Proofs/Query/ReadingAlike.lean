import EntityAudit.Proofs.Coupling
import EntityAudit.Proofs.Query.Likeness

/-! # Reading tokens that are alike

Two lists of tokens that are the same but for the case of free words are read in step. The case of a
field between curly brackets counts only if the brackets are closed; where they are not, the fields
that are noted may differ in case, but then both readers fail.
-/

namespace EntityAudit.Query

variable {F : Token → Token → Prop}

/-- Mentions that say the same, up to the case of reserved words that name no alias. -/
inductive Mention.Alike : Mention → Mention → Prop
  | className {t t'} (tokens : t.Alike t') : Alike (.className t) (.className t')
  | joinRoot {t t'} (tokens : t.Alike t') (next next' : Option Token) :
      Alike (.joinRoot t next) (.joinRoot t' next')
  | joinField {t t'} (tokens : t.Same t') (next next' : Option Token) :
      Alike (.joinField t next) (.joinField t' next')
  | entityAlias {t t'} (tokens : t.Same t') (free : isReserved t.value = false) :
      Alike (.entityAlias t) (.entityAlias t')
  | resultAlias {t t'} (tokens : t.Same t') (free : isReserved t.value = false) :
      Alike (.resultAlias t) (.resultAlias t')
  | variable {t t'} (tokens : t.Alike t') : Alike (.variable t) (.variable t')
  | path {a a' f f'} (aliases : a.Alike a') (fields : f.value = f'.value) (allowsCollection : Bool) :
      Alike (.path a f allowsCollection) (.path a' f' allowsCollection)

/-- Mentions that are alike, or two uses of properties. -/
inductive Mention.Loose : Mention → Mention → Prop
  | alike {m m'} (strictly : m.Alike m') : Loose m m'
  | path (a a' f f' : Token) (c c' : Bool) : Loose (.path a f c) (.path a' f' c')

/-- Where the readers stand: what is left is alike, what was noted is related by `R`, and `K` holds
    of the tokens before, in reverse, and the tokens after. -/
structure Cursor.Meets (R : Mention → Mention → Prop) (K : List Token → List Token → Prop)
    (c c' : Cursor) : Prop where
  before : ∃ before, Token.alikeFrom before c.rest c'.rest = true ∧ K before c.rest
  mentions : List.Forall₂ R c.mentions c'.mentions

abbrev Cursor.InStep : Cursor → Cursor → Prop :=
  Cursor.Meets Mention.Alike fun _ _ => True

/-- What is left of the agreement where both readers fail. -/
def Cursor.Failed (_ _ : Fault) (c c' : Cursor) : Prop :=
  List.Forall₂ Mention.Loose c.mentions c'.mentions

namespace Cursor.Meets

variable {R : Mention → Mention → Prop} {K K' : List Token → List Token → Prop} {c c' : Cursor}

theorem imp (meets : c.Meets R K c') (weaker : ∀ {before}, K before c.rest → K' before c.rest) :
    c.Meets R K' c' := by
  obtain ⟨⟨before, alike, here⟩, mentions⟩ := meets
  exact ⟨⟨before, alike, weaker here⟩, mentions⟩

theorem inStep (meets : c.Meets Mention.Alike K c') : c.InStep c' :=
  meets.imp fun _ => trivial

theorem length_eq (meets : c.Meets R K c') : c.rest.length = c'.rest.length := by
  obtain ⟨⟨_, alike, -⟩, -⟩ := meets
  exact Token.length_of_alikeFrom alike

theorem ahead (meets : c.Meets R K c') (offset : Nat) :
    Option.Rel Token.Alike c.rest[offset]? c'.rest[offset]? := by
  obtain ⟨⟨before, alike, -⟩, -⟩ := meets
  generalize c.rest = ts at alike ⊢
  generalize c'.rest = ts' at alike ⊢
  induction ts generalizing before ts' offset with
  | nil =>
    cases ts' with
    | nil => exact .none
    | cons => cases alike
  | cons t rest ih =>
    cases ts' with
    | nil => cases alike
    | cons t' rest' =>
      obtain ⟨here, onward⟩ := Token.alikeFrom_cons.mp alike
      cases offset with
      | zero => exact .some here.alike
      | succ offset => exact ih offset _ _ onward

theorem note {m m'} (meets : c.Meets R K c') (related : R m m') :
    Cursor.Meets R K ⟨c.rest, c.mentions ++ [m]⟩ ⟨c'.rest, c'.mentions ++ [m']⟩ :=
  ⟨meets.before, List.rel_append meets.mentions (.cons related .nil)⟩

theorem loosely (meets : c.Meets Mention.Alike K c') : c.Meets Mention.Loose K c' :=
  ⟨meets.before, meets.mentions.imp fun _ _ => .alike⟩

end Cursor.Meets

namespace Read

variable {α β γ δ : Type} {R : Mention → Mention → Prop} {K K' : List Token → List Token → Prop}

variable {accept : Token → Bool} {A : α → β → Prop} {item : Read α} {item' : Read β} {t : Token}
variable {E : Fault → Fault → Cursor → Cursor → Prop}

theorem eat?_meets (respects : ∀ {t t'}, t.Alike t' → accept t = accept t') (taken : ∀ {before t
      rest t'}, K before (t :: rest) → accept t = true → Token.AlikeAt before t rest t' → F t t' ∧
      K' (t :: before) rest) :
    Couples (Cursor.Meets R K) (eat? accept) (eat? accept)
      (fun found found' c c' => (found = none ∧ found' = none ∧ c.Meets R K c') ∨
        ∃ t t', found = some t ∧ found' = some t' ∧ F t t' ∧ c.Meets R K' c') E := by
  rintro ⟨ts, noted⟩ ⟨ts', noted'⟩ meets
  -- The whole of `meets` is still wanted where no token is taken.
  obtain ⟨⟨before, alike, here⟩, mentions⟩ := id meets
  cases ts with
  | nil =>
    cases ts' with
    | nil => exact .ok (.inl ⟨rfl, rfl, meets⟩)
    | cons => cases alike
  | cons t rest =>
    cases ts' with
    | nil => cases alike
    | cons t' rest' =>
      obtain ⟨first, onward⟩ := Token.alikeFrom_cons.mp alike
      change Coupled _ _ ((if accept t = true then _ else _ : Read _) _)
        ((if accept t' = true then _ else _ : Read _) _)
      rw [← respects first.alike]
      cases approved : accept t with
      | false => exact .ok (.inl ⟨rfl, rfl, meets⟩)
      | true =>
        obtain ⟨tokens, after⟩ := taken here approved first
        exact .ok (.inr ⟨t, t', rfl, rfl, tokens, ⟨_, onward, after⟩, mentions⟩)

theorem eat?_keeps (respects : ∀ {t t'}, t.Alike t' → accept t = accept t')
    (kept : ∀ {before t rest}, K before (t :: rest) → accept t = true → K (t :: before) rest) :
    Couples (Cursor.Meets R K) (eat? accept) (eat? accept)
      (fun found found' c c' => found.isSome = found'.isSome ∧ c.Meets R K c') E := by
  have taken {before t rest t'} (here : K before (t :: rest)) (approved : accept t = true)
      (_ : Token.AlikeAt before t rest t') : True ∧ K (t :: before) rest :=
    ⟨trivial, kept here approved⟩
  refine (eat?_meets respects taken).mono id ?_
  rintro found found' c c' (⟨rfl, rfl, meets⟩ | ⟨t, t', rfl, rfl, -, meets⟩)
  · exact ⟨rfl, meets⟩
  · exact ⟨rfl, meets⟩

section

variable (loose : ∀ {m m'}, R m m' → m.Loose m')

include loose

theorem failExpected_meets {what} {Q : α → β → Cursor → Cursor → Prop} :
    Couples (Cursor.Meets R K) (failExpected what) (failExpected what) Q Cursor.Failed :=
  fun _ _ meets => .error (meets.mentions.imp fun _ _ => loose)

theorem expect_meets {name : String} (respects : ∀ {t t'}, t.Alike t' → accept t = accept t') (taken
      : ∀ {before t rest t'}, K before (t :: rest) → accept t = true → Token.AlikeAt before t rest
      t' → F t t' ∧ K' (t :: before) rest) :
    Couples (Cursor.Meets R K) (expect accept name) (expect accept name)
      (fun t t' c c' => F t t' ∧ c.Meets R K' c') Cursor.Failed := by
  refine (eat?_meets respects taken).bind fun found found' c c' => ?_
  rintro (⟨rfl, rfl, meets⟩ | ⟨t, t', rfl, rfl, tokens, meets⟩)
  · exact failExpected_meets loose meets
  · exact .ok ⟨tokens, meets⟩

theorem expectKind_meets {kind name}
    (taken : ∀ {before t rest t'}, K before
      (t :: rest) → t.kind = kind → Token.AlikeAt before t rest t' → F t t' ∧ K' (t :: before)
      rest) :
    Couples (Cursor.Meets R K) (expect (·.kind == kind) name) (expect (·.kind == kind) name)
      (fun t t' c c' => F t t' ∧ c.Meets R K' c') Cursor.Failed :=
  expect_meets loose (fun alike => by rw [alike.kind]) fun here approved =>
    taken here (eq_of_beq approved)

end

theorem skipKind_meets {kind} (name : String) (loose : ∀ {m m'}, R m m' → m.Loose m')
    (taken : ∀ {before t rest}, K before (t :: rest) → t.kind = kind → K' (t :: before) rest) :
    Couples (Cursor.Meets R K) (discard (expect (·.kind == kind) name))
      (discard (expect (·.kind == kind) name)) (fun _ _ => Cursor.Meets R K') Cursor.Failed :=
  Couples.map (expectKind_meets loose (F := fun _ _ => True) fun here found _ =>
    ⟨trivial, taken here found⟩) And.right

theorem note_meets {m m'} (related : R m m') :
    Couples (Cursor.Meets R K) (note m) (note m') (fun _ _ => Cursor.Meets R K) E :=
  .modifies fun meets => meets.note related

/-- Readers in step stay in step and give results related by `R`, or both fail. -/
class Agrees (x : Read α) (y : Read β) (R : outParam (α → β → Prop)) : Prop where
  agrees : Couples Cursor.InStep x y (fun a b c c' => R a b ∧ c.InStep c') Cursor.Failed

namespace Agrees

variable {x : Read α} {y : Read β} {A : α → β → Prop} {B : γ → δ → Prop}

theorem pure {a b} (related : A a b) : Agrees (Pure.pure a) (Pure.pure b) A :=
  ⟨Couples.pure fun step => ⟨related, step⟩⟩

theorem bind {f g} [h : Agrees x y A] (rest : ∀ a b, A a b → Agrees (f a) (g b) B) :
    Agrees (x >>= f) (y >>= g) B := by
  refine ⟨h.agrees.bind fun a b c c' => ?_⟩
  rintro ⟨related, step⟩
  exact (rest a b related).agrees step

theorem same {z z' : Read α} {f g} [h : Agrees z z' Eq] (rest : ∀ a, Agrees (f a) (g a) B) :
    Agrees (z >>= f) (z' >>= g) B := by
  refine .bind ?_
  rintro a _ rfl
  exact rest a

instance {a : α} : Agrees (Pure.pure a) (Pure.pure a) Eq :=
  .pure rfl

instance {z z' : Read α} {f g} [Agrees z z' Eq] [rest : ∀ a, Agrees (f a) (g a) B] :
    Agrees (z >>= f) (z' >>= g) B :=
  .same rest

instance {p : Prop} [Decidable p] {x' y'} [Agrees x y A] [Agrees x' y' A] :
    Agrees (if p then x else x') (if p then y else y') A := by
  split <;> infer_instance

theorem map {f g} [first : Agrees x y A] (rest : ∀ {a b}, A a b → B (f a) (g b)) :
    Agrees (f <$> x) (g <$> y) B :=
  ⟨first.agrees.map fun both => ⟨rest both.1, both.2⟩⟩

instance [Agrees x y A] : Agrees (some <$> x) (some <$> y) (Option.Rel A) :=
  .map .some

theorem discard (_ : Agrees x y A) : Agrees (Functor.discard x) (Functor.discard y) Eq :=
  .map fun _ => rfl

theorem counted {f : Nat → Read α} {g : Nat → Read β} (rest : ∀ n, Agrees (f n) (g n) A) :
    Agrees (do f ((← get).rest.length)) (do g ((← get).rest.length)) A := by
  refine ⟨fun c c' step => ?_⟩
  change Coupled _ _ (f c.rest.length c) (g c'.rest.length c')
  rw [← step.length_eq]
  exact (rest _).agrees step

theorem noting {m m' f g} (related : m.Alike m') (rest : Agrees (f ⟨⟩) (g ⟨⟩) B) :
    Agrees (note m >>= f) (note m' >>= g) B :=
  ⟨(note_meets related).bind fun _ _ _ _ step => rest.agrees step⟩

end Agrees

theorem agrees_failExpected {what} : Agrees (failExpected what) (failExpected what) A :=
  ⟨failExpected_meets .alike⟩

theorem agrees_failUnexpected : Agrees (failUnexpected (α := α)) failUnexpected A :=
  ⟨fun _ _ step => .error (step.mentions.imp fun _ _ => .alike)⟩

instance {offset} : Agrees (peekAt offset) (peekAt offset) (Option.Rel Token.Alike) :=
  ⟨fun _ _ step => .ok ⟨step.ahead offset, step⟩⟩

instance : Agrees peek peek (Option.Rel Token.Alike) := by
  refine ⟨fun c c' step => ?_⟩
  have next := step.ahead 0
  rw [← List.head?_eq_getElem?, ← List.head?_eq_getElem?] at next
  exact .ok ⟨next, step⟩

instance : Agrees advance advance Eq := by
  refine ⟨?_⟩
  rintro ⟨ts, noted⟩ ⟨ts', noted'⟩ step
  obtain ⟨⟨before, alike, -⟩, mentions⟩ := id step
  cases ts with
  | nil =>
    cases ts' with
    | nil => exact .error (mentions.imp fun _ _ => .alike)
    | cons => cases alike
  | cons t rest =>
    cases ts' with
    | nil => cases alike
    | cons t' rest' => exact .ok ⟨rfl, ⟨_, (Token.alikeFrom_cons.mp alike).2, trivial⟩, mentions⟩

theorem any_alike {test next next'} (respects : ∀ {t t'}, t.Alike t' → test t = test t')
    (tokens : Option.Rel Token.Alike next next') : next.any test = next'.any test := by
  cases tokens with
  | none => rfl
  | some alike => exact respects alike

theorem any_isWord {next next'} (tokens : Option.Rel Token.Alike next next') (word : String) :
    next.any (·.isWord word) = next'.any (·.isWord word) :=
  any_alike (fun alike => alike.isWord_eq word) tokens

theorem any_kind {next next'} (tokens : Option.Rel Token.Alike next next') (kind : TokenKind) :
    next.any (·.kind == kind) = next'.any (·.kind == kind) :=
  any_alike (fun alike => by rw [alike.kind]) tokens

instance {word} : Agrees (sees word) (sees word) Eq :=
  .bind fun _ _ tokens => .pure (any_isWord tokens word)

instance {word} : Agrees (eatWord word) (eatWord word) Eq :=
  ⟨(eat?_keeps (fun alike => alike.isWord_eq word) fun _ _ => trivial).map id⟩

instance {word} : Agrees (discard (eatWord word)) (discard (eatWord word)) Eq :=
  .discard inferInstance

theorem agrees_expect {name} (respects : ∀ {t t'}, t.Alike t' → accept t = accept t') :
    Agrees (expect accept name) (expect accept name) fun t t' => accept t = true ∧ t.Alike t' :=
  ⟨expect_meets .alike respects fun _ approved first => ⟨⟨approved, first.alike⟩, trivial⟩⟩

instance {word} : Agrees (expectWord word) (expectWord word) Eq :=
  (agrees_expect fun alike => alike.isWord_eq word).discard

instance agrees_expectKind {kind name} :
    Agrees (expect (·.kind == kind) name) (expect (·.kind == kind) name) Token.Alike :=
  ⟨expectKind_meets .alike fun _ _ first => ⟨first.alike, trivial⟩⟩

instance {kind name} :
    Agrees (discard (expect (·.kind == kind) name)) (discard (expect (·.kind == kind) name)) Eq :=
  .discard agrees_expectKind

instance : Agrees expectIdentifier expectIdentifier Token.Alike :=
  agrees_expectKind

def AfterDot (before _ : List Token) : Prop :=
  ∃ point earlier, before = point :: earlier ∧ point.kind = .dot

theorem expectDot_agrees :
    Couples Cursor.InStep expectDot expectDot
      (fun _ _ => Cursor.Meets Mention.Alike AfterDot) Cursor.Failed := by
  refine skipKind_meets "DOT" .alike ?_
  intro before t rest _ dotted
  exact ⟨t, before, rfl, dotted⟩

instance : Agrees (do expectDot; expectIdentifier) (do expectDot; expectIdentifier) Token.Same := by
  refine ⟨expectDot_agrees.bind fun _ _ => expectKind_meets .alike ?_⟩
  rintro before t after t' ⟨point, earlier, rfl, dotted⟩ - first
  exact ⟨first.same_of_dot dotted, trivial⟩

theorem Agrees.afterDot {f : Token → Read α} {g : Token → Read β}
    (rest : ∀ t t', t.Same t' → Agrees (f t) (g t') A) :
    Agrees (do expectDot; let t ← expectIdentifier; f t)
      (do expectDot; let t ← expectIdentifier; g t) A := by
  rw [← bind_assoc, ← bind_assoc]
  exact .bind rest

theorem commaListUpTo_couples {P}
    (items : Couples P item item' (fun a b c c' => A a b ∧ P c c') Cursor.Failed)
    (comma : Couples P (eatKind .comma) (eatKind .comma) (fun a b c c' => a = b ∧ P c c')
      Cursor.Failed) (fuel : Nat) :
    Couples P (commaListUpTo item fuel) (commaListUpTo item' fuel)
      (fun as bs c c' => List.Forall₂ A as bs ∧ P c c') Cursor.Failed := by
  induction fuel with
  | zero => exact Couples.pure fun step => ⟨.nil, step⟩
  | succ fuel ih =>
    refine items.bind fun a b c c' => ?_
    rintro ⟨head, step⟩
    refine comma.bind (fun seen seen' => ?_) step
    rintro d d' ⟨rfl, step⟩
    cases seen with
    | false => exact .ok ⟨.cons head .nil, step⟩
    | true =>
      refine ih.bind (fun as bs => ?_) step
      exact Couples.pure fun both => ⟨.cons head both.1, both.2⟩

theorem comma_meets
    (kept : ∀ {before t rest}, t.kind = .comma → K before (t :: rest) → K (t :: before) rest) :
    Couples (Cursor.Meets R K) (eatKind .comma) (eatKind .comma)
      (fun seen seen' c c' => seen = seen' ∧ c.Meets R K c') Cursor.Failed := by
  refine (eat?_keeps (fun alike => by rw [alike.kind]) ?_).map id
  intro before t rest here approved
  exact kept (eq_of_beq approved) here

theorem commaList_meets
    (kept : ∀ {before t rest}, t.kind = .comma → K before (t :: rest) → K (t :: before) rest)
    (items : Couples (Cursor.Meets R K) item item' (fun a b c c' => A a b ∧ c.Meets R K c')
      Cursor.Failed) :
    Couples (Cursor.Meets R K) (commaList item) (commaList item')
      (fun as bs c c' => List.Forall₂ A as bs ∧ c.Meets R K c') Cursor.Failed := by
  intro c c' meets
  change Coupled _ _ (commaListUpTo item (c.rest.length + 1) c)
    (commaListUpTo item' (c'.rest.length + 1) c')
  rw [← meets.length_eq]
  exact commaListUpTo_couples items (comma_meets kept) _ meets

section

variable {more more' : Read Bool} [Agrees more more' Eq] [items : Agrees item item' A]
  {word : String}

instance : Agrees (commaList item) (commaList item') (List.Forall₂ A) :=
  ⟨commaList_meets (fun _ _ => trivial) items.agrees⟩

instance agrees_whileUpTo (fuel : Nat) :
    Agrees (whileUpTo more item fuel) (whileUpTo more' item' fuel) (List.Forall₂ A) := by
  induction fuel with
  | zero => exact .pure .nil
  | succ fuel ih =>
    refine .same fun go => ?_
    cases go with
    | false => exact .pure .nil
    | true => exact .bind fun a b head => .bind fun as bs onward => .pure (.cons head onward)

instance : Agrees (whileSeen more item) (whileSeen more' item') (List.Forall₂ A) :=
  .counted fun n => agrees_whileUpTo (n + 1)

instance : Agrees (optionally word item) (optionally word item') (Option.Rel A) := by
  refine .same fun seen => ?_
  cases seen with
  | false => exact .pure .none
  | true => exact .bind fun _ _ related => .pure (.some related)

instance : Agrees (byClause word item) (byClause word item') (List.Forall₂ A) := by
  refine .same fun seen => ?_
  cases seen with
  | false => exact .pure .nil
  | true => exact .same fun _ => inferInstance

end

theorem agrees_aliasName {mention}
    (related : ∀ {t t'}, t.Same t' → isReserved t.value = false → (mention t).Alike (mention t')) :
    Agrees (aliasName mention) (aliasName mention) Eq := by
  refine .bind (h := agrees_expect fun alike => alike.isAlias_eq) ?_
  rintro t t' ⟨named, alike⟩
  have same := alike.same_of_isAlias named
  have free : isReserved t.value = false := by
    simp only [Token.isAlias, Bool.and_eq_true, Bool.not_eq_true'] at named
    exact named.2
  exact .noting (related same free) (.pure same.value)

instance : Agrees (aliasName .entityAlias) (aliasName .entityAlias) Eq :=
  agrees_aliasName .entityAlias

instance : Agrees (aliasName .resultAlias) (aliasName .resultAlias) Eq :=
  agrees_aliasName .resultAlias

instance : Agrees className className fun _ _ => True :=
  .bind (h := agrees_expect fun alike => alike.isName_eq) fun _ _ both =>
    .noting (.className both.2) (.pure trivial)

instance : Agrees simplePath simplePath PropertyPath.Alike := by
  refine .bind fun a a' aliases => .afterDot fun f f' fields => ?_
  exact .noting (.path aliases fields.value false) (.pure ⟨aliases.value, fields.value⟩)

instance : Agrees indexBy indexBy (Option.Rel PropertyPath.Alike) := by
  unfold indexBy; infer_instance

instance : Agrees pathParts pathParts (List.Forall₂ Token.Same) := by
  have looks : Agrees (do return (← peek).any (·.kind == .dot))
      (do return (← peek).any (·.kind == .dot)) Eq :=
    .bind fun _ _ tokens => .pure (any_kind tokens .dot)
  unfold pathParts; infer_instance

instance : Agrees seesEmptinessTest seesEmptinessTest Eq := by
  refine .bind fun second second' seconds => .bind fun third third' thirds => ?_
  refine .same fun seen => .pure ?_
  rw [any_isWord seconds, any_isWord seconds, any_isWord thirds]

theorem allowsCollection_alike {e e'} (alike : ExpressionAlike e e') :
    allowsCollection e = allowsCollection e' := by
  have reversed := List.rel_reverse alike
  unfold allowsCollection
  generalize e.reverse = pieces at reversed ⊢
  generalize e'.reverse = pieces' at reversed ⊢
  cases reversed with
  | nil => rfl
  | @cons piece _ _ _ here onward =>
    cases here with
    | same =>
      cases piece with
      | keyword word => by_cases of : word = "OF" <;> simp [of]
      | opening =>
        cases onward with
        | nil => rfl
        | @cons next _ _ _ second _ =>
          cases second with
          | same => cases next <;> rfl
          | _ => rfl
      | _ => rfl
    | _ => rfl

theorem agrees_path {before before'} (alike : ExpressionAlike before before') :
    Agrees (path before) (path before') PieceAlike := by
  refine .bind fun a a' aliases => .bind fun parts parts' same => ?_
  have reversed := List.rel_reverse same
  generalize parts.reverse = backwards at reversed ⊢
  generalize parts'.reverse = backwards' at reversed ⊢
  cases reversed with
  | nil => exact agrees_failExpected
  | cons here onward =>
    have fields := Token.values_eq (List.rel_reverse (List.Forall₂.cons here onward))
    refine .same fun seen => ?_
    simp only [fields, allowsCollection_alike alike]
    exact .noting (.path aliases (by rfl) _) (.pure (.path ⟨aliases.value, rfl⟩))

def InBraces (before after : List Token) : Prop :=
  Token.opensBrace before = true ∧ Token.closesBrace after = true

def Opened (before _ : List Token) : Prop :=
  Token.opensBrace before = true

/-- The next curly bracket, if any, is not a closing one. -/
def Unclosed (_ after : List Token) : Prop :=
  Token.closesBrace after = false

theorem closesBrace_cons (rest : List Token) (plain : t.isBrace = false) :
    Token.closesBrace (t :: rest) = Token.closesBrace rest := by
  rw [Token.closesBrace, Token.closesBrace, List.find?_cons_of_neg (by rw [plain]; decide)]

theorem opensBrace_cons (before : List Token) (plain : t.isBrace = false) :
    Token.opensBrace (t :: before) = Token.opensBrace before := by
  rw [Token.opensBrace, Token.opensBrace, List.find?_cons_of_neg (by rw [plain]; decide)]

theorem isBrace_of_identifier (word : t.kind = .identifier) : t.isBrace = false := by
  rw [Token.isBrace, word]
  rfl

theorem isBrace_of_comma (comma : t.kind = .comma) : t.isBrace = false := by
  rw [Token.isBrace, comma]
  rfl

theorem InBraces.past {before rest} (plain : t.isBrace = false)
    (here : InBraces before (t :: rest)) :
    InBraces (t :: before) rest := by
  rw [InBraces, opensBrace_cons before plain, ← closesBrace_cons rest plain]
  exact here

theorem Unclosed.past {before rest} (plain : t.isBrace = false)
    (here : Unclosed before (t :: rest)) :
    Unclosed (t :: before) rest := by
  rw [Unclosed, ← closesBrace_cons rest plain]
  exact here

def partialFields (aliasName : Token) : Read Piece := do
  let fields ← commaList (partialField aliasName)
  discard (expect (·.kind == .closeCurly) "CLOSE_CURLY_BRACE")
  return .partialObject aliasName.value fields

theorem partialField_inBraces {a a'} (aliases : a.Alike a') :
    Couples (Cursor.Meets Mention.Alike InBraces) (partialField a) (partialField a')
      (fun f f' c c' => f = f' ∧ c.Meets Mention.Alike InBraces c') Cursor.Failed := by
  have taken {before t rest t'} (here : InBraces before (t :: rest))
      (word : t.kind = .identifier) (first : Token.AlikeAt before t rest t') :
      t.Same t' ∧ InBraces (t :: before) rest := by
    have plain := isBrace_of_identifier word
    refine ⟨first.same_of_braces here.1 ?_, here.past plain⟩
    rw [← closesBrace_cons rest plain]
    exact here.2
  refine (expectKind_meets .alike taken).bind fun f f' c c' => ?_
  rintro ⟨fields, meets⟩
  refine (note_meets (.path aliases fields.value false)).bind (fun _ _ => ?_) meets
  exact Couples.pure fun meets => ⟨fields.value, meets⟩

theorem partialField_unclosed (a a' : Token) :
    Couples (Cursor.Meets Mention.Loose Unclosed) (partialField a) (partialField a')
      (fun _ _ c c' => True ∧ c.Meets Mention.Loose Unclosed c') Cursor.Failed := by
  have taken {before t rest t'} (here : Unclosed before (t :: rest))
      (word : t.kind = .identifier) (_ : Token.AlikeAt before t rest t') :
      True ∧ Unclosed (t :: before) rest :=
    ⟨trivial, here.past (isBrace_of_identifier word)⟩
  refine (expectKind_meets id taken).bind fun f f' c c' => ?_
  rintro ⟨-, meets⟩
  refine (note_meets (.path a a' f f' false false)).bind (fun _ _ => ?_) meets
  exact Couples.pure fun meets => ⟨trivial, meets⟩

theorem partialFields_inBraces {a a'} (aliases : a.Alike a') :
    Couples (Cursor.Meets Mention.Alike InBraces) (partialFields a) (partialFields a')
      (fun p p' c c' => PieceAlike p p' ∧ c.InStep c') Cursor.Failed := by
  refine (commaList_meets (fun comma here => here.past (isBrace_of_comma comma))
    (partialField_inBraces aliases)).bind fun fields fields' c c' => ?_
  rintro ⟨same, meets⟩
  rw [List.forall₂_eq_eq_eq] at same
  subst same
  refine @Agrees.agrees _ _ _ _ _ ?_ _ _ meets.inStep
  exact .same fun _ => .pure (.partialObject _ _ fields)

theorem partialFields_unclosed (a a' : Token) :
    Couples (Cursor.Meets Mention.Loose Unclosed) (partialFields a) (partialFields a')
      (fun _ _ _ _ => False) Cursor.Failed := by
  refine (commaList_meets (fun comma here => here.past (isBrace_of_comma comma))
    (partialField_unclosed a a')).bind fun fields fields' c c' => ?_
  rintro ⟨-, meets⟩
  have closing {before t rest} (here : Unclosed before (t :: rest))
      (closing : t.kind = .closeCurly) : False := by
    simp [Unclosed, Token.closesBrace, Token.isBrace, closing] at here
  have skipped : Couples (Cursor.Meets Mention.Loose Unclosed) _ _
      (fun _ _ => Cursor.Meets Mention.Loose fun _ _ => False) Cursor.Failed :=
    skipKind_meets "CLOSE_CURLY_BRACE" id closing
  refine skipped.bind ?_ meets
  rintro _ _ _ _ ⟨⟨_, _, impossible⟩, _⟩
  exact impossible.elim

instance : Agrees partialObject partialObject PieceAlike := by
  refine .bind fun a a' aliases => .noting (.variable aliases) ⟨?_⟩
  have opening {before t rest} (_ : AfterDot before (t :: rest)) (opening : t.kind = .openCurly) :
      Opened (t :: before) rest := by
    simp [Opened, Token.opensBrace, Token.isBrace, opening]
  refine expectDot_agrees.bind fun _ _ => (skipKind_meets _ .alike opening).bind ?_
  intro _ _ c c' meets
  -- Only brackets that are closed fix the case of the fields; the others are no fields at all.
  cases closes : Token.closesBrace c.rest with
  | true => exact partialFields_inBraces aliases (meets.imp fun opens => ⟨opens, closes⟩)
  | false =>
    refine (partialFields_unclosed a a').mono id (fun impossible => impossible.elim) ?_
    exact meets.loosely.imp fun _ => closes

structure Progress.Alike (p p' : Progress) : Prop where
  pieces : ExpressionAlike p.pieces p'.pieces
  depth : p.depth = p'.depth
  afterOperand : p.afterOperand = p'.afterOperand
  classNext : p.classNext = p'.classNext

inductive Action.Alike : Action → Action → Prop
  | same (action : Action) : Alike action action
  | take {p p'} (progress : p.Alike p') : Alike (.take p) (.take p')

namespace Progress.Alike

variable {p p' : Progress}

theorem refl (p : Progress) : p.Alike p :=
  ⟨List.forall₂_same.mpr fun piece _ => .same piece, rfl, rfl, rfl⟩

variable (alike : p.Alike p')

include alike

theorem push {piece piece'} (pieces : PieceAlike piece piece') (operand : Bool) :
    (p.push piece operand).Alike (p'.push piece' operand) :=
  ⟨List.rel_append alike.pieces (.cons pieces .nil), alike.depth, rfl, alike.classNext⟩

theorem endsIn_eq (word : String) : p.endsIn word = p'.endsIn word := by
  have reversed := List.rel_reverse alike.pieces
  rw [Progress.endsIn, Progress.endsIn, List.getLast?_eq_head?_reverse,
    List.getLast?_eq_head?_reverse]
  generalize p.pieces.reverse = pieces at reversed ⊢
  generalize p'.pieces.reverse = pieces' at reversed ⊢
  cases reversed with
  | nil => rfl
  | cons here _ => exact here.isWord_eq word

theorem isEmpty_eq : p.pieces.isEmpty = p'.pieces.isEmpty := by
  have pieces := alike.pieces
  generalize p.pieces = e at pieces ⊢
  generalize p'.pieces = e' at pieces ⊢
  cases pieces <;> rfl

theorem ending : p.ending.Alike p'.ending := by
  rw [Progress.ending, Progress.ending, alike.depth]
  exact .same _

theorem onKeyword (word : String) :
    (p.onKeyword word).Alike (p'.onKeyword word) := by
  unfold Progress.onKeyword
  rw [← alike.depth, ← alike.classNext, ← alike.endsIn_eq]
  split
  · split
    · exact .take (alike.push (.same _) _)
    · exact alike.ending
  · split
    · exact alike.ending
    · split
      · exact .same _
      · exact .take { alike.push (.same _) _ with classNext := rfl }

theorem onName (name : String) (next : Option TokenKind) :
    (p.onName name next).Alike (p'.onName name next) := by
  unfold Progress.onName
  rw [← alike.afterOperand, ← alike.classNext]
  split
  · exact alike.ending
  · split
    · exact .take { alike.push (.same _) _ with classNext := rfl }
    · split
      · exact .same _
      · exact .take (alike.push (.same _) _)
      · exact .same _

theorem onLiteral (piece : Piece) :
    (p.onLiteral piece).Alike (p'.onLiteral piece) := by
  unfold Progress.onLiteral
  rw [← alike.afterOperand]
  split
  · exact alike.ending
  · exact .take (alike.push (.same _) _)

theorem action {t'} (tokens : t.Alike t') {next next'} (nexts : Option.Rel Token.Alike next next') :
    (p.action t next).Alike (p'.action t' next') := by
  have kinds : next.map (·.kind) = next'.map (·.kind) := by
    cases nexts with
    | none => rfl
    | some here => exact congrArg some here.kind
  unfold Progress.action
  rw [← tokens.kind, ← alike.depth, ← alike.afterOperand, ← any_isWord nexts, ← kinds,
    ← tokens.value.isReserved_eq, ← tokens.raiseCase_eq]
  cases kind : t.kind with
  | identifier =>
    simp only
    split
    · exact alike.onKeyword _
    · rename_i free
      rw [← tokens.value.eq_of_not_isReserved (Bool.eq_false_iff.mpr free)]
      exact alike.onName _ _
  | closeParen =>
    simp only
    split
    · exact .same _
    · exact .take { alike.push (.same _) _ with depth := rfl }
  | openParen =>
    simp only
    split
    · exact alike.ending
    · split
      · exact .same _
      · exact .take { alike.push (.same _) _ with depth := rfl }
  | comma =>
    simp only
    split
    · exact .same _
    · exact .take (alike.push (.same _) _)
  | dot | openCurly | closeCurly | unknown => exact .same _
  | qualifiedName =>
    rw [← tokens.literal (by rw [kind]; decide)]
    exact alike.onName _ _
  | integer | float | string | parameter =>
    rw [← tokens.literal (by rw [kind]; decide)]
    exact alike.onLiteral _
  | operator =>
    rw [← tokens.literal (by rw [kind]; decide)]
    exact .take (alike.push (.same _) _)

end Progress.Alike

theorem agrees_finish {p p'} (alike : p.Alike p') :
    Agrees (finish p) (finish p') ExpressionAlike := by
  unfold finish
  rw [← alike.isEmpty_eq]
  split
  · exact agrees_failUnexpected
  · exact .pure alike.pieces

theorem agrees_outOfTokens {p p'} (alike : p.Alike p') :
    Agrees (if p.depth = 0 then finish p else failExpected (.token "CLOSE_PARENTHESIS"))
      (if p'.depth = 0 then finish p' else failExpected (.token "CLOSE_PARENTHESIS"))
      ExpressionAlike := by
  rw [← alike.depth]
  split
  · exact agrees_finish alike
  · exact agrees_failExpected

section

variable {sub sub' : Read Select} [Agrees sub sub' SelectAlike]

theorem agrees_scan (fuel : Nat) {p p'} (alike : p.Alike p') :
    Agrees (scan sub fuel p) (scan sub' fuel p') ExpressionAlike := by
  induction fuel generalizing p p' with
  | zero => exact agrees_outOfTokens alike
  | succ fuel ih =>
    refine .bind fun next next' tokens => ?_
    cases tokens with
    | none => exact agrees_outOfTokens alike
    | @some t t' tokens =>
      refine .bind fun next next' nexts => ?_
      have actions := alike.action tokens nexts
      -- The action alone decides how either reader goes on.
      generalize p.action t next = action at actions ⊢
      generalize p'.action t' next' = action' at actions ⊢
      cases actions with
      | take progress => exact .same fun _ => ih progress
      | same =>
        cases action with
        | stop => exact agrees_finish alike
        | unclosed => exact agrees_failExpected
        | reject => exact agrees_failUnexpected
        | take q => exact .same fun _ => ih (.refl q)
        | «variable» =>
          refine .same fun _ => .noting (.variable tokens) ?_
          exact ih (alike.push (.word tokens.value) true)
        | path =>
          exact .bind (h := agrees_path alike.pieces) fun piece piece' pieces =>
            ih (alike.push pieces true)
        | partialObject =>
          exact .same fun _ => .bind fun piece piece' pieces => ih (alike.push pieces true)
        | subselect =>
          refine .same fun _ => .bind fun query query' queries => .same fun _ => ?_
          exact ih (alike.push (.subselect queries) true)

instance : Agrees (expression sub) (expression sub') ExpressionAlike :=
  .counted fun fuel => agrees_scan fuel (.refl {})

instance : Agrees (selectItem sub) (selectItem sub') ItemAlike := by
  refine .bind fun expr expr' exprs => .same fun named => ?_
  have naming (next next' : Option Token) (tokens : Option.Rel Token.Alike next next') : Agrees
      (if (named || next.any (·.isAlias)) = true then
        do return (⟨expr, some (← aliasName .resultAlias)⟩ : SelectItem Expression)
      else return ⟨expr, none⟩)
      (if (named || next'.any (·.isAlias)) = true then
        do return (⟨expr', some (← aliasName .resultAlias)⟩ : SelectItem Expression)
      else return ⟨expr', none⟩) ItemAlike := by
    rw [← any_alike (fun alike => alike.isAlias_eq) tokens]
    split
    · exact .same fun name => .pure (.mk exprs)
    · exact .pure (.mk exprs)
  cases named with
  | true => exact .same fun _ => .bind naming
  | false => exact .bind naming

instance : Agrees joinTarget joinTarget JoinTarget.Alike := by
  refine .bind fun next next' tokens => .bind fun second second' seconds => ?_
  rw [← any_kind tokens, ← any_kind seconds]
  split
  · refine .bind fun parent parent' parents => .bind fun after after' _ => ?_
    refine .noting (.joinRoot parents after after') (.afterDot fun field field' fields => ?_)
    refine .bind fun after after' _ => .noting (.joinField fields after after') ?_
    exact .pure (.association ⟨parents.value, fields.value⟩)
  · exact .bind fun _ _ _ => .pure (.entity _ _)

instance : Agrees (join sub) (join sub') JoinAlike := by
  refine .same fun isLeft => .same fun _ => .same fun _ => .bind fun target target' targets => ?_
  refine .same fun _ => .same fun name => .bind fun _ _ _ => .same fun seen => ?_
  cases seen with
  | true | false => exact .bind fun _ _ conditions => .pure (.mk targets conditions)

instance : Agrees seesJoin seesJoin Eq := by unfold seesJoin; infer_instance

instance : Agrees bareRange bareRange RangeAlike :=
  .bind fun _ _ _ => .same fun _ => .same fun _ => .bind fun _ _ _ => .pure (.mk .nil)

instance : Agrees (range sub) (range sub') RangeAlike := by
  refine .bind fun bare bare' ranges => .bind fun joins joins' all => ?_
  cases ranges
  exact .pure (.mk all)

instance : Agrees direction direction Eq := by unfold direction; infer_instance

instance : Agrees (orderItem sub) (orderItem sub') OrderAlike :=
  .bind fun _ _ exprs => .same fun _ => .pure (.mk exprs)

instance : Agrees (selectWith sub) (selectWith sub') SelectAlike := by
  refine .same fun _ => .same fun isDistinct => .bind fun items items' listed => ?_
  refine .same fun _ => .bind fun ranges ranges' ranged => .bind fun filter filter' filtered => ?_
  refine .bind fun groups groups' grouped => .bind fun limit limit' limited => ?_
  exact .bind fun orders orders' ordered =>
    .pure (.mk listed ranged filtered grouped limited ordered)

end

instance agrees_selectUpTo (depth : Nat) :
    Agrees (selectUpTo depth) (selectUpTo depth) SelectAlike := by
  induction depth with
  | zero => exact agrees_failUnexpected
  | succ depth ih => exact inferInstanceAs (Agrees (selectWith _) (selectWith _) _)

instance : Agrees select select SelectAlike :=
  .counted fun n => agrees_selectUpTo (n + 1)

instance : Agrees assignment assignment AssignmentAlike := by
  have equals {t t' : Token} (alike : t.Alike t') :
      (t.kind == .operator && t.value == "=") = (t'.kind == .operator && t'.value == "=") := by
    rw [← alike.kind]
    cases operator : t.kind == .operator with
    | false => rfl
    | true =>
      rw [alike.literal]
      intro word
      rw [word] at operator
      cases operator
  refine .bind fun target target' paths => .same (h := (agrees_expect equals).discard) fun _ => ?_
  exact .bind fun _ _ values => .pure (.mk paths values)

instance : Agrees update update StatementAlike := by
  refine .same fun _ => .bind fun range range' ranges => .same fun _ => ?_
  refine .bind fun assignments assignments' assigned => .bind fun _ _ filtered => ?_
  exact .pure (.update ranges assigned filtered)

instance : Agrees delete delete StatementAlike := by
  refine .same fun _ => .same fun _ => .bind fun range range' ranges => ?_
  exact .bind fun _ _ filtered => .pure (.delete ranges filtered)

theorem agrees_ended (s s' : Statement) (statements : StatementAlike s s') :
    Agrees
      (do
        if (← peek).isSome then
          failExpected .endOfText
        return s)
      (do
        if (← peek).isSome then
          failExpected .endOfText
        return s') StatementAlike := by
  refine .bind fun next next' tokens => ?_
  cases tokens with
  | none => exact .pure statements
  | some => exact agrees_failExpected

instance agrees_statement : Agrees statement statement StatementAlike := by
  refine .same fun selects => .same fun updates => .same fun deletes => ?_
  cases selects with
  | true => exact .bind (h := .map .select) agrees_ended
  | false =>
    cases updates with
    | true => exact .bind agrees_ended
    | false =>
      cases deletes with
      | true => exact .bind agrees_ended
      | false => exact .bind (h := agrees_failExpected) agrees_ended

end Read

theorem Reading.ofTokens_alike {ts ts'} (alike : Token.alikeFrom [] ts ts' = true) :
    (∃ s s', (Reading.ofTokens ts).outcome = .ok s ∧ (Reading.ofTokens ts').outcome = .ok s' ∧
      StatementAlike s s' ∧
      List.Forall₂ Mention.Alike (Reading.ofTokens ts).mentions (Reading.ofTokens ts').mentions) ∨
    ∃ e e', (Reading.ofTokens ts).outcome = .error e ∧ (Reading.ofTokens ts').outcome = .error e' ∧
      List.Forall₂ Mention.Loose (Reading.ofTokens ts).mentions
        (Reading.ofTokens ts').mentions := by
  have start : Cursor.InStep { rest := ts } { rest := ts' } := ⟨⟨[], alike, trivial⟩, .nil⟩
  have run := Read.agrees_statement.agrees start
  unfold Reading.ofTokens
  generalize Read.statement { rest := ts } = left at run ⊢
  generalize Read.statement { rest := ts' } = right at run ⊢
  cases run with
  | ok both => exact .inl ⟨_, _, rfl, rfl, both.1, both.2.mentions⟩
  | error failed => exact .inr ⟨_, _, rfl, rfl, failed⟩

end EntityAudit.Query
