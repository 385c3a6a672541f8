import EntityAudit.Proofs.Query.Balance
import EntityAudit.Proofs.Query.WordCase

/-! # Texts that part

Two texts agree up to a seam and go on differently after it. What a reader takes before the seam of
the one text it takes in the other one as well. Expressions only look one token ahead, for a point
or a parenthesis; clauses look for their first word, so they need the same token after the seam in
both texts.
-/

namespace EntityAudit.Query

/-- Mentions of the same names in the same place. -/
inductive Mention.Same : Mention → Mention → Prop
  | className {t t'} (tokens : t.Same t') : Same (.className t) (.className t')
  | joinRoot {t t' next next'} (tokens : t.Same t') : Same (.joinRoot t next) (.joinRoot t' next')
  | joinField {t t' next next'} (tokens : t.Same t') :
      Same (.joinField t next) (.joinField t' next')
  | entityAlias {t t'} (tokens : t.Same t') : Same (.entityAlias t) (.entityAlias t')
  | resultAlias {t t'} (tokens : t.Same t') : Same (.resultAlias t) (.resultAlias t')
  | variable {t t'} (tokens : t.Same t') : Same (.variable t) (.variable t')
  | path {a a' f f' collection} (aliases : a.Same a') (fields : f.Same f') :
      Same (.path a f collection) (.path a' f' collection)

/-- The second text mentions what the first one does, in order, and `extra` things in between. -/
inductive Mention.Widened (extra : Mention → Prop) : List Mention → List Mention → Prop
  | nil : Widened extra [] []
  | both {ms ms' m m'} (soFar : Widened extra ms ms') (same : Mention.Same m m') :
      Widened extra (ms ++ [m]) (ms' ++ [m'])
  | more {ms ms' m} (soFar : Widened extra ms ms') (added : extra m) :
      Widened extra ms (ms' ++ [m])

theorem Mention.Widened.append {extra ms ms' added} (soFar : Widened extra ms ms')
    (all : ∀ m ∈ added, extra m) : Widened extra ms (ms' ++ added) := by
  induction added generalizing ms' with
  | nil => rwa [List.append_nil]
  | cons m rest ih =>
    rw [List.append_cons]
    exact ih (soFar.more (all m List.mem_cons_self)) fun m later =>
      all m (List.mem_cons_of_mem _ later)

theorem isReserved_of_mem_clauseWords {word} (clause : Text.raiseCase word ∈ Read.clauseWords) :
    isReserved word = true := by
  have all : ∀ word ∈ Read.clauseWords, reservedWords.contains word = true := by decide
  exact all _ clause

namespace Token

variable {t t' : Token}

theorem forall₂_same_of_map_eq {ts ts'}
    (same : ts.map (fun t => (t.kind, t.value)) = ts'.map fun t => (t.kind, t.value)) :
    List.Forall₂ Same ts ts' := by
  rw [← List.forall₂_eq_eq_eq, List.forall₂_map_left_iff, List.forall₂_map_right_iff] at same
  exact same.imp fun _ _ both => ⟨congrArg Prod.fst both, congrArg Prod.snd both⟩

theorem rel_head_of_same {ts ts'} (same : List.Forall₂ Same ts ts') :
    Option.Rel Same ts.head? ts'.head? := by
  cases same with
  | nil => exact .none
  | cons here _ => exact .some here

theorem Same.isWord_eq (same : t.Same t') (word : String) : t.isWord word = t'.isWord word := by
  rw [isWord, isWord, same.kind, same.value]

theorem Same.isAlias_eq (same : t.Same t') : t.isAlias = t'.isAlias := by
  rw [isAlias, isAlias, same.kind, same.value]

theorem Same.isName_eq (same : t.Same t') : t.isName = t'.isName := by
  rw [isName, isName, same.kind]

/-- Whether the token divides items, closes a parenthesis or starts a clause, so that an expression
    in no parentheses ends before it. -/
def isDivider (t : Token) : Bool :=
  t.kind == .comma || t.kind == .closeParen ||
    t.kind == .identifier && Read.clauseWords.contains (Text.raiseCase t.value)

theorem Same.isDivider_eq (same : t.Same t') : t.isDivider = t'.isDivider := by
  rw [isDivider, isDivider, same.kind, same.value]

theorem all_isDivider_eq {next next'} (heads : Option.Rel Same next next') :
    next.all isDivider = next'.all isDivider := by
  cases heads with
  | none => rfl
  | some same => exact same.isDivider_eq

theorem isDivider_of_isWord {word} (is : t.isWord word = true) (clause : word ∈ Read.clauseWords) :
    t.isDivider = true := by
  simp only [isWord, Bool.and_eq_true, beq_iff_eq] at is
  simp [isDivider, is.1, is.2, clause]

/-- Whether nothing that precedes the token is read differently because of it. -/
def isQuiet (t : Token) : Bool :=
  !(t.kind == .dot || t.kind == .openParen || ["SELECT", "IS", "NOT", "EMPTY"].any t.isWord)

theorem not_isWord_of_isDivider (divides : t.isDivider = true) {word}
    (other : word ∉ Read.clauseWords) : t.isWord word = false := by
  by_contra is
  simp only [Bool.not_eq_false, isWord, Bool.and_eq_true, beq_iff_eq] at is
  simp [isDivider, is.1, is.2, other] at divides

theorem isQuiet_of_isDivider (divides : t.isDivider = true) : t.isQuiet = true := by
  have words : ["SELECT", "IS", "NOT", "EMPTY"].any t.isWord = false := by
    simp only [List.any_eq_false, List.mem_cons, List.not_mem_nil, or_false, Bool.not_eq_true]
    rintro word (rfl | rfl | rfl | rfl) <;> exact not_isWord_of_isDivider divides (by decide)
  have kinds : t.kind ≠ .dot ∧ t.kind ≠ .openParen := by
    constructor <;> rintro kind <;> simp [isDivider, kind] at divides
  simp [isQuiet, words, kinds]

theorem not_isAlias_of_isDivider (divides : t.isDivider = true) : t.isAlias = false := by
  by_contra named
  simp only [Bool.not_eq_false, isAlias, Bool.and_eq_true, beq_iff_eq, Bool.not_eq_true'] at named
  simp only [isDivider, named.1, beq_self_eq_true, Bool.true_and, reduceCtorEq, beq_iff_eq,
    Bool.or_eq_true, false_or, or_false, List.contains_eq_mem, decide_eq_true_eq] at divides
  rw [isReserved_of_mem_clauseWords divides] at named
  cases named.2

end Token

/-- Where two texts part: what follows there in the first one and in the second one. What only the
    second text mentions is `extra`. -/
structure Seam where
  after : List Token
  after' : List Token
  extra : Mention → Prop

namespace Seam

/-- The cursors have the same tokens before the seam. -/
inductive Holds (k : Seam) : Cursor → Cursor → Prop
  | intro {u u' ms ms'} (tokens : List.Forall₂ Token.Same u u')
      (mentions : Mention.Widened k.extra ms ms') :
      Holds k ⟨u ++ k.after, ms⟩ ⟨u' ++ k.after', ms'⟩

/-- Expressions cannot tell from what follows the seam on which side they are. -/
class Quiet (k : Seam) : Prop where
  quiet : k.after.head?.all Token.isQuiet = true
  quiet' : k.after'.head?.all Token.isQuiet = true

/-- Expressions end at the seam. -/
class Ends (k : Seam) : Prop where
  divides : k.after.head?.all Token.isDivider = true
  divides' : k.after'.head?.all Token.isDivider = true

/-- What follows the seam starts in the same way on both sides, with a divider. -/
class Divides (k : Seam) : Prop where
  heads : Option.Rel Token.Same k.after.head? k.after'.head?
  divides : k.after.head?.all Token.isDivider = true

variable {k : Seam} {c c' : Cursor}

instance [ends : k.Ends] : k.Quiet where
  quiet := by
    have := ends.divides
    cases head : k.after.head? <;> simp_all [Token.isQuiet_of_isDivider]
  quiet' := by
    have := ends.divides'
    cases head : k.after'.head? <;> simp_all [Token.isQuiet_of_isDivider]

instance [divides : k.Divides] : k.Ends where
  divides := divides.divides
  divides' := (Token.all_isDivider_eq divides.heads).symm.trans divides.divides

instance {extra} : Divides ⟨[], [], extra⟩ :=
  ⟨.none, rfl⟩

namespace Holds

section

variable (holds : k.Holds c c')

include holds

theorem note {m m'} (same : m.Same m') :
    k.Holds ⟨c.rest, c.mentions ++ [m]⟩ ⟨c'.rest, c'.mentions ++ [m']⟩ := by
  cases holds with
  | intro tokens mentions => exact .intro tokens (mentions.both same)

theorem token {t d} (passed : c.Passes d [t] []) (inside : k.after.length ≤ d.rest.length) :
    ∃ t' d', c'.Passes d' [t'] [] ∧ t.Same t' ∧ k.Holds d d' := by
  obtain ⟨rest, ms⟩ := d
  obtain ⟨here, quiet⟩ := passed
  cases holds with
  | intro tokens mentions =>
    obtain rfl : ms = _ := quiet.trans (List.append_nil _)
    cases tokens with
    | nil =>
      have := congrArg List.length here
      simp only [List.nil_append, List.length_append, List.length_singleton] at this inside
      omega
    | cons same tokens =>
      obtain ⟨rfl, rfl⟩ := List.cons.inj here
      exact ⟨_, _, .token rfl, same, .intro tokens mentions⟩

theorem heads :
    (∃ t t' rest rest', c.rest = t :: rest ∧ c'.rest = t' :: rest' ∧ t.Same t' ∧
        k.Holds ⟨rest, c.mentions⟩ ⟨rest', c'.mentions⟩) ∨
      c.rest = k.after ∧ c'.rest = k.after' := by
  cases holds with
  | intro tokens mentions =>
    cases tokens with
    | nil => exact .inr ⟨rfl, rfl⟩
    | cons same tokens => exact .inl ⟨_, _, _, _, rfl, rfl, same, .intro tokens mentions⟩

theorem rel_heads (heads : Option.Rel Token.Same k.after.head? k.after'.head?) :
    Option.Rel Token.Same c.rest.head? c'.rest.head? := by
  rcases holds.heads with ⟨_, _, _, _, here, here', same, -⟩ | ⟨here, here'⟩
  · rw [here, here']
    exact .some same
  · rwa [here, here']

theorem atSeam (there : c.rest = k.after) :
    c'.rest = k.after' ∧ Mention.Widened k.extra c.mentions c'.mentions := by
  cases holds with
  | intro tokens mentions =>
    obtain rfl : _ = [] := by simpa using there
    cases tokens
    exact ⟨rfl, mentions⟩

end

theorem toEnd {extra} (tokens : List.Forall₂ Token.Same c.rest c'.rest)
    (mentions : Mention.Widened extra c.mentions c'.mentions) : Holds ⟨[], [], extra⟩ c c' := by
  have holds := intro (k := ⟨[], [], extra⟩) tokens mentions
  rwa [List.append_nil, List.append_nil] at holds

end Holds

end Seam

set_option synthInstance.maxSize 2000

namespace Read

/-- What the first reader does before the seam of the first text, the second one does in the second
    text. -/
class Mimics {α : Type} (k : Seam) (x y : Read α) (R : α → α → Prop) : Prop where
  follows : ∀ {c c' a d}, k.Holds c c' → x c = .ok a d → k.after.length ≤ d.rest.length →
    ∃ b d', y c' = .ok b d' ∧ R a b ∧ k.Holds d d'

variable {α β : Type} {k : Seam}

namespace Mimics

variable {x y : Read α} {A : α → α → Prop} {B : β → β → Prop}

theorem pure {a b} (related : A a b) : Mimics k (Pure.pure a) (Pure.pure b) A where
  follows holds read inside := by
    obtain ⟨rfl, rfl⟩ := pure_ok.mp read
    exact ⟨b, _, rfl, related, holds⟩

instance same (a : α) : Mimics k (Pure.pure a) (Pure.pure a) Eq :=
  .pure rfl

theorem fails (never : ∀ {c a d}, x c ≠ .ok a d) : Mimics k x y A :=
  ⟨fun _ read => absurd read never⟩

instance {p : Prop} [Decidable p] {x' y'} [Mimics k x y A] [Mimics k x' y' A] :
    Mimics k (if p then x else x') (if p then y else y') A := by
  split <;> infer_instance

theorem bind {f g} [∀ a, Onward (f a)] (first : Mimics k x y A)
    (rest : ∀ a b, A a b → Mimics k (f a) (g b) B) : Mimics k (x >>= f) (y >>= g) B where
  follows {c c' r d} holds read inside := by
    obtain ⟨a, middle, begun, read⟩ := bind_ok.mp read
    have later := length_le_of_ok read
    obtain ⟨b, middle', begun', related, holds⟩ := first.follows holds begun (by omega)
    obtain ⟨r, d', read', related, holds⟩ := (rest a b related).follows holds read inside
    exact ⟨r, d', (bind_of_ok begun' g).trans read', related, holds⟩

theorem next {f g} [∀ a, Onward (f a)] (first : Mimics k x y Eq)
    (rest : ∀ a, Mimics k (f a) (g a) B) : Mimics k (x >>= f) (y >>= g) B :=
  first.bind fun a _ same => same ▸ rest a

instance {f g} [∀ a, Onward (f a)] [first : Mimics k x y Eq] [rest : ∀ a, Mimics k (f a) (g a) B] :
    Mimics k (x >>= f) (y >>= g) B :=
  first.next rest

instance {f : α → β} [Mimics k x y Eq] : Mimics k (f <$> x) (f <$> y) Eq := by
  simp only [map_eq_pure_bind]
  infer_instance

theorem discard (first : Mimics k x y A) :
    Mimics k (Functor.discard x) (Functor.discard y) Eq := by
  change Mimics k (x >>= fun _ => Pure.pure PUnit.unit) (y >>= fun _ => Pure.pure PUnit.unit) Eq
  exact first.bind fun _ _ _ => .same _

instance [first : Mimics k x y Eq] : Mimics k (Functor.discard x) (Functor.discard y) Eq :=
  first.discard

theorem ofBounds {u v : Nat → Read α} (each : ∀ n, Mimics k (u n) (v n) A)
    (bounded : ∀ {n} {c : Cursor}, c.rest.length < n → u n c = x c)
    (bounded' : ∀ {n} {c : Cursor}, c.rest.length < n → v n c = y c) : Mimics k x y A where
  follows {c c' a d} holds read inside := by
    have enough : c.rest.length < c.rest.length + c'.rest.length + 1 := by omega
    obtain ⟨b, d', read', rest⟩ := (each _).follows holds ((bounded enough).trans read) inside
    exact ⟨b, d', (bounded' (by omega)).symm.trans read', rest⟩

end Mimics

variable {accept : Token → Bool} {t : Token} {c c' : Cursor}

theorem mimics_ok {x : Read α} [mimics : Mimics k x x Eq] {a d} (holds : k.Holds c c')
    (read : x c = .ok a d) (inside : k.after.length ≤ d.rest.length) :
    ∃ d', x c' = .ok a d' ∧ k.Holds d d' := by
  obtain ⟨_, d', read', rfl, holds⟩ := mimics.follows holds read inside
  exact ⟨d', read', holds⟩

/-- Tests that cannot tell tokens apart by where they stand. -/
def IsPlaceless (accept : Token → Bool) : Prop :=
  ∀ {t t' : Token}, t.Same t' → accept t = accept t'

theorem isPlaceless_isWord (word : String) : IsPlaceless (·.isWord word) :=
  fun same => same.isWord_eq word

theorem isPlaceless_kind (kind : TokenKind) : IsPlaceless (·.kind == kind) :=
  fun same => congrArg (· == kind) same.kind

theorem any_eq_of_heads (placeless : IsPlaceless accept) {next next'}
    (heads : Option.Rel Token.Same next next') : next.any accept = next'.any accept := by
  cases heads with
  | none => rfl
  | some same => exact placeless same

theorem mimics_eat? (placeless : IsPlaceless accept)
    (reveals : k.after'.head?.any accept = true → k.after.head?.any accept = true) :
    Mimics k (eat? accept) (eat? accept) (Option.Rel Token.Same) where
  follows {c c' found d} holds read inside := by
    rcases eat?_ok read with ⟨t, passed, approved, rfl⟩ | ⟨rfl, rfl⟩
    · obtain ⟨t', d', passed', same, holds⟩ := holds.token passed inside
      exact ⟨some t', d', eat?_passes ((placeless same).symm.trans approved) passed', .some same,
        holds⟩
    · have refused := refused_of_eat?_none read
      refine ⟨none, c', eat?_none ?_, .none, holds⟩
      rcases holds.heads with ⟨t, t', rest, rest', here, here', same, -⟩ | ⟨here, here'⟩
      · rw [here', List.head?_cons, Option.any_some, ← placeless same]
        rwa [here, List.head?_cons, Option.any_some] at refused
      · rw [here']
        rw [here] at refused
        simpa [refused] using reveals

theorem mimics_expect (placeless : IsPlaceless accept) (name : String) :
    Mimics k (expect accept name) (expect accept name) Token.Same where
  follows {c c' t d} holds read inside := by
    obtain ⟨passed, approved⟩ := expect_ok read
    obtain ⟨t', d', passed', same, holds⟩ := holds.token passed inside
    exact ⟨t', d', expect_passes _ ((placeless same).symm.trans approved) passed', same, holds⟩

theorem mimics_note {m m'} (same : m.Same m') : Mimics k (note m) (note m') Eq where
  follows {c c' _ d} holds read _ := by
    obtain rfl := note_ok.mp read
    exact ⟨(), ⟨c'.rest, c'.mentions ++ [m']⟩, rfl, rfl, holds.note same⟩

theorem mimics_peek {R} (within : ∀ {t t' : Token}, t.Same t' → R (some t) (some t'))
    (beyond : R k.after.head? k.after'.head?) : Mimics k peek peek R where
  follows {c c' _ d} holds read _ := by
    obtain ⟨rfl, rfl⟩ := peek_ok.mp read
    refine ⟨c'.rest.head?, c', rfl, ?_, holds⟩
    rcases holds.heads with ⟨t, t', rest, rest', here, here', same, -⟩ | ⟨here, here'⟩
    · rw [here, here']
      exact within same
    · rwa [here, here']

instance mimics_expectWord (word : String) : Mimics k (expectWord word) (expectWord word) Eq :=
  (mimics_expect (isPlaceless_isWord word) word).discard

instance mimics_expectKind (kind : TokenKind) (name : String) :
    Mimics k (discard (expect (·.kind == kind) name)) (discard (expect (·.kind == kind) name)) Eq :=
  (mimics_expect (isPlaceless_kind kind) name).discard

theorem mimics_expectIdentifier : Mimics k expectIdentifier expectIdentifier Token.Same :=
  mimics_expect (isPlaceless_kind .identifier) _

theorem mimics_eaten (placeless : IsPlaceless accept)
    (reveals : k.after'.head?.any accept = true → k.after.head?.any accept = true) :
    Mimics k (do return (← eat? accept).isSome) (do return (← eat? accept).isSome) Eq := by
  refine (mimics_eat? placeless reveals).bind fun found found' related => ?_
  have same : found.isSome = found'.isSome := by cases related <;> rfl
  rw [same]
  exact .same _

section Repetition

variable {x y : Read α} [Onward x] [Onward y]

instance [Mimics k x y Eq] [Mimics k (eatKind .comma) (eatKind .comma) Eq] :
    Mimics k (commaList x) (commaList y) Eq := by
  refine .ofBounds (u := commaListUpTo x) (v := commaListUpTo y) (fun fuel => ?_) commaListUpTo_eq
    commaListUpTo_eq
  induction fuel with
  | zero => exact .same _
  | succ fuel ih => unfold commaListUpTo; infer_instance

theorem Mimics.whileSeen {more more' x y} {A : α → α → Prop} [Onward more] [Onward more']
    [Advances x] [Advances y] (looks : Mimics k more more' Eq) (item : Mimics k x y A) :
    Mimics k (Read.whileSeen more x) (Read.whileSeen more' y) (List.Forall₂ A) := by
  refine .ofBounds (u := whileUpTo more x) (v := whileUpTo more' y) (fun fuel => ?_) whileUpTo_eq
    whileUpTo_eq
  induction fuel with
  | zero => exact .pure .nil
  | succ fuel ih =>
    refine looks.next fun seen => ?_
    cases seen with
    | true => exact item.bind fun _ _ here => ih.bind fun _ _ there => .pure (.cons here there)
    | false => exact .pure .nil

instance {more} {x : Read α} [Onward more] [Advances x] [looks : Mimics k more more Eq]
    [item : Mimics k x x Eq] : Mimics k (Read.whileSeen more x) (Read.whileSeen more x) Eq := by
  rw [← List.forall₂_eq_eq_eq]
  exact looks.whileSeen item

end Repetition

theorem mimics_aliasName {mention}
    (kept : ∀ {t t' : Token}, t.Same t' → (mention t).Same (mention t')) :
    Mimics k (aliasName mention) (aliasName mention) Eq := by
  refine (mimics_expect (fun same => same.isAlias_eq) _).bind fun t t' same => ?_
  refine (mimics_note (kept same)).next fun _ => ?_
  rw [same.value]
  exact .same _

instance mimics_className : Mimics k className className Eq := by
  refine (mimics_expect (fun same => same.isName_eq) _).bind fun t t' same => ?_
  refine (mimics_note (.className same)).next fun _ => ?_
  rw [same.value]
  exact .same _

instance mimics_simplePath : Mimics k simplePath simplePath Eq := by
  refine mimics_expectIdentifier.bind fun a a' aliases => ?_
  refine (mimics_expectKind .dot _).next fun _ => ?_
  refine mimics_expectIdentifier.bind fun f f' fields => ?_
  refine (mimics_note (.path aliases fields)).next fun _ => ?_
  rw [aliases.value, fields.value]
  exact .same _

theorem any_eq_of_quiet {test} (loud : ∀ t : Token, t.isQuiet = true → test t = false)
    {next next' : Option Token} (quiet : next.all Token.isQuiet = true)
    (quiet' : next'.all Token.isQuiet = true) : next.any test = next'.any test := by
  have none (next : Option Token) (quiet : next.all Token.isQuiet = true) :
      next.any test = false := by
    cases next with
    | none => rfl
    | some t => exact loud t quiet
  rw [none next quiet, none next' quiet']

theorem not_dot_of_isQuiet (t : Token) (quiet : t.isQuiet = true) : (t.kind == .dot) = false := by
  by_contra dot
  simp only [Bool.not_eq_false, beq_iff_eq] at dot
  simp [Token.isQuiet, dot] at quiet

theorem mimics_pathParts [quiet : k.Quiet] :
    Mimics k pathParts pathParts (List.Forall₂ Token.Same) := by
  have looks : Mimics k (do return (← peek).any (·.kind == .dot))
      (do return (← peek).any (·.kind == .dot)) Eq := by
    refine (mimics_peek (R := fun next next' => next.any (·.kind == .dot) =
      next'.any (·.kind == .dot)) (fun same => isPlaceless_kind .dot same)
      (any_eq_of_quiet not_dot_of_isQuiet quiet.quiet quiet.quiet')).bind fun next next' same => ?_
    rw [same]
    exact .same _
  exact looks.whileSeen ((mimics_expectKind .dot _).next fun _ => mimics_expectIdentifier)

theorem not_isWord_of_isQuiet {word} (loud : word ∈ ["SELECT", "IS", "NOT", "EMPTY"]) (t : Token)
    (quiet : t.isQuiet = true) : t.isWord word = false := by
  simp only [Token.isQuiet, Bool.not_eq_true', Bool.or_eq_false_iff, List.any_eq_false] at quiet
  exact Bool.not_eq_true _ ▸ quiet.2 word loud

/-- Whether the tokens start with `IS EMPTY` or with `IS NOT EMPTY`. -/
def emptinessAhead (tokens : List Token) : Bool :=
  tokens.head?.any (·.isWord "IS") &&
    (tokens[1]?.any (·.isWord "EMPTY") ||
      (tokens[1]?.any (·.isWord "NOT") && tokens[2]?.any (·.isWord "EMPTY")))

theorem emptinessAhead_eq [quiet : k.Quiet] (holds : k.Holds c c') :
    emptinessAhead c.rest = emptinessAhead c'.rest := by
  have none {word : String} (loud : word ∈ ["SELECT", "IS", "NOT", "EMPTY"])
      (next : Option Token) (quiet : next.all Token.isQuiet = true) :
      next.any (·.isWord word) = false := by
    cases next with
    | none => rfl
    | some t => exact not_isWord_of_isQuiet loud t quiet
  have is := @none "IS" (by simp)
  have not := @none "NOT" (by simp)
  have empty := @none "EMPTY" (by simp)
  unfold emptinessAhead
  cases holds with
  | intro tokens mentions =>
    -- At each of the three places the seam may come first, and then the test fails.
    cases tokens with
    | nil =>
      simp [is _ quiet.quiet, is _ quiet.quiet']
    | cons first tokens =>
      simp only [List.cons_append, List.head?_cons, Option.any_some, List.getElem?_cons_succ,
        first.isWord_eq]
      cases tokens with
      | nil =>
        simp only [List.nil_append, ← List.head?_eq_getElem?, empty _ quiet.quiet,
          empty _ quiet.quiet', not _ quiet.quiet, not _ quiet.quiet', Bool.false_and]
      | cons second tokens =>
        simp only [List.cons_append, List.getElem?_cons_zero, Option.any_some,
          List.getElem?_cons_succ, second.isWord_eq]
        cases tokens with
        | nil =>
          simp only [List.nil_append, ← List.head?_eq_getElem?, empty _ quiet.quiet,
            empty _ quiet.quiet']
        | cons third tokens =>
          simp [third.isWord_eq]

instance mimics_seesEmptinessTest [k.Quiet] :
    Mimics k seesEmptinessTest seesEmptinessTest Eq where
  follows {c c' seen d} holds read _ := by
    have found (c : Cursor) : seesEmptinessTest c = .ok (emptinessAhead c.rest) c := rfl
    rw [found] at read
    cases read
    exact ⟨_, c', found c', emptinessAhead_eq holds, holds⟩

instance [k.Quiet] {before} : Mimics k (path before) (path before) Eq := by
  refine @Mimics.bind _ _ _ _ _ _ _ _ _ (fun _ => @Moves.bind _ _ _ _ _ _ _ ?_)
    mimics_expectIdentifier fun a a' aliases => @Mimics.bind _ _ _ _ _ _ _ _ _ ?_
      mimics_pathParts fun parts parts' same => ?_
  · exact fun parts => by cases parts.reverse <;> infer_instance
  · exact fun parts => by cases parts.reverse <;> infer_instance
  have reversed := List.rel_reverse same
  generalize parts.reverse = backwards at reversed ⊢
  generalize parts'.reverse = backwards' at reversed ⊢
  cases reversed with
  | nil => exact .fails fun read => failExpected_ok.mp read
  | cons last earlier =>
    have fields := Token.values_eq (List.rel_reverse (List.Forall₂.cons last earlier))
    refine mimics_seesEmptinessTest.next fun seen => ?_
    simp only [fields, aliases.value]
    refine (mimics_note ?_).next fun _ => .same _
    exact .path aliases ⟨last.kind, rfl⟩

theorem exists_append_of_forall₂ {R : α → β → Prop} {first second both}
    (related : List.Forall₂ R (first ++ second) both) :
    ∃ first' second', both = first' ++ second' ∧ List.Forall₂ R first first' ∧
      List.Forall₂ R second second' :=
  have flipped : List.Forall₂ (flip R) both (first ++ second) := related.flip
  ⟨both.take first.length, both.drop first.length, (List.take_append_drop _ _).symm,
    (List.forall₂_take_append both first second flipped).flip,
    (List.forall₂_drop_append both first second flipped).flip⟩

theorem exists_split_of_suffix {u after later} (ends : t :: later <:+ u ++ after)
    (inside : after.length ≤ later.length) : ∃ w v, u = w ++ t :: v ∧ later = v ++ after := by
  obtain ⟨s, same⟩ := ends
  rcases List.append_eq_append_iff.mp same with ⟨a, rfl, rest⟩ | ⟨a, rfl, rest⟩
  · cases a with
    | nil =>
      have := congrArg List.length rest
      simp only [List.nil_append, List.length_cons] at this
      omega
    | cons t' v =>
      obtain ⟨rfl, rfl⟩ := List.cons.inj rest
      exact ⟨s, v, rfl, rfl⟩
  · have := congrArg List.length rest
    simp only [List.length_append, List.length_cons] at this
    omega

/-- What is read up to a token before the seam is read in the other text, if it is where that token
    is what follows the seam. -/
theorem Mimics.upTo {x y : Read α} [Onward x] {A a d e}
    (inner : ∀ {k' : Seam}, k'.after.head? = some t →
      Option.Rel Token.Same k'.after.head? k'.after'.head? → Mimics k' x y A) (holds : k.Holds c c')
    (read : x c = .ok a d) (passed : d.Passes e [t] []) (inside : k.after.length ≤ e.rest.length) :
    ∃ b d' t' e', y c' = .ok b d' ∧ A a b ∧ d'.Passes e' [t'] [] ∧ t.Same t' ∧ k.Holds e e' := by
  have here : d.rest = t :: e.rest := passed.rest
  have onward := onward_of_ok read
  rw [here] at onward
  cases holds with
  | @intro u u' ms ms' tokens mentions =>
    -- The token splits what stands before the seam.
    obtain ⟨w, v, rfl, rest⟩ := exists_split_of_suffix onward inside
    obtain ⟨w', v', rfl, before, later⟩ := exists_append_of_forall₂ tokens
    cases later with
    | @cons _ t' _ v' same later =>
      let k' : Seam := ⟨t :: (v ++ k.after), t' :: (v' ++ k.after'), k.extra⟩
      have starts : k'.Holds ⟨w ++ t :: v ++ k.after, ms⟩
          ⟨w' ++ t' :: v' ++ k.after', ms'⟩ := by
        rw [List.append_assoc, List.append_assoc]
        exact .intro before mentions
      have there : d.rest = k'.after := by
        rw [here, rest]
      obtain ⟨b, d', read', related, ended⟩ :=
        (@inner k' rfl (.some same)).follows starts read (Nat.le_of_eq (by rw [there]))
      obtain ⟨there', widened⟩ := ended.atSeam there
      refine ⟨b, d', t', ⟨v' ++ k.after', d'.mentions⟩, read', related, .token there', same, ?_⟩
      obtain ⟨erest, ems⟩ := e
      obtain rfl : erest = v ++ k.after := rest
      obtain rfl : ems = d.mentions := passed.mentions.trans (List.append_nil _)
      exact .intro later widened

theorem mimics_partialFields {a a'} (aliases : a.Same a')
    (heads : Option.Rel Token.Same k.after.head? k.after'.head?) :
    Mimics k (commaList (partialField a)) (commaList (partialField a')) Eq := by
  have comma : Mimics k (eatKind .comma) (eatKind .comma) Eq :=
    mimics_eaten (isPlaceless_kind .comma) fun found =>
      (any_eq_of_heads (isPlaceless_kind .comma) heads).trans found
  have field : Mimics k (partialField a) (partialField a') Eq := by
    refine mimics_expectIdentifier.bind fun f f' fields => ?_
    refine (mimics_note (.path aliases fields)).next fun _ => ?_
    rw [fields.value]
    exact .same _
  infer_instance

instance : Mimics k partialObject partialObject Eq := by
  refine mimics_expectIdentifier.bind fun a a' aliases => ?_
  refine (mimics_note (.variable aliases)).next fun _ => ?_
  refine (mimics_expectKind .dot _).next fun _ => ?_
  refine (mimics_expectKind .openCurly _).next fun _ => ?_
  refine ⟨fun {c c' piece d} holds read inside => ?_⟩
  simp only [bind_ok, discard_ok, pure_ok] at read
  obtain ⟨names, middle, listed, _, _, ⟨closing, closed⟩, rfl, rfl⟩ := read
  obtain ⟨passed, closes⟩ := expect_ok closed
  obtain ⟨_, middle', closing', d', listed', rfl, passed', same, holds⟩ :=
    Mimics.upTo (fun _ heads => mimics_partialFields aliases heads) holds listed passed inside
  have closes' := (isPlaceless_kind .closeCurly same).symm.trans closes
  refine ⟨_, d', (bind_of_ok listed' _).trans ?_, rfl, holds⟩
  rw [bind_of_ok ((discard_ok (u := ⟨⟩)).mpr ⟨_, expect_passes _ closes' passed'⟩), aliases.value]
  rfl

end Read

end EntityAudit.Query
