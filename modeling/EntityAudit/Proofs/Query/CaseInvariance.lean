import EntityAudit.Proofs.Mapping.Stateless
import EntityAudit.Proofs.Query.ReadingAlike

/-! # The case of reserved words does not count

Texts that are the same but for blanks and for the case of free words compile to the same, or are
rejected for a cause of the same kind: a reserved word is never an alias, and class names are looked
up in any case.
-/

namespace EntityAudit

variable {ms ms' : List Mention}

theorem Backing.record?_congr {b : Backing} (folds : b.IgnoresCase) {name name'}
    (same : Text.foldCase name = Text.foldCase name') : b.record? name = b.record? name' := by
  unfold record? mapping?
  cases connected : b.source? with
  | error failure => rfl
  | ok found =>
    cases found with
    | none => rfl
    | some source =>
      have resolved := (folds source (source?_eq_some.mp connected)).resolve same
      change (do let m ← (do return some (← Gateway.resolve source name)); _) = _
      rw [resolved]
      rfl

namespace Query

inductive RejectionKind where
  | malformed
  | misnamed
  | lookup
  deriving DecidableEq

def Rejection.kind : Rejection → RejectionKind
  | .malformed _ => .malformed
  | .misnamed _ _ _ => .misnamed
  | .lookup _ => .lookup

def NameFailure.kind : NameFailure → RejectionKind
  | .fault _ _ => .misnamed
  | .lookup _ => .lookup

theorem Rejection.kind_ofNameFailure (text : String) (failure : NameFailure) :
    (Rejection.ofNameFailure text failure).kind = failure.kind := by
  cases failure <;> rfl

section

variable {aliases : Aliases}

section

variable (spares : aliases.SparesWords)

include spares

theorem WordAlike.get?_eq {a a'} (alike : WordAlike a a') : aliases.get? a = aliases.get? a' := by
  rcases alike.eq_or_unknown spares with rfl | ⟨unknown, unknown'⟩
  · rfl
  · rw [unknown, unknown']

theorem WordAlike.record?_eq {a a'} (alike : WordAlike a a') :
    aliases.record? a = aliases.record? a' := by
  rw [Aliases.record?, Aliases.record?, alike.get?_eq spares]

theorem Aliases.SparesWords.put {name} (free : isReserved name = false) (component : Component) :
    Aliases.SparesWords (aliases.put name component) := by
  intro word reserved
  rw [Dict.get?_put, if_neg]
  · exact spares word reserved
  · rintro rfl
    rw [free] at reserved
    cases reserved

theorem checkAlias_alike {m m'} (alike : m.Alike m') :
    (checkAlias aliases m).mapError NameFailure.kind =
      (checkAlias aliases m').mapError NameFailure.kind := by
  have used {t t' : Token} (tokens : t.Alike t') :
      (checkAlias aliases (.variable t)).mapError NameFailure.kind =
        (checkAlias aliases (.variable t')).mapError NameFailure.kind := by
    have known : aliases.has t.value = aliases.has t'.value := by
      simp only [Dict.has, tokens.value.get?_eq spares]
    simp only [checkAlias, known]
    cases aliases.has t'.value <;> rfl
  cases alike with
  | «variable» tokens => exact used tokens
  | path aliases _ _ => exact used aliases
  | _ => rfl

theorem checkProperty_alike {m m'} (alike : m.Alike m') :
    (checkProperty aliases m).mapError NameFailure.kind =
      (checkProperty aliases m').mapError NameFailure.kind := by
  cases alike with
  | @path a a' f f' tokens fields allowsCollection =>
    simp only [checkProperty, tokens.value.record?_eq spares, fields]
    cases aliases.record? a'.value with
    | none => rfl
    | some record =>
      simp only
      cases record.association? f'.value with
      | none => cases record.hasField f'.value <;> rfl
      | some association =>
        by_cases wrong : association.cardinality = .toMany ∧ allowsCollection = false
        · simp only [if_pos wrong]
          rfl
        · simp only [if_neg wrong]
  | _ => rfl

end

theorem forM_kinds {check : Mention → Except NameFailure Unit}
    (each : ∀ {m m'}, m.Alike m' → (check m).mapError NameFailure.kind =
      (check m').mapError NameFailure.kind) (mentions : List.Forall₂ Mention.Alike ms ms') :
    (ms.forM check).mapError NameFailure.kind = (ms'.forM check).mapError NameFailure.kind := by
  induction mentions with
  | nil => rfl
  | @cons m m' _ _ here _ ih =>
    rw [List.forM, List.forM]
    have first := each here
    cases checked : check m <;> cases checked' : check m' <;> rw [checked, checked'] at first
    · exact first
    · cases first
    · cases first
    · exact ih

theorem checkUses_alike (spares : aliases.SparesWords)
    (mentions : List.Forall₂ Mention.Alike ms ms') :
    (checkUses aliases ms).mapError NameFailure.kind =
      (checkUses aliases ms').mapError NameFailure.kind := by
  have used := forM_kinds (checkAlias_alike spares) mentions
  have led := forM_kinds (checkProperty_alike spares) mentions
  unfold checkUses
  cases checked : ms.forM (checkAlias aliases) <;>
    cases checked' : ms'.forM (checkAlias aliases) <;> rw [checked, checked'] at used
  · exact used
  · cases used
  · cases used
  · exact led

end

section

variable {b : Backing}

/-- Resolutions in step: equal results that `K` holds of, or failures of one kind. -/
abbrev ResolvesAlike {α : Type} (b : Backing) (x y : Resolve α) (K : α → Prop) : Prop :=
  Couples b.ServesBoth x y (fun a a' g g' => (a = a' ∧ K a) ∧ b.ServesBoth g g')
    fun e e' _ _ => e.kind = e'.kind

abbrev Resolved.SparesWords (r : Resolved) : Prop :=
  r.aliases.SparesWords

theorem record?_alike (folds : b.IgnoresCase) {name name'}
    (same : Text.foldCase name = Text.foldCase name') :
    ResolvesAlike b (Resolve.record? name) (Resolve.record? name') fun _ => True := by
  rintro g g' ⟨serves, serves'⟩
  have left := simulates_record folds name g serves
  have right := simulates_record folds name' g' serves'
  rw [← b.record?_congr folds same] at right
  unfold Resolve.record?
  generalize b.record? name = direct at left right
  generalize Gateway.record? name g = found at left ⊢
  generalize Gateway.record? name' g' = found' at right ⊢
  cases left with
  | ok served related =>
    cases right with
    | ok served' related' =>
      subst related related'
      exact .ok ⟨⟨rfl, trivial⟩, served, served'⟩
  | error served =>
    cases right with
    | error served' => exact .error rfl

theorem declare_alike {r : Resolved} (spares : r.SparesWords) {t t'} (tokens : t.Same t')
    (free : isReserved t.value = false) (component : Component) :
    ResolvesAlike b (r.declare t component) (r.declare t' component) Resolved.SparesWords := by
  unfold Resolved.declare
  rw [← tokens.value]
  split
  · exact Couples.throw fun _ => rfl
  · exact Couples.pure fun serves => ⟨⟨rfl, spares.put free component⟩, serves⟩

theorem step_alike (folds : b.IgnoresCase) {r : Resolved} (spares : r.SparesWords) {m m'}
    (mentions : m.Loose m') : ResolvesAlike b (r.step m) (r.step m') Resolved.SparesWords := by
  have unchanged : ResolvesAlike b (Pure.pure r) (Pure.pure r) Resolved.SparesWords :=
    Couples.pure fun serves => ⟨⟨rfl, spares⟩, serves⟩
  have onto (record : EntityRecord) :
      ResolvesAlike b (Pure.pure { r with subject := some record })
        (Pure.pure { r with subject := some record }) Resolved.SparesWords :=
    Couples.pure fun serves => ⟨⟨rfl, spares⟩, serves⟩
  cases mentions with
  | path => exact unchanged
  | alike strictly =>
    cases strictly with
    | className tokens =>
      refine (record?_alike folds tokens.value.foldCase_eq).bind fun found found' => ?_
      rintro g g' ⟨⟨rfl, -⟩, serves⟩
      cases found with
      | none => exact .error rfl
      | some record => exact onto record serves
    | joinRoot tokens =>
      unfold Resolved.step
      simp only [tokens.value.record?_eq spares]
      split
      · exact onto _
      · exact Couples.throw fun _ => rfl
    | joinField tokens =>
      unfold Resolved.step
      simp only [tokens.value]
      split
      · exact unchanged
      · split
        · exact Couples.throw fun _ => rfl
        · refine (record?_alike folds rfl).bind fun found found' => ?_
          rintro g g' ⟨⟨rfl, -⟩, serves⟩
          cases found with
          | none => exact .error rfl
          | some record => exact onto record serves
    | entityAlias tokens free =>
      unfold Resolved.step
      simp only
      split
      · exact unchanged
      · exact declare_alike spares tokens free _
    | resultAlias tokens free => exact declare_alike spares tokens free _
    | «variable» | path => exact unchanged

theorem steps_alike (folds : b.IgnoresCase) (mentions : List.Forall₂ Mention.Loose ms ms') {r}
    (spares : r.SparesWords) :
    ResolvesAlike b (ms.foldlM Resolved.step r) (ms'.foldlM Resolved.step r)
      Resolved.SparesWords := by
  induction mentions generalizing r with
  | nil => exact Couples.pure fun serves => ⟨⟨rfl, spares⟩, serves⟩
  | cons here _ ih =>
    rw [List.foldlM_cons, List.foldlM_cons]
    refine (step_alike folds spares here).bind fun next next' => ?_
    rintro g g' ⟨⟨rfl, spares⟩, serves⟩
    exact ih spares serves

theorem resolveAliases_alike (folds : b.IgnoresCase)
    (mentions : List.Forall₂ Mention.Loose ms ms') :
    ResolvesAlike b (resolveAliases ms) (resolveAliases ms') Aliases.SparesWords := by
  have spares : Aliases.SparesWords ({} : Resolved).aliases := fun _ _ => rfl
  refine (steps_alike folds mentions spares).bind fun found found' => ?_
  rintro g g' ⟨⟨rfl, spares⟩, serves⟩
  exact .ok ⟨⟨rfl, spares⟩, serves⟩

/-- Parsed texts with the same aliases, none of them a reserved word, and statements that are
    alike. -/
structure Parsed.Alike (p p' : Parsed) : Prop where
  aliases : p.aliases = p'.aliases
  spares : p.aliases.SparesWords
  statements : StatementAlike p.statement p'.statement

theorem parse_alike (folds : b.IgnoresCase) {text text'}
    (alike : Token.alikeFrom [] (Token.scan text) (Token.scan text') = true) :
    Couples b.ServesBoth (parse text) (parse text') (fun p p' _ _ => p.Alike p')
      fun r r' _ _ => r.kind = r'.kind := by
  have kinds {e e' : NameFailure} (same : e.kind = e'.kind) :
      (Rejection.ofNameFailure text e).kind = (Rejection.ofNameFailure text' e').kind := by
    rw [Rejection.kind_ofNameFailure, Rejection.kind_ofNameFailure, same]
  have resolved {ms ms' : List Mention} (mentions : List.Forall₂ Mention.Loose ms ms') :
      Couples b.ServesBoth ((resolveAliases ms).adaptExcept (Rejection.ofNameFailure text))
        ((resolveAliases ms').adaptExcept (Rejection.ofNameFailure text'))
        (fun a a' g g' => (a = a' ∧ a.SparesWords) ∧ b.ServesBoth g g')
        fun r r' _ _ => r.kind = r'.kind :=
    (resolveAliases_alike folds mentions).adaptExcept kinds
  unfold parse
  -- Names are resolved as far as the texts were read, so also where the reading fails.
  rcases Reading.ofTokens_alike alike with
    ⟨s, s', read, read', statements, mentions⟩ | ⟨e, e', failed, failed', mentions⟩
  · refine (resolved (mentions.imp fun _ _ => .alike)).bind fun aliases aliases' => ?_
    rintro g g' ⟨⟨rfl, spares⟩, -⟩
    have uses := checkUses_alike spares mentions
    simp only [read, read']
    cases checked : checkUses aliases (Reading.ofTokens (Token.scan text)).mentions <;>
      cases checked' : checkUses aliases (Reading.ofTokens (Token.scan text')).mentions <;>
      rw [checked, checked'] at uses
    · exact .error (kinds (Except.error.inj uses))
    · cases uses
    · cases uses
    · exact .ok ⟨rfl, spares, statements⟩
  · refine (resolved mentions).bind fun aliases aliases' => ?_
    simp only [failed, failed']
    exact Couples.throw fun _ => rfl

theorem compile_alike (folds : b.IgnoresCase) {text text'}
    (alike : Token.alikeFrom [] (Token.scan text) (Token.scan text') = true) :
    Couples b.ServesBoth (compile text) (compile text') (fun c c' _ _ => c = c')
      fun r r' _ _ => r.kind = r'.kind := by
  refine (parse_alike folds alike).bind fun p p' => Couples.pure ?_
  rintro g g' ⟨same, spares, statements⟩
  rw [← same]
  exact Compiled.ofStatement_alike spares statements

end

/-- Blanks and the case of free words do not count: of two texts whose tokens are the same but for
    where they stand and for the case of free words, both compile, to the same SQL with the same
    parameters, or both are rejected, for causes of the same kind. -/
theorem compile_word_case (b : Backing) (folds : b.IgnoresCase) {g g' : Gateway}
    (serves : b.Serves g) (serves' : b.Serves g') {text text' : String}
    (alike : Token.alikeFrom [] (Token.scan text) (Token.scan text') = true) :
    (∃ compiled compiled' h h', compile text g = .ok compiled h ∧
      compile text' g' = .ok compiled' h' ∧ compiled.sql = compiled'.sql ∧
      compiled.parameters = compiled'.parameters) ∨
    ∃ rejection rejection' h h', compile text g = .error rejection h ∧
      compile text' g' = .error rejection' h' ∧ rejection.kind = rejection'.kind := by
  have run := compile_alike folds alike ⟨serves, serves'⟩
  generalize compile text g = result at run ⊢
  generalize compile text' g' = result' at run ⊢
  cases run with
  | ok same => exact .inl ⟨_, _, _, _, rfl, rfl, congrArg _ same, congrArg _ same⟩
  | error same => exact .inr ⟨_, _, _, _, rfl, rfl, same⟩

/-- A class with the name of a reserved word, in two cases as well. -/
theorem compile_word_case_order :
    let text := "SELECT o.id FROM Order o WHERE o.id = :n AND o.id IS NOT NULL"
    let text' := "select o.id  from ORDER o\nwhere o.id = :n And o.id is not null"
    let id : Field := { name := "id", column := "id", columnType := "integer", isId := true }
    let order : EntityRecord := { className := "Order", table := "orders", fields := [id] }
    let b : Backing := .store (Catalog.toSource { records := [("order", order)] })
    b.IgnoresCase ∧ Token.alikeFrom [] (Token.scan text) (Token.scan text') = true ∧
      ∃ compiled compiled' h h', compile text b.gateway = .ok compiled h ∧
        compile text' b.gateway = .ok compiled' h' ∧ compiled.sql.isSome = true ∧
        compiled'.sql = compiled.sql ∧ compiled'.parameters = [":n"] := by
  intro text text' id order b
  have folds : b.IgnoresCase := by
    rintro _ ⟨⟩
    exact Catalog.toSource_ignoresCase _
  have alike : Token.alikeFrom [] (Token.scan text) (Token.scan text') = true := by
    decide +kernel
  have serves := Backing.Serves.gateway b
  have compiles : succeeds (compile text) b.gateway (fun compiled =>
      compiled.sql.isSome && compiled.parameters == [":n"]) = true := by
    decide +kernel
  obtain ⟨compiled, h, found, passed⟩ := exists_of_succeeds compiles
  simp only [Bool.and_eq_true, beq_iff_eq] at passed
  refine ⟨folds, alike, ?_⟩
  rcases compile_word_case b folds serves serves alike with
    ⟨_, compiled', _, h', same, found', sql, parameters⟩ | ⟨_, _, _, _, failed, -⟩
  · rw [found] at same
    cases same
    exact ⟨compiled, compiled', h, h', found, found', passed.1, sql.symm,
      parameters.symm.trans passed.2⟩
  · rw [found] at failed
    cases failed

end Query

end EntityAudit
