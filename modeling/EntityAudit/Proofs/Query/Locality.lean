import EntityAudit.Proofs.Query.Bounds
import EntityAudit.Proofs.Query.Seam

/-! # Reading is local

An expression goes on through any seam that is quiet and ends at one that divides; a clause, which
may be missing, takes a seam with the same token on both sides. Subselects stand in parentheses, so
a seam outside of them does not concern them.
-/

namespace EntityAudit.Query.Read

set_option synthInstance.maxSize 8000

variable {α : Type} {k : Seam} {accept : Token → Bool} {t : Token} {c c' : Cursor}

theorem onName_of_quiet {next : Option Token} (quiet : next.all Token.isQuiet = true)
    (p : Progress) (name : String) : p.onName name (next.map (·.kind)) = p.onName name none := by
  cases next with
  | none => rfl
  | some t =>
    simp only [Option.all_some] at quiet
    cases kind : t.kind with
    | dot | openParen => simp [Token.isQuiet, kind] at quiet
    | _ => simp only [Option.map_some, kind, Progress.onName]

/-- What becomes of a token depends on its kind and its text, and on the token after it only as far
    as that is a point, an opening parenthesis or `SELECT`. -/
theorem action_eq {t' next next'} (same : t.Same t')
    (ahead : Option.Rel Token.Same next next' ∨
      next.all Token.isQuiet = true ∧ next'.all Token.isQuiet = true) (p : Progress) :
    p.action t next = p.action t' next' := by
  have select : next.any (·.isWord "SELECT") = next'.any (·.isWord "SELECT") := by
    rcases ahead with related | ⟨quiet, quiet'⟩
    · cases related with
      | none => rfl
      | some same => exact same.isWord_eq _
    · exact any_eq_of_quiet (not_isWord_of_isQuiet (by simp)) quiet quiet'
  have name (name : String) :
      p.onName name (next.map (·.kind)) = p.onName name (next'.map (·.kind)) := by
    rcases ahead with related | ⟨quiet, quiet'⟩
    · cases related with
      | none => rfl
      | some after => rw [Option.map_some, Option.map_some, after.kind]
    · rw [onName_of_quiet quiet, onName_of_quiet quiet']
  unfold Progress.action
  rw [same.kind, same.value, select, name]

theorem ahead_of_holds [quiet : k.Quiet] (holds : k.Holds c c') :
    Option.Rel Token.Same c.rest.head? c'.rest.head? ∨
      c.rest.head?.all Token.isQuiet = true ∧ c'.rest.head?.all Token.isQuiet = true := by
  rcases holds.heads with ⟨_, _, _, _, here, here', same, -⟩ | ⟨here, here'⟩
  · rw [here, here']
    exact .inl (.some same)
  · rw [here, here']
    exact .inr ⟨quiet.quiet, quiet.quiet'⟩

variable {sub : Read Select}

/-- Subselects are read alike up to a seam that divides. -/
class MimicsSelects (sub : Read Select) : Prop extends Moves Cursor.Reaches sub where
  mimics : ∀ {k : Seam} [k.Divides], Mimics k sub sub Eq

theorem acts_of_holds [k.Quiet] {rest} (holds : k.Holds c c') (here : c.rest = t :: rest)
    (inside : k.after.length ≤ rest.length) :
    ∃ t' rest', c'.rest = t' :: rest' ∧ t.Same t' ∧
      (∀ p : Progress, p.action t rest.head? = p.action t' rest'.head?) ∧
      k.Holds ⟨rest, c.mentions⟩ ⟨rest', c'.mentions⟩ := by
  rcases holds.heads with ⟨t, t', rest, rest', here₁, here', same, later⟩ | ⟨here₁, -⟩
  · obtain ⟨rfl, rfl⟩ := List.cons.inj (here.symm.trans here₁)
    exact ⟨t', rest', here', same, action_eq same (ahead_of_holds later), later⟩
  · rw [← here₁, here, List.length_cons] at inside
    omega

variable [MimicsSelects sub]

theorem ScanStep.mimics [k.Quiet] {p next d} (holds : k.Holds c c') (step : ScanStep sub p c next d)
    (inside : k.after.length ≤ d.rest.length) : ∃ d', ScanStep sub p c' next d' ∧ k.Holds d d' := by
  have shorter := step.shortens
  have room {t : Token} {rest : List Token} (here : c.rest = t :: rest) :
      k.after.length ≤ rest.length := by
    rw [here, List.length_cons] at shorter
    omega
  cases step with
  | take here chosen =>
    obtain ⟨t', rest', here', same, acts, later⟩ := acts_of_holds holds here inside
    exact ⟨_, .take here' (acts p ▸ chosen), later⟩
  | «variable» here chosen =>
    obtain ⟨t', rest', here', same, acts, later⟩ := acts_of_holds holds here inside
    refine ⟨_, ?_, later.note (.variable same)⟩
    rw [same.value]
    exact .variable here' (acts p ▸ chosen)
  | path here chosen read =>
    obtain ⟨t', rest', here', same, acts, -⟩ := acts_of_holds holds here (room here)
    obtain ⟨d', read', later⟩ := mimics_ok holds read inside
    exact ⟨d', .path here' (acts p ▸ chosen) read', later⟩
  | partialObject here chosen read =>
    obtain ⟨t', rest', here', same, acts, later⟩ := acts_of_holds holds here (room here)
    obtain ⟨d', read', later⟩ := mimics_ok later read inside
    exact ⟨d', .partialObject here' (acts p ▸ chosen) read', later⟩
  | @subselect _ _ _ _ closing _ here chosen read closed isClosing =>
    obtain ⟨t', rest', here', same, acts, later⟩ := acts_of_holds holds here (room here)
    have inner {k' : Seam} (head : k'.after.head? = some closing)
        (heads : Option.Rel Token.Same _ _) : Mimics k' sub sub Eq :=
      have : k'.Divides := ⟨heads, by rw [head]; simp [Token.isDivider, isClosing]⟩
      MimicsSelects.mimics
    obtain ⟨_, middle', closing', d', read', rfl, closed', closings, later⟩ :=
      Mimics.upTo inner later read closed inside
    exact ⟨d', .subselect here' (acts p ▸ chosen) read' closed' (closings.kind ▸ isClosing),
      later⟩

theorem action_stop_of_isDivider {p : Progress} {next} (closed : p.depth = 0)
    (divides : t.isDivider = true) : p.action t next = .stop := by
  simp only [Token.isDivider, Bool.or_eq_true, Bool.and_eq_true, beq_iff_eq] at divides
  unfold Progress.action
  rcases divides with (kind | kind) | ⟨kind, clause⟩
  · rw [kind]
    exact if_pos closed
  · rw [kind]
    exact if_pos closed
  · have reserved := isReserved_of_mem_clauseWords (by simpa using clause)
    rw [kind]
    simp only [reserved, if_true, Progress.onKeyword, clause, Progress.ending, closed, ne_eq,
      not_true, false_and, if_false]

theorem Progress.EndsAt.mimics [ends : k.Ends] {p : Progress} (holds : k.Holds c c')
    (stops : p.EndsAt c) : p.EndsAt c' := by
  have closed := depth_of_endsAt stops
  rcases holds.heads with ⟨t, t', rest, rest', here, here', same, later⟩ | ⟨-, here'⟩
  · rcases stops with ⟨-, ended⟩ | ⟨_, _, here₁, chosen⟩
    · simp [here] at ended
    · obtain ⟨rfl, rfl⟩ := List.cons.inj (here.symm.trans here₁)
      have acts := action_eq same (ahead_of_holds later) p
      exact .inr ⟨t', rest', here', acts ▸ chosen⟩
  · cases after : k.after' with
    | nil => exact .inl ⟨closed, here'.trans after⟩
    | cons t rest =>
      have divides := ends.divides'
      rw [after, List.head?_cons, Option.all_some] at divides
      exact .inr ⟨t, rest, here'.trans after, action_stop_of_isDivider closed divides⟩

theorem Scans.mimics [k.Ends] {p e d} (holds : k.Holds c c') (run : Scans sub p c e d)
    (inside : k.after.length ≤ d.rest.length) : ∃ d', Scans sub p c' e d' ∧ k.Holds d d' := by
  induction run generalizing c' with
  | stop stops nonempty => exact ⟨c', .stop (stops.mimics holds) nonempty, holds⟩
  | step first rest ih =>
    have later := rest.onward.length_le
    obtain ⟨middle', first', holds⟩ := first.mimics holds (by omega)
    obtain ⟨d', rest', holds⟩ := ih holds inside
    exact ⟨d', .step first' rest', holds⟩

instance [k.Ends] : Mimics k (expression sub) (expression sub) Eq where
  follows {c c' e d} holds read inside := by
    obtain ⟨d', run, holds⟩ := (expression_scans read).mimics holds inside
    exact ⟨e, d', run.expression_ok, rfl, holds⟩

theorem mimics_eatWord_of_ends [ends : k.Ends] {word} (other : word ∉ clauseWords) :
    Mimics k (eatWord word) (eatWord word) Eq := by
  refine mimics_eaten (isPlaceless_isWord word) fun found => ?_
  have divides := ends.divides'
  cases head : k.after'.head? with
  | none =>
    rw [head] at found
    cases found
  | some t =>
    rw [head] at found divides
    rw [Option.any_some, Token.not_isWord_of_isDivider divides other] at found
    cases found

section

variable [divides : k.Divides]

theorem mimics_eaten_of_divides (placeless : IsPlaceless accept) :
    Mimics k (do return (← eat? accept).isSome) (do return (← eat? accept).isSome) Eq :=
  mimics_eaten placeless fun found => (any_eq_of_heads placeless divides.heads).trans found

instance (word : String) : Mimics k (eatWord word) (eatWord word) Eq :=
  mimics_eaten_of_divides (isPlaceless_isWord word)

instance (kind : TokenKind) : Mimics k (eatKind kind) (eatKind kind) Eq :=
  mimics_eaten_of_divides (isPlaceless_kind kind)

instance (word : String) : Mimics k (sees word) (sees word) Eq := by
  refine (mimics_peek (R := fun next next' => next.any (·.isWord word) =
    next'.any (·.isWord word)) (fun same => same.isWord_eq word)
    (any_eq_of_heads (isPlaceless_isWord word) divides.heads)).bind fun next next' same => ?_
  rw [same]
  exact .same _

variable {x y : Read α} [Onward x] [Mimics k x y Eq] {word : String}

instance : Mimics k (optionally word x) (optionally word y) Eq := by
  unfold optionally; infer_instance

instance [Onward y] : Mimics k (byClause word x) (byClause word y) Eq := by
  unfold byClause; infer_instance

end

theorem not_any_isAlias_of_all_isDivider {next : Option Token}
    (divides : next.all Token.isDivider = true) : next.any (·.isAlias) = false := by
  cases next with
  | none => rfl
  | some t => exact Token.not_isAlias_of_isDivider divides

instance mimics_selectItem [ends : k.Ends] : Mimics k (selectItem sub) (selectItem sub) Eq := by
  have as : Mimics k (eatWord "AS") (eatWord "AS") Eq := mimics_eatWord_of_ends (by decide)
  have hidden : Mimics k (eatWord "HIDDEN") (eatWord "HIDDEN") Eq :=
    mimics_eatWord_of_ends (by decide)
  have looks := mimics_peek (k := k)
    (R := fun next next' => next.any (·.isAlias) = next'.any (·.isAlias))
    (fun same => same.isAlias_eq) ((not_any_isAlias_of_all_isDivider ends.divides).trans
      (not_any_isAlias_of_all_isDivider ends.divides').symm)
  have name := mimics_aliasName (k := k) .resultAlias
  have naming (e : Expression) (named : Bool) : Mimics k
      (do
        if named || (← peek).any (·.isAlias) then
          return (⟨e, some (← aliasName .resultAlias)⟩ : SelectItem Expression)
        else
          return ⟨e, none⟩)
      (do
        if named || (← peek).any (·.isAlias) then
          return ⟨e, some (← aliasName .resultAlias)⟩
        else
          return ⟨e, none⟩) Eq := by
    refine looks.bind fun next next' same => ?_
    rw [same]
    infer_instance
  unfold selectItem
  infer_instance

instance [k.Ends] : Mimics k direction direction Eq := by
  have ascending : Mimics k (eatWord "ASC") (eatWord "ASC") Eq :=
    mimics_eatWord_of_ends (by decide)
  have descending : Mimics k (eatWord "DESC") (eatWord "DESC") Eq :=
    mimics_eatWord_of_ends (by decide)
  unfold direction
  infer_instance

instance [k.Ends] : Mimics k (orderItem sub) (orderItem sub) Eq := by
  unfold orderItem; infer_instance

/-- Whether a join follows a path is seen from two tokens, which stand before the seam or right after
    it. -/
instance [divides : k.Divides] : Mimics k joinTarget joinTarget Eq where
  follows {c c' target d} holds read inside := by
    have path : Mimics k
        (do
          let parent ← expectIdentifier
          note (.joinRoot parent (← peek))
          expectDot
          let field ← expectIdentifier
          note (.joinField field (← peek))
          return JoinTarget.association ⟨parent.value, field.value⟩)
        (do
          let parent ← expectIdentifier
          note (.joinRoot parent (← peek))
          expectDot
          let field ← expectIdentifier
          note (.joinField field (← peek))
          return JoinTarget.association ⟨parent.value, field.value⟩) Eq := by
      have looks := mimics_peek (k := k) (R := fun _ _ => True) (fun _ => trivial) trivial
      refine mimics_expectIdentifier.bind fun parent parent' parents => ?_
      refine looks.bind fun _ _ _ => (mimics_note (.joinRoot parents)).next fun _ => ?_
      refine (mimics_expectKind .dot _).next fun _ => ?_
      refine mimics_expectIdentifier.bind fun field field' fields => ?_
      refine looks.bind fun _ _ _ => (mimics_note (.joinField fields)).next fun _ => ?_
      rw [parents.value, fields.value]
      exact .same _
    have entity : Mimics k (do return JoinTarget.entity (← className))
        (do return JoinTarget.entity (← className)) Eq :=
      mimics_className.next fun _ => .same _
    have shorter := Advances.advances read
    rcases holds.heads with ⟨t, t', rest, rest', here, here', same, later⟩ | ⟨here, -⟩
    · have isPath := any_eq_of_heads (isPlaceless_kind .dot) (later.rel_heads divides.heads)
      have isWord := isPlaceless_kind .identifier same
      have looks (c : Cursor) : peek c = .ok c.rest.head? c := rfl
      have looksOn (c : Cursor) : peekAt 1 c = .ok c.rest[1]? c := rfl
      simp only [joinTarget, bind_of_ok (looks _), bind_of_ok (looksOn _), here, here',
        List.head?_cons, Option.any_some, List.getElem?_cons_succ, ← List.head?_eq_getElem?,
        isWord, isPath] at read ⊢
      split at read
      next yes =>
        rw [if_pos yes]
        exact path.follows holds read inside
      next no =>
        rw [if_neg no]
        exact entity.follows holds read inside
    · rw [here] at shorter
      omega

instance [k.Divides] : Mimics k seesJoin seesJoin Eq := by unfold seesJoin; infer_instance

instance [k.Divides] : Mimics k indexBy indexBy Eq := by unfold indexBy; infer_instance

instance [k.Divides] : Mimics k bareRange bareRange Eq := by
  have name := mimics_aliasName (k := k) .entityAlias
  unfold bareRange
  infer_instance

/-- What a select statement starts with: whether duplicates are removed, its select list and what it
    ranges over. -/
abbrev SelectStart := Bool × List (SelectItem Expression) × List (Range Expression)

def beforeFilter (sub : Read Select) : Read SelectStart := do
  expectWord "SELECT"
  let isDistinct ← eatWord "DISTINCT"
  let items ← commaList (selectItem sub)
  expectWord "FROM"
  let ranges ← commaList (range sub)
  return (isDistinct, items, ranges)

def afterFilter (sub : Read Select) (start : SelectStart) (filter : Option Expression) :
    Read Select := do
  let groups ← byClause "GROUP" (expression sub)
  let groupFilter ← optionally "HAVING" (expression sub)
  let orders ← byClause "ORDER" (orderItem sub)
  return ⟨start.1, start.2.1, start.2.2, filter, groups, groupFilter, orders⟩

theorem selectWith_eq (sub : Read Select) :
    selectWith sub = (do
      let start ← beforeFilter sub
      let filter ← optionally "WHERE" (expression sub)
      afterFilter sub start filter) := by
  simp [selectWith, beforeFilter, afterFilter]

instance : Onward (beforeFilter sub) := by unfold beforeFilter; infer_instance

instance {start filter} : Onward (afterFilter sub start filter) := by
  unfold afterFilter; infer_instance

instance [k.Divides] : Mimics k (join sub) (join sub) Eq := by
  have name := mimics_aliasName (k := k) .entityAlias
  unfold join
  infer_instance

instance [k.Divides] : Mimics k (range sub) (range sub) Eq := by
  unfold range; infer_instance

instance mimics_beforeFilter [k.Divides] : Mimics k (beforeFilter sub) (beforeFilter sub) Eq := by
  unfold beforeFilter; infer_instance

instance mimics_afterFilter [k.Divides] (start : SelectStart) (filter : Option Expression) :
    Mimics k (afterFilter sub start filter) (afterFilter sub start filter) Eq := by
  unfold afterFilter; infer_instance

instance : MimicsSelects (selectWith sub) where
  mimics := by
    rw [selectWith_eq]
    infer_instance

instance {depth} : MimicsSelects (selectUpTo depth) := by
  induction depth with
  | zero => exact ⟨.fails fun read => failUnexpected_ok.mp read⟩
  | succ depth ih => exact inferInstanceAs (MimicsSelects (selectWith _))

instance : MimicsSelects select :=
  ⟨.ofBounds (fun _ => MimicsSelects.mimics) selectUpTo_eq selectUpTo_eq⟩

end EntityAudit.Query.Read
