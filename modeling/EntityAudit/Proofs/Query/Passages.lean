import EntityAudit.Proofs.Query.Mentions

/-! # The way through a statement

Outside its expressions a statement is made up of words, names and a few signs. What is true of
every way past these, given that it is true of the subselects on it, is true of every statement that
is read.
-/

namespace EntityAudit.Query

variable {s : Statement}

/-- What an update or a deletion is about has no joins. -/
def Statement.IsBare : Statement → Prop
  | .select _ => True
  | .update range _ _ | .delete range _ => range.joins = []

theorem Read.statement_isBare {c c'} (read : statement c = .ok s c') : s.IsBare := by
  rcases (statement_ok read).2 with ⟨query, -, rfl⟩ | updated | deleted
  · trivial
  · obtain ⟨_, _, _, _, _, _, _, _, _, -, ranged, -, -, -, rfl⟩ := update_ok updated
    exact (bareRange_tells ranged).2
  · obtain ⟨_, _, _, _, _, -, ranged, -, rfl⟩ := delete_ok deleted
    exact (bareRange_tells ranged).2

theorem rangeExpressions_bare {range} (bare : range.joins = []) :
    rangeExpressions [range] = [] := by
  obtain ⟨className, aliasName, index, joins⟩ := range
  cases bare
  rfl

section

variable {c c' : Cursor} {sub : Read Select}

theorem Cursor.Passes.links {token noted} (passed : c.Passes c' [token] noted)
    (link : token.kind ∈ linkKinds) : c.Links c' :=
  ⟨_, passed.rest, List.forall_mem_singleton.mpr link⟩

theorem Read.links_of_ok {α : Type} {x : Read α} [Moves Cursor.Links x] {a}
    (read : x c = .ok a c') :
    c.Links c' :=
  Moves.ok read

/-- Reading from `c` to `c'` goes past these parts and words between them. -/
inductive Cursor.Travels (sub : Read Select) : Cursor → List Part → Cursor → Prop where
  | names {c uses c'} (linked : c.Links c') (told : c.Tells c' uses) :
      Travels sub c (uses.map .name) c'
  | expression {c e c'} (run : Read.Scans sub {} c e c') : Travels sub c [.expression e] c'
  | trans {c c' c'' parts parts'} (first : Travels sub c parts c')
      (second : Travels sub c' parts' c'') : Travels sub c (parts ++ parts') c''

theorem Cursor.Skips.travels (skipped : c.Skips c') : c.Travels sub [] c' := by
  obtain ⟨taken, passed, links⟩ := skipped
  have told : c.Tells c' [] := ⟨taken, [], passed, .nil, List.nil_sublist _⟩
  exact .names ⟨taken, passed.rest, links⟩ told

theorem Cursor.Travels.refl (c : Cursor) : c.Travels sub [] c :=
  Skips.travels (Passage.refl c)

theorem Cursor.Travels.skip {parts middle} (way : c.Travels sub parts middle)
    (skipped : middle.Skips c') : c.Travels sub parts c' :=
  List.append_nil parts ▸ way.trans skipped.travels

end

namespace Read

/-- Where the way so far went past `before`, it has gone past `after a` once `a` is read. -/
def Goes {α : Type} (sub : Read Select) (before : List Part) (read : Read α)
    (after : α → List Part) : Prop :=
  ∀ (start c : Cursor) a c', start.Travels sub before c → read c = .ok a c' →
    start.Travels sub (after a) c'

variable {α β : Type} {sub : Read Select} {before : List Part} {read item : Read α}
  {next : α → Read β} {after own : α → List Part} {last : β → List Part}

theorem Goes.pure {a} (same : before = after a) : Goes sub before (pure a) after := by
  intro start c b c' way read
  obtain ⟨rfl, rfl⟩ := pure_ok.mp read
  exact same ▸ way

theorem Goes.bind (first : Goes sub before read after)
    (second : ∀ a, Goes sub (after a) (next a) last) : Goes sub before (read >>= next) last := by
  intro start c b c' way both
  obtain ⟨a, middle, begun, ended⟩ := bind_ok.mp both
  exact second a start middle b c' (first start c a middle way begun) ended

theorem Goes.map {f} (first : Goes sub before read fun a => last (f a)) :
    Goes sub before (f <$> read) last := by
  intro start c b c' way mapped
  obtain ⟨a, inner, rfl⟩ := map_ok.mp mapped
  exact first start c a c' way inner

theorem goes_skips [Moves Cursor.Skips read] : Goes sub before read fun _ => before :=
  fun _ _ _ _ way read => way.skip (Moves.ok read)

theorem Goes.seq [Moves Cursor.Skips read] (second : ∀ a, Goes sub before (next a) last) :
    Goes sub before (read >>= next) last :=
  goes_skips.bind second

theorem Goes.names [Moves Cursor.Links read] {uses : α → List NameUse}
    (tells : ∀ {c a c'}, read c = .ok a c' → c.Tells c' (uses a)) :
    Goes sub before read fun a => before ++ (uses a).map .name :=
  fun _ _ _ _ way read => way.trans (.names (links_of_ok read) (tells read))

theorem Goes.commaList [Onward item]
    (each : ∀ before, Goes sub before item fun a => before ++ own a) :
    Goes sub before (commaList item) fun items => before ++ items.flatMap own := by
  intro start c items c' way read
  refine commaList_induction (P := fun c items c' => ∀ before, start.Travels sub before c →
    start.Travels sub (before ++ items.flatMap own) c') ?_ ?_ read before way
  · intro c c' a only _ before way
    rw [List.flatMap_singleton]
    exact each before _ _ _ _ way only
  · intro c c₁ c₂ c' head tail comma first passed isComma later before way
    rw [List.flatMap_cons, ← List.append_assoc]
    exact later _ ((each before _ _ _ _ way first).skip (Passage.link passed (isComma ▸ by decide)))

theorem Goes.whileSeen {more} [Moves Cursor.Skips more] [Onward more] [Advances item]
    (each : ∀ before, Goes sub before item fun a => before ++ own a) :
    Goes sub before (whileSeen more item) fun items => before ++ items.flatMap own := by
  intro start c items c' way read
  refine whileSeen_induction (P := fun c items c' => ∀ before, start.Travels sub before c →
    start.Travels sub (before ++ items.flatMap own) c') ?_ ?_ read before way
  · intro c c' look before way
    rw [List.flatMap_nil, List.append_nil]
    exact goes_skips _ _ _ _ way look
  · intro c c₁ c₂ c' head tail look first later before way
    rw [List.flatMap_cons, ← List.append_assoc]
    exact later _ (each before _ _ _ _ (goes_skips _ _ _ _ way look) first)

theorem Goes.byClause [Onward item] {word}
    (each : ∀ before, Goes sub before item fun a => before ++ own a) :
    Goes sub before (byClause word item) fun items => before ++ items.flatMap own := by
  refine .seq fun seen => ?_
  split
  · exact .seq fun _ => .commaList each
  · exact .pure (List.append_nil before).symm

theorem Goes.bareRange {next}
    (second : ∀ range, range.joins = [] → Goes sub (before ++ range.parts) (next range) last) :
    Goes sub before (bareRange >>= next) last := by
  intro start c b c' way both
  obtain ⟨range, middle, begun, ended⟩ := bind_ok.mp both
  obtain ⟨told, lone⟩ := bareRange_tells begun
  refine second range lone start middle b c' (way.trans ?_) ended
  have names : Cursor.Travels sub _ _ _ := .names (links_of_ok begun) told
  simpa [Range.parts, lone] using names

theorem Goes.joined {next : JoinTarget → String → Option PropertyPath → Read β}
    (second : ∀ target name index,
      Goes sub (before ++ (target.uses name index).map .name) (next target name index) last) :
    Goes sub before (do
      let target ← joinTarget
      discard (eatWord "AS")
      let name ← aliasName .entityAlias
      let index ← indexBy
      next target name index) last := by
  intro start c b c' way read
  obtain ⟨target, named, led, read⟩ := bind_ok.mp read
  obtain ⟨_, given, skipped, read⟩ := bind_ok.mp read
  obtain ⟨name, indexed, declared, read⟩ := bind_ok.mp read
  obtain ⟨index, ended, by_, read⟩ := bind_ok.mp read
  have linked : c.Links ended := Passage.trans (links_of_ok led) (Passage.trans
    (links_of_ok skipped) (Passage.trans (links_of_ok declared) (links_of_ok by_)))
  have told := (joinTarget_tells led skipped declared).trans (indexBy_tells by_)
  have uses : target.uses name none ++ indexUses index = target.uses name index := by
    cases target <;> rfl
  exact second target name index start ended b c' (way.trans (.names linked (uses ▸ told))) read

section Clauses

variable [Onward sub]

theorem goes_expression (before : List Part) :
    Goes sub before (expression sub) fun e => before ++ [.expression e] :=
  fun _ _ _ _ way read => way.trans (.expression (expression_scans read))

theorem goes_clause {word} :
    Goes sub before (optionally word (expression sub)) fun clause =>
      before ++ clauseParts clause := by
  refine .seq fun seen => ?_
  split
  · exact (goes_expression before).bind fun e => .pure rfl
  · exact .pure (List.append_nil before).symm

theorem goes_selectItem (before : List Part) :
    Goes sub before (selectItem sub) fun item => before ++ item.parts := by
  refine (goes_expression before).bind fun e => .seq fun seen => ?_
  have named : Goes sub (before ++ [.expression e])
      (do return ⟨e, some (← aliasName .resultAlias)⟩ : Read (SelectItem _))
      fun item => before ++ item.parts :=
    (Goes.names resultAlias_tells).bind fun _ => .pure (List.append_assoc _ _ _)
  cases seen with
  | true => exact .seq fun _ => .seq fun _ => named
  | false =>
    refine .seq fun next => ?_
    split
    · exact named
    · exact .pure rfl

theorem goes_join (before : List Part) :
    Goes sub before (join sub) fun join => before ++ join.parts := by
  refine .seq fun isLeft => .seq fun _ => .seq fun _ => .joined fun target name index => ?_
  refine .seq fun seen => ?_
  split
  · have given (before : List Part) : Goes sub before (some <$> expression sub) fun clause =>
        before ++ clauseParts clause := by
      refine Goes.map ?_
      exact goes_expression before
    exact (given _).bind fun clause => .pure (List.append_assoc _ _ _)
  · exact goes_clause.bind fun clause => .pure (List.append_assoc _ _ _)

theorem goes_range (before : List Part) :
    Goes sub before (range sub) fun range => before ++ range.parts := by
  refine .bareRange fun bare lone => (Goes.whileSeen goes_join).bind fun joins => .pure ?_
  simp [Range.parts, lone]

theorem goes_orderItem (before : List Part) :
    Goes sub before (orderItem sub) fun item => before ++ [item.part] :=
  (goes_expression before).bind fun _ => .seq fun _ => .pure rfl

theorem goes_selectWith : Goes sub [] (selectWith sub) SelectOf.parts := by
  refine .seq fun _ => .seq fun _ => (Goes.commaList goes_selectItem).bind fun items => ?_
  refine .seq fun _ => (Goes.commaList goes_range).bind fun ranges => ?_
  refine goes_clause.bind fun filter => ?_
  refine (Goes.byClause goes_expression).bind fun groups => ?_
  refine goes_clause.bind fun groupFilter => ?_
  refine (Goes.byClause goes_orderItem).bind fun orders => .pure ?_
  simp only [SelectOf.parts, List.nil_append, ← List.map_eq_flatMap]

end Clauses

theorem goes_assignment (before : List Part) :
    Goes select before assignment fun a => before ++ a.parts :=
  (Goes.names simplePath_tells).bind fun _ => .seq fun _ => (goes_expression _).bind fun _ =>
    .pure (List.append_assoc _ _ _)

theorem goes_update : Goes select [] update Statement.parts := by
  refine .seq fun _ => .bareRange fun range _ => .seq fun _ => ?_
  exact (Goes.commaList goes_assignment).bind fun assignments =>
    goes_clause.bind fun filter => .pure rfl

theorem goes_delete : Goes select [] delete Statement.parts :=
  .seq fun _ => .seq fun _ => .bareRange fun _ _ => goes_clause.bind fun _ => .pure rfl

section Travels

variable {G : Cursor → List Part → Cursor → Prop} {c c' : Cursor}
  (goes : ∀ sub [Onward sub], (∀ {c query c'}, sub c = .ok query c' → G c query.parts c') →
    ∀ {c parts c'}, c.Travels sub parts c' → G c parts c')

include goes

/-- What is true of every way, given that it is true of the subselects on it, is true of select
    statements. -/
theorem select_travels {query} (read : select c = .ok query c') : G c query.parts c' := by
  replace read : selectUpTo (c.rest.length + 1) c = .ok query c' := read
  generalize c.rest.length + 1 = depth at read
  induction depth generalizing c query c' with
  | zero => exact (failUnexpected_ok.mp read).elim
  | succ depth ih =>
    exact goes (selectUpTo depth) ih (goes_selectWith c c query c' (.refl c) read)

theorem statement_travels (read : statement c = .ok s c') : G c s.parts c' := by
  rcases (statement_ok read).2 with ⟨query, selected, rfl⟩ | updated | deleted
  · exact select_travels goes selected
  · exact goes select (select_travels goes) (goes_update c c s c' (.refl c) updated)
  · exact goes select (select_travels goes) (goes_delete c c s c' (.refl c) deleted)

end Travels

theorem travels_tells {c c' : Cursor} {parts} (subselects : Tells sub)
    (way : c.Travels sub parts c') : c.Tells c' (parts.flatMap Part.uses) := by
  induction way with
  | names linked told => simpa [List.flatMap_map] using told
  | expression run =>
    obtain ⟨pieces, rfl, told⟩ := run.tells subselects
    rw [List.flatMap_singleton]
    exact told
  | trans _ _ first second =>
    rw [List.flatMap_append]
    exact first.trans second

theorem statement_tells {c c' : Cursor} (read : statement c = .ok s c') : c.Tells c' s.uses := by
  rw [s.uses_eq]
  exact statement_travels (G := fun c parts c' => c.Tells c' (parts.flatMap Part.uses))
    (fun _ _ subselects => travels_tells fun read => selectUses_eq _ ▸ subselects read) read

end Read

theorem Reading.outcome_ok {tokens} (read : (Reading.ofTokens tokens).outcome = .ok s) :
    Read.statement { rest := tokens } = .ok s ⟨[], (Reading.ofTokens tokens).mentions⟩ := by
  unfold Reading.ofTokens at read ⊢
  split at read
  next found cursor outcome =>
    cases read
    obtain ⟨ended, -⟩ := Read.statement_ok outcome
    rw [outcome, ← ended]
  next => cases read

/-- What is noted about a text that is read is all that its statement does with names, and the words
    for it stand in the text in that order. -/
theorem Reading.noted {tokens s} (read : (Reading.ofTokens tokens).outcome = .ok s) :
    Noted s.uses (Reading.ofTokens tokens).mentions ∧
      (s.uses.flatMap NameUse.words).Sublist (tokens.map (·.value)) := by
  obtain ⟨taken, noted, passed, known, words⟩ := Read.statement_tells (Reading.outcome_ok read)
  have all : (Reading.ofTokens tokens).mentions = noted := passed.mentions
  have text : tokens = taken ++ [] := passed.rest
  refine ⟨all ▸ known, ?_⟩
  rwa [text, List.append_nil]

end EntityAudit.Query
