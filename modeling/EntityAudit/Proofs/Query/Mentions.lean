import EntityAudit.Proofs.Query.NameUse
import EntityAudit.Proofs.Query.Scanning

/-! # What readers note about names

A reader notes every use of names in what it reads, in the order of the text and nothing besides.
A use is noted as one mention or a few in a row.
-/

namespace EntityAudit.Query

/-- The mentions by which a reader notes a use. -/
inductive NameUse.NotedAs : NameUse → List Mention → Prop where
  | range {entity aliasName} (isAlias : aliasName.isAlias) :
      NotedAs (.range entity.value aliasName.value) [.className entity, .entityAlias aliasName]
  | join {parent field aliasName next next'} (isAlias : aliasName.isAlias) :
      NotedAs (.join ⟨parent.value, field.value⟩ aliasName.value)
        [.joinRoot parent next, .joinField field next', .entityAlias aliasName]
  | result {aliasName} (isAlias : aliasName.isAlias) :
      NotedAs (.result aliasName.value) [.resultAlias aliasName]
  | variable {aliasName} : NotedAs (.variable aliasName.value) [.variable aliasName]
  | path {aliasName field collection before after}
      (allowed : collection = true → IsCollectionPlace before after) :
      NotedAs (.path ⟨aliasName.value, field.value⟩ before after)
        [.path aliasName field collection]
  | property {aliasName field} :
      NotedAs (.property ⟨aliasName.value, field.value⟩) [.path aliasName field false]

/-- The mentions by which a reader notes uses one after the other. -/
inductive Noted : List NameUse → List Mention → Prop where
  | nil : Noted [] []
  | cons {use uses here later} (first : use.NotedAs here) (rest : Noted uses later) :
      Noted (use :: uses) (here ++ later)

theorem Noted.append {uses uses' noted noted'} (first : Noted uses noted)
    (second : Noted uses' noted') : Noted (uses ++ uses') (noted ++ noted') := by
  induction first with
  | nil => exact second
  | cons head _ ih =>
    rw [List.append_assoc]
    exact .cons head ih

/-- Reading from `c` to `c'` goes past the words of `uses` in order, and notes them. -/
def Cursor.Tells (c c' : Cursor) (uses : List NameUse) : Prop :=
  ∃ taken noted, c.Passes c' taken noted ∧ Noted uses noted ∧
    (uses.flatMap NameUse.words).Sublist (taken.map (·.value))

section Tells

variable {c₁ c₂ c₃ : Cursor} {uses uses' : List NameUse} {taken : List Token}

theorem Cursor.Tells.refl (c : Cursor) : c.Tells c [] :=
  ⟨[], [], .refl c, .nil, .slnil⟩

theorem Cursor.Tells.trans (first : c₁.Tells c₂ uses) (second : c₂.Tells c₃ uses') :
    c₁.Tells c₃ (uses ++ uses') := by
  obtain ⟨_, _, passed, noted, words⟩ := first
  obtain ⟨_, _, passed', noted', words'⟩ := second
  refine ⟨_, _, passed.trans passed', noted.append noted', ?_⟩
  rw [List.flatMap_append, List.map_append]
  exact words.append words'

theorem Cursor.Passes.tells {use noted} (passed : c₁.Passes c₂ taken noted)
    (known : use.NotedAs noted) (words : use.words.Sublist (taken.map (·.value))) :
    c₁.Tells c₂ [use] :=
  ⟨taken, noted, passed, by simpa using Noted.cons known .nil, by simpa using words⟩

theorem Cursor.Passes.thenTells (passed : c₁.Passes c₂ taken []) (told : c₂.Tells c₃ uses) :
    c₁.Tells c₃ uses := by
  obtain ⟨_, _, passed', noted, words⟩ := told
  refine ⟨_, _, passed.trans passed', noted, ?_⟩
  rw [List.map_append]
  exact words.trans (List.sublist_append_right _ _)

theorem Cursor.Tells.thenPasses (told : c₁.Tells c₂ uses) (passed : c₂.Passes c₃ taken []) :
    c₁.Tells c₃ uses := by
  obtain ⟨_, _, passed', noted, words⟩ := told
  refine ⟨_, _, passed'.trans passed, by simpa using noted, ?_⟩
  rw [List.map_append]
  exact words.trans (List.sublist_append_left _ _)

end Tells

namespace Read

variable {sub : Read Select} {c c' : Cursor}

/-- A piece that uses no names. -/
def IsNameless (piece : Piece) : Prop :=
  ∀ before after, pieceUses piece before after = []

theorem Progress.Takes.isNameless {p next : Progress} {t following piece}
    (takes : p.Takes t following piece next) : IsNameless piece := by
  intro before after
  cases takes <;> rfl

theorem isCollectionPlace_of_allowsCollection {before} (allowed : allowsCollection before = true)
    (after : Expression) : IsCollectionPlace before after := by
  have same := before.reverse_reverse
  revert allowed
  fun_cases allowsCollection before with
  | case1 rest reversed =>
    intro _
    rw [reversed, List.reverse_cons] at same
    exact .inl ⟨_, same⟩
  | case2 name rest reversed =>
    intro named
    rw [reversed, List.reverse_cons, List.reverse_cons, List.append_assoc] at same
    exact .inr (.inl ⟨name, eq_of_beq named, _, same⟩)
  | case3 => exact fun no => nomatch no

theorem noted_partialObject (aliasName : Token) (fields : List Token) :
    Noted (pieceUses (.partialObject aliasName.value (fields.map (·.value))) [] [])
      (.variable aliasName :: fields.map fun field => .path aliasName field false) := by
  refine .cons .variable ?_
  induction fields with
  | nil => exact .nil
  | cons field rest ih => exact .cons .property ih

theorem words_partialObject (aliasName : String) (fields : List String) :
    (pieceUses (.partialObject aliasName fields) [] []).flatMap NameUse.words =
      aliasName :: fields := by
  simp [pieceUses, NameUse.words, List.flatMap_map]

/-- The words of a test for emptiness. -/
def emptinessWords : List String := ["IS", "NOT", "EMPTY"]

theorem action_emptinessWord (p : Progress) {token word} (isWord : token.isWord word)
    (inside : word ∈ emptinessWords) (following : Option Token) :
    ∃ next, p.action token following = .take next ∧ next.pieces = p.pieces ++ [.keyword word] := by
  simp only [Token.isWord, Bool.and_eq_true, beq_iff_eq] at isWord
  obtain ⟨isIdentifier, rfl⟩ := isWord
  generalize raised : Text.raiseCase token.value = word at inside
  have reserved : isReserved token.value = true := by
    simp only [emptinessWords, List.mem_cons, List.not_mem_nil, or_false] at inside
    rcases inside with rfl | rfl | rfl <;> simp only [isReserved, raised] <;> decide
  simp only [Progress.action, isIdentifier, reserved, if_true, raised]
  simp only [emptinessWords, List.mem_cons, List.not_mem_nil, or_false] at inside
  rcases inside with rfl | rfl | rfl <;> exact ⟨_, rfl, rfl⟩

theorem Scans.emptinessWord {p e token rest word} (scanned : Scans sub p c e c')
    (here : c.rest = token :: rest) (isWord : token.isWord word) (inside : word ∈ emptinessWords) :
    ∃ next, next.pieces = p.pieces ++ [.keyword word] ∧ Scans sub next ⟨rest, c.mentions⟩ e c' := by
  obtain ⟨next, chosen, pushed⟩ := action_emptinessWord p isWord inside rest.head?
  -- The word is always taken, so the run cannot stop here or take any other step.
  exact ⟨next, pushed, scanned.take here chosen⟩

/-- A reader of subselects that notes what they do with names. -/
def Tells (sub : Read Select) : Prop :=
  ∀ {c query c'}, sub c = .ok query c' → c.Tells c' (selectUses query)

/-- A step reads one piece and notes what it does with names. A test for emptiness among the tokens
    after a path has to turn up among the pieces after it. -/
theorem ScanStep.tells (subselects : Tells sub) {p next : Progress}
    (step : ScanStep sub p c next c') :
    ∃ piece, next.pieces = p.pieces ++ [piece] ∧ ∀ after,
      (TestsEmptiness c'.rest → IsCollectionPlace p.pieces after) →
        c.Tells c' (pieceUses piece p.pieces after) := by
  cases step with
  | take here chosen =>
    obtain ⟨piece, takes⟩ := takes_of_action chosen
    refine ⟨piece, takes.pieces, fun after _ => ?_⟩
    rw [takes.isNameless]
    exact (Cursor.Passes.token here).thenTells (.refl _)
  | «variable» here chosen =>
    exact ⟨_, rfl, fun _ _ => (Cursor.Passes.noting here _).tells .variable (.refl _)⟩
  | path here chosen read =>
    obtain ⟨aliasName, field, taken, collection, passed, rfl, allowed⟩ := path_ok read
    refine ⟨_, rfl, fun after tested =>
      passed.tells (.path fun yes => ?_) (by simp [NameUse.words])⟩
    rcases allowed yes with place | test
    · exact isCollectionPlace_of_allowsCollection place after
    · exact tested test
  | partialObject here chosen read =>
    obtain ⟨aliasName, fields, taken, passed, within, rfl⟩ := partialObject_ok read
    refine ⟨_, rfl, fun _ _ => (Cursor.Passes.token here).thenTells ?_⟩
    refine ⟨taken, _, passed, noted_partialObject aliasName fields, ?_⟩
    exact words_partialObject _ _ ▸ within.map Token.value
  | subselect here chosen read closed isClosing =>
    refine ⟨_, rfl, fun _ _ => ?_⟩
    exact (Cursor.Passes.token here).thenTells ((subselects read).thenPasses closed)

theorem Scans.testsEmptiness {p e after} (scanned : Scans sub p c e c')
    (parts : e = p.pieces ++ after) (test : TestsEmptiness c.rest) (before : Expression) :
    IsCollectionPlace before after := by
  rcases test with ⟨is, empty, rest, here, isWord, emptyWord⟩ |
    ⟨is, not, empty, rest, here, isWord, notWord, emptyWord⟩
  · obtain ⟨p₁, pushed₁, scanned⟩ := scanned.emptinessWord here isWord (by decide)
    obtain ⟨p₂, pushed₂, scanned⟩ := scanned.emptinessWord rfl emptyWord (by decide)
    have whole := scanned.begins
    rw [parts, pushed₂, pushed₁, List.append_assoc, List.prefix_append_right_inj] at whole
    exact .inr (.inr (.inl whole))
  · obtain ⟨p₁, pushed₁, scanned⟩ := scanned.emptinessWord here isWord (by decide)
    obtain ⟨p₂, pushed₂, scanned⟩ := scanned.emptinessWord rfl notWord (by decide)
    obtain ⟨p₃, pushed₃, scanned⟩ := scanned.emptinessWord rfl emptyWord (by decide)
    have whole := scanned.begins
    rw [parts, pushed₃, pushed₂, pushed₁, List.append_assoc, List.append_assoc,
      List.prefix_append_right_inj] at whole
    exact .inr (.inr (.inr whole))

theorem Scans.tells (subselects : Tells sub) {p e} (scanned : Scans sub p c e c') :
    ∃ pieces, e = p.pieces ++ pieces ∧ c.Tells c' (piecesUses pieces p.pieces) := by
  induction scanned with
  | stop => exact ⟨[], (List.append_nil _).symm, .refl _⟩
  | step first rest ih =>
    -- The pieces after this one are known only from the rest of the run.
    obtain ⟨pieces, parts, later⟩ := ih
    obtain ⟨piece, pushed, here⟩ := first.tells subselects
    refine ⟨piece :: pieces, by rw [parts, pushed, List.append_assoc, List.singleton_append], ?_⟩
    rw [pushed] at later
    exact (here pieces fun test => rest.testsEmptiness parts test _).trans later

theorem resultAlias_tells {name} (read : aliasName .resultAlias c = .ok name c') :
    c.Tells c' [.result name] := by
  obtain ⟨token, passed, isAlias, rfl⟩ := aliasName_ok read
  exact passed.tells (.result isAlias) (.refl _)

theorem simplePath_tells {path} (read : simplePath c = .ok path c') :
    c.Tells c' [.property path] := by
  obtain ⟨_, _, _, passed, -, -, -, rfl⟩ := simplePath_ok read
  exact passed.tells .property (by simp [NameUse.words])

theorem indexBy_tells {index} (read : indexBy c = .ok index c') : c.Tells c' (indexUses index) := by
  rcases indexBy_ok read with ⟨_, _, _, path, skipped, -, -, inner, rfl⟩ | ⟨rfl, rfl⟩
  · exact skipped.thenTells (simplePath_tells inner)
  · exact .refl c

variable {last end_ : Cursor} {word name : String} {index : Option PropertyPath} {u : PUnit}

theorem className_tells {entity} (first : className c = .ok entity c')
    (skipped : discard (eatWord word) c' = .ok u last)
    (given : aliasName .entityAlias last = .ok name end_) : c.Tells end_ [.range entity name] := by
  obtain ⟨token, passed, -, rfl⟩ := className_ok first
  obtain ⟨_, quiet⟩ := skips_of_ok skipped
  obtain ⟨token', passed', isAlias, rfl⟩ := aliasName_ok given
  refine (passed.trans (quiet.trans passed')).tells (.range isAlias) ?_
  simp [NameUse.words]

theorem bareRange_tells {found} (read : bareRange c = .ok found c') :
    c.Tells c' (.range found.className found.aliasName :: indexUses found.index) ∧
      found.joins = [] := by
  simp only [bareRange, bind_ok, pure_ok] at read
  obtain ⟨_, _, first, _, _, skipped, _, _, given, _, _, index, rfl, rfl⟩ := read
  exact ⟨(className_tells first skipped given).trans (indexBy_tells index), rfl⟩

theorem joinTarget_tells {target} (led : joinTarget c = .ok target c')
    (skipped : discard (eatWord word) c' = .ok u last)
    (given : aliasName .entityAlias last = .ok name end_) :
    c.Tells end_ (target.uses name none) := by
  rcases joinTarget_ok led with ⟨_, _, _, _, _, passed, rfl⟩ | ⟨entity, first, rfl⟩
  · obtain ⟨_, quiet⟩ := skips_of_ok skipped
    obtain ⟨token, passed', isAlias, rfl⟩ := aliasName_ok given
    refine (passed.trans (quiet.trans passed')).tells (.join isAlias) ?_
    simp [NameUse.words]
  · exact className_tells first skipped given

end Read

end EntityAudit.Query
