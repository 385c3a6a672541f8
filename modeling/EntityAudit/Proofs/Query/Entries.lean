import EntityAudit.Proofs.Query.Locality

/-! # Select lists with one entry more

What becomes of a select statement when one more entry stands in its select list. The entries around
it and everything after the list are read as before, since reading is local.
-/

namespace EntityAudit.Query

variable {ended : Cursor} {entry : List Token}

set_option synthInstance.maxSize 2000

/-- The token is the number with these digits. -/
structure Token.IsNumber (t : Token) (digits : String) : Prop where
  kind : t.kind = .integer ∨ t.kind = .float
  value : t.value = digits

namespace Read

variable {sub : Read Select} {c c' d : Cursor}

variable {before later : List (SelectItem Expression)} {middle : Cursor} {isDistinct : Bool}
  {q : Select} {last : SelectItem Expression} {tokens : List Token}

section Lists

variable {α : Type} {item : Read α}

/-- Items are read, each with a comma after it. -/
inductive Listed (item : Read α) : Cursor → List α → Cursor → Prop
  | nil (c : Cursor) : Listed item c [] c
  | cons {c c₁ c₂ d a as comma} (first : item c = .ok a c₁) (divided : c₁.Passes c₂ [comma] [])
      (isComma : comma.kind = .comma) (others : Listed item c₂ as d) : Listed item c (a :: as) d

theorem eatKind_passes {kind t} (is : t.kind = kind) (passed : c.Passes d [t] []) :
    eatKind kind c = .ok true d := by
  have approved : (fun t : Token => t.kind == kind) t = true := beq_iff_eq.mpr is
  rw [eatKind, bind_of_ok (eat?_passes approved passed)]
  rfl

theorem eatKind_none {kind} (refused : c.rest.head?.any (·.kind == kind) = false) :
    eatKind kind c = .ok false c := by
  rw [eatKind, bind_of_ok (eat?_none refused)]
  rfl

theorem commaList_listed [Onward item] {items} (read : commaList item c = .ok items d) :
    ∃ before a middle, items = before ++ [a] ∧ Listed item c before middle ∧
      item middle = .ok a d ∧ eatKind .comma d = .ok false d := by
  refine commaList_induction (P := fun c items d => ∃ before a middle,
    items = before ++ [a] ∧ Listed item c before middle ∧ item middle = .ok a d ∧
      eatKind .comma d = .ok false d) ?_ ?_ read
  · intro c d a only ended
    exact ⟨[], a, c, rfl, .nil c, only, ended⟩
  · rintro c c₁ c₂ d a as comma first passed isComma ⟨before, last, middle, parts, listed, ended⟩
    exact ⟨a :: before, last, middle, by rw [parts]; rfl, .cons first passed isComma listed, ended⟩

theorem Listed.commaList_ok [Onward item] {before a} (listed : Listed item c before middle)
    (last : item middle = .ok a d) (ended : eatKind .comma d = .ok false d) :
    commaList item c = .ok (before ++ [a]) d := by
  induction listed with
  | nil c =>
    rw [commaList_eq, bind_of_ok last, bind_of_ok ended, if_neg Bool.false_ne_true]
    rfl
  | cons first divided isComma others ih =>
    rw [commaList_eq, bind_of_ok first, bind_of_ok (eatKind_passes isComma divided), if_pos rfl,
      bind_of_ok (ih last)]
    rfl

theorem Listed.append {before later} (first : Listed item c before middle)
    (second : Listed item middle later d) : Listed item c (before ++ later) d := by
  induction first with
  | nil => exact second
  | cons found divided isComma _ ih => exact .cons found divided isComma (ih second)

theorem Listed.split {before later} (listed : Listed item c (before ++ later) d) :
    ∃ middle, Listed item c before middle ∧ Listed item middle later d := by
  induction before generalizing c with
  | nil => exact ⟨c, .nil c, listed⟩
  | cons a before ih =>
    cases listed with
    | cons first divided isComma others =>
      obtain ⟨middle, earlier, later⟩ := ih others
      exact ⟨middle, .cons first divided isComma earlier, later⟩

theorem Listed.onward [Onward item] {as} (listed : Listed item c as d) : d.rest <:+ c.rest := by
  induction listed with
  | nil => exact List.suffix_refl _
  | cons first divided _ _ ih =>
    exact ih.trans (List.IsSuffix.trans ⟨_, divided.rest.symm⟩ (onward_of_ok first))

theorem Listed.mimics [Onward item] {k : Seam}
    (inner : ∀ {k : Seam} [k.Divides], Mimics k item item Eq) {as} (holds : k.Holds c c')
    (listed : Listed item c as d) (inside : k.after.length ≤ d.rest.length) :
    ∃ d', Listed item c' as d' ∧ k.Holds d d' := by
  induction listed generalizing c' with
  | nil c => exact ⟨c', .nil c', holds⟩
  | @cons _ _ _ _ _ _ comma first divided isComma others ih =>
    have later := others.onward.length_le
    have each {k : Seam} (head : k.after.head? = some comma)
        (heads : Option.Rel Token.Same _ _) : Mimics k item item Eq :=
      have : k.Divides := ⟨heads, by rw [head]; simp [Token.isDivider, isComma]⟩
      inner
    obtain ⟨_, _, comma', _, first', rfl, divided', same, holds⟩ :=
      Mimics.upTo each holds first divided (by omega)
    obtain ⟨d', others', holds⟩ := ih holds inside
    exact ⟨d', .cons first' divided' (same.kind ▸ isComma) others', holds⟩

end Lists

def afterItems (sub : Read Select) (isDistinct : Bool) (items : List (SelectItem Expression)) :
    Read Select := do
  expectWord "FROM"
  let ranges ← commaList (range sub)
  let filter ← optionally "WHERE" (expression sub)
  afterFilter sub (isDistinct, items, ranges) filter

/-- The place in a select list after the entries `before` is reached. -/
def ReachesEntry (sub : Read Select) (c : Cursor) (isDistinct : Bool)
    (before : List (SelectItem Expression)) (d : Cursor) : Prop :=
  ∃ begun listed, expectWord "SELECT" c = .ok () begun ∧
    eatWord "DISTINCT" begun = .ok isDistinct listed ∧ Listed (selectItem sub) listed before d

theorem ReachesEntry.more (reaches : ReachesEntry sub c isDistinct before middle)
    (listed : Listed (selectItem sub) middle later d) :
    ReachesEntry sub c isDistinct (before ++ later) d := by
  obtain ⟨begun, start, select, distinct, each⟩ := reaches
  exact ⟨begun, start, select, distinct, each.append listed⟩

theorem ReachesEntry.split (reaches : ReachesEntry sub c isDistinct (before ++ later) d) :
    ∃ middle, ReachesEntry sub c isDistinct before middle ∧
      Listed (selectItem sub) middle later d := by
  obtain ⟨begun, listed, select, distinct, each⟩ := reaches
  obtain ⟨middle, earlier, later⟩ := each.split
  exact ⟨middle, ⟨begun, listed, select, distinct, earlier⟩, later⟩

theorem selectWith_entries [Onward sub] (read : selectWith sub c = .ok q d) :
    ∃ before last middle ended, q.items = before ++ [last] ∧
      ReachesEntry sub c q.isDistinct before middle ∧ selectItem sub middle = .ok last ended ∧
      eatKind .comma ended = .ok false ended ∧
      afterItems sub q.isDistinct q.items ended = .ok q d := by
  obtain ⟨_, begun, select, read⟩ := bind_ok.mp read
  obtain ⟨isDistinct, listed, distinct, read⟩ := bind_ok.mp read
  obtain ⟨items, ended, list, read⟩ := bind_ok.mp read
  have shared : q.isDistinct = isDistinct ∧ q.items = items := by
    simp only [bind_ok, pure_ok] at read
    obtain ⟨_, _, -, _, _, -, _, _, -, _, _, -, _, _, -, _, _, -, rfl, -⟩ := read
    exact ⟨rfl, rfl⟩
  obtain ⟨rfl, rfl⟩ := shared
  obtain ⟨before, last, middle, parts, each, found, comma⟩ := commaList_listed list
  exact ⟨before, last, middle, ended, parts, ⟨begun, listed, select, distinct, each⟩, found, comma,
    read⟩

theorem ReachesEntry.selectWith_eq [Onward sub]
    (reaches : ReachesEntry sub c isDistinct before middle)
    (found : selectItem sub middle = .ok last ended)
    (comma : eatKind .comma ended = .ok false ended) :
    selectWith sub c = afterItems sub isDistinct (before ++ [last]) ended := by
  obtain ⟨begun, listed, select, distinct, each⟩ := reaches
  have list := each.commaList_ok found comma
  exact (bind_of_ok select _).trans ((bind_of_ok distinct _).trans (bind_of_ok list _))

theorem afterItems_ok {items} (read : afterItems sub isDistinct items c = .ok q d)
    (items' : List (SelectItem Expression)) :
    afterItems sub isDistinct items' c = .ok { q with items := items' } d := by
  simp only [afterItems, afterFilter, bind_ok, pure_ok] at read ⊢
  obtain ⟨_, _, from_, ranges, _, ranged, filter, _, filtered, groups, _, grouped, limit, _,
    limited, orders, _, ordered, rfl, rfl⟩ := read
  exact ⟨_, _, from_, ranges, _, ranged, filter, _, filtered, groups, _, grouped, limit, _,
    limited, orders, _, ordered, rfl, rfl⟩

/-- What stands at the place of a new entry: the entry and the comma that divides it from its
    neighbour, which is the next entry, or the last one if there is none. -/
def besideComma (isLast : Bool) (comma : Token) (entry : List Token) : List Token :=
  if isLast then comma :: entry else entry ++ [comma]

/-- One more entry, which stands between `before` and `after`, is reached, and once it is read, the
    tokens are read as `q` with it, as far as the cursor `d` in the text of `q`. -/
def Accommodates (sub : Read Select) (extra : Mention → Prop) (q : Select) (d : Cursor)
    (before after : List (SelectItem Expression)) (entry tokens : List Token) : Prop :=
  ∃ m follow, ReachesEntry sub ⟨tokens, []⟩ q.isDistinct before m ∧ m.rest = entry ++ follow ∧
    follow.head?.any Token.isDivider = true ∧
    ∀ item uses, selectItem sub m = .ok item ⟨follow, m.mentions ++ uses⟩ →
      (∀ use ∈ uses, extra use) →
      ∃ d', selectWith sub ⟨tokens, []⟩ = .ok { q with items := before ++ item :: after } d' ∧
        Seam.Holds ⟨[], [], extra⟩ d d'

theorem isDivider_of_afterItems {items} (rest : afterItems sub isDistinct items c = .ok q d) :
    c.rest.head?.any Token.isDivider = true := by
  obtain ⟨_, ranged, from_, -⟩ := bind_ok.mp rest
  obtain ⟨word, passed, isFrom⟩ := expectWord_ok from_
  rw [passed.rest]
  exact Token.isDivider_of_isWord isFrom (by decide)

theorem all_of_any {accept} {next : Option Token} (some : next.any accept = true) :
    next.all accept = true := by
  cases next with
  | none => rfl
  | some t => exact some

theorem head_of_append {accept more} (plain : entry.head?.any accept = true) :
    (entry ++ more).head?.any accept = true := by
  cases entry with
  | nil => cases plain
  | cons t _ => exact plain

theorem concat_parts {α : Type} {all before later : List α} {last final}
    (same : all ++ [last] = before ++ later.concat final) :
    all = before ++ later ∧ last = final := by
  rw [List.concat_eq_append, ← List.append_assoc] at same
  obtain ⟨first, single⟩ := List.append_inj' same rfl
  exact ⟨first, List.singleton_inj.mp single⟩

theorem selectItem_number [Onward sub] {digits}
    (read : selectItem sub c = .ok ⟨[.number digits], none⟩ d) :
    ∃ t, c.Passes d [t] [] ∧ t.IsNumber digits := by
  obtain ⟨middle, found, ⟨_, _, _, -, -, no⟩ | ⟨-, rfl⟩⟩ := selectItem_ok read
  · cases no
  obtain ⟨next, first, pushed⟩ := (expression_scans found).single rfl
  cases first with
  | @take t _ _ here chosen =>
    obtain ⟨piece, takes⟩ := takes_of_action chosen
    cases takes with
    | number kind =>
      cases pushed
      exact ⟨t, .token here, kind, rfl⟩
    | _ => cases pushed
  | «variable» => cases pushed
  | path _ _ read =>
    obtain ⟨_, _, _, _, -, rfl, -⟩ := path_ok read
    cases pushed
  | partialObject _ _ read =>
    obtain ⟨_, _, _, -, -, rfl⟩ := partialObject_ok read
    cases pushed
  | subselect => cases pushed

theorem ReachesEntry.onward [Onward sub] (reaches : ReachesEntry sub c isDistinct before d) :
    d.rest <:+ c.rest := by
  obtain ⟨begun, listed, select, distinct, each⟩ := reaches
  exact each.onward.trans ((onward_of_ok distinct).trans (onward_of_ok select))

section Entries

variable [MimicsSelects sub] {k : Seam} {extra : Mention → Prop}
variable {front front' back' : List Token} {after : List (SelectItem Expression)}

instance [k.Divides] {items} :
    Mimics k (afterItems sub isDistinct items) (afterItems sub isDistinct items) Eq := by
  unfold afterItems; infer_instance

theorem ReachesEntry.mimics (plain : k.after'.head?.any (·.isWord "DISTINCT") = false)
    (holds : k.Holds c c') (reaches : ReachesEntry sub c isDistinct before d)
    (inside : k.after.length ≤ d.rest.length) :
    ∃ d', ReachesEntry sub c' isDistinct before d' ∧ k.Holds d d' := by
  obtain ⟨begun, listed, select, distinct, each⟩ := reaches
  have eats : Mimics k (eatWord "DISTINCT") (eatWord "DISTINCT") Eq :=
    mimics_eaten (isPlaceless_isWord _) fun found => by rw [plain] at found; cases found
  have later := each.onward.length_le
  have earlier := length_le_of_ok distinct
  obtain ⟨begun', select', holds⟩ := mimics_ok holds select (by omega)
  obtain ⟨listed', distinct', holds⟩ := mimics_ok holds distinct (by omega)
  obtain ⟨d', each', holds⟩ := each.mimics inferInstance holds inside
  exact ⟨d', ⟨begun', listed', select', distinct', each'⟩, holds⟩

theorem completes_list {item m' n n'} (reaches : ReachesEntry sub c' q.isDistinct before m')
    (reads : selectItem sub m' = .ok item n') (holds : Seam.Holds ⟨[], [], extra⟩ n n')
    (comma : eatKind .comma n = .ok false n)
    (rest : afterItems sub q.isDistinct q.items n = .ok q d) :
    ∃ d', selectWith sub c' = .ok { q with items := before ++ [item] } d' ∧
      Seam.Holds ⟨[], [], extra⟩ d d' := by
  obtain ⟨same, comma', -⟩ := mimics_ok holds comma (Nat.zero_le _)
  obtain rfl : n' = same := by
    rcases eatKind_ok comma' with ⟨no, -⟩ | ⟨-, same⟩
    · cases no
    · exact same
  obtain ⟨d', rest', holds⟩ := mimics_ok holds rest (Nat.zero_le _)
  refine ⟨d', ?_, holds⟩
  rw [reaches.selectWith_eq reads comma', afterItems_ok rest' _]

theorem completes_entry {item m m'}
    (reaches : ReachesEntry sub c' q.isDistinct (before ++ [item]) m')
    (holds : Seam.Holds ⟨[], [], extra⟩ m m') (listed : Listed (selectItem sub) m later middle)
    (found : selectItem sub middle = .ok last ended)
    (comma : eatKind .comma ended = .ok false ended)
    (rest : afterItems sub q.isDistinct q.items ended = .ok q d) :
    ∃ d', selectWith sub c' = .ok { q with items := before ++ item :: (later ++ [last]) } d' ∧
      Seam.Holds ⟨[], [], extra⟩ d d' := by
  obtain ⟨middle', listed', holds⟩ := listed.mimics inferInstance holds (Nat.zero_le _)
  obtain ⟨ended', found', holds⟩ := mimics_ok holds found (Nat.zero_le _)
  have parts : before ++ item :: (later ++ [last]) = before ++ [item] ++ later ++ [last] := by simp
  rw [parts]
  exact completes_list (reaches.more listed') found' holds comma rest

theorem ReachesEntry.elsewhere {other m} (extra : Mention → Prop)
    (reaches : ReachesEntry sub ⟨tokens, []⟩ isDistinct before m) (whole : tokens = front ++ m.rest)
    (sameFront : List.Forall₂ Token.Same front front')
    (plain : other.head?.any (fun t => !t.isWord "DISTINCT") = true) :
    ∃ m', ReachesEntry sub ⟨front' ++ other, []⟩ isDistinct before m' ∧ m'.rest = other ∧
      Mention.Widened extra m.mentions m'.mentions := by
  let k : Seam := ⟨m.rest, other, extra⟩
  have notDistinct : k.after'.head?.any (·.isWord "DISTINCT") = false := by
    cases other with
    | nil => cases plain
    | cons t _ => simpa [k] using plain
  have starts : k.Holds ⟨tokens, []⟩ ⟨front' ++ other, []⟩ := by
    rw [whole]
    exact .intro sameFront .nil
  obtain ⟨m', reaches', holds⟩ := reaches.mimics notDistinct starts (Nat.le_refl _)
  exact ⟨m', reaches', holds.atSeam rfl⟩

theorem isDivider_of_same {back} (same : List.Forall₂ Token.Same back back')
    (divides : back.head?.any Token.isDivider = true) : back'.head?.any Token.isDivider = true := by
  rwa [← any_eq_of_heads (fun same => same.isDivider_eq) (Token.rel_head_of_same same)]

theorem accommodates_before {m} (reaches : ReachesEntry sub ⟨tokens, []⟩ q.isDistinct before m)
    (listed : Listed (selectItem sub) m later middle)
    (found : selectItem sub middle = .ok last ended)
    (comma : eatKind .comma ended = .ok false ended)
    (rest : afterItems sub q.isDistinct q.items ended = .ok q d) {divider}
    (whole : tokens = front ++ m.rest) (sameFront : List.Forall₂ Token.Same front front')
    (sameBack : List.Forall₂ Token.Same m.rest back') (isComma : divider.kind = .comma)
    (plain : entry.head?.any (fun t => !t.isWord "DISTINCT") = true) :
    Accommodates sub extra q d before (later ++ [last]) entry
      (front' ++ (entry ++ divider :: back')) := by
  obtain ⟨m', reaches', rest', widened⟩ :=
    reaches.elsewhere extra whole sameFront (head_of_append plain)
  refine ⟨m', divider :: back', reaches', rest', by simp [Token.isDivider, isComma], ?_⟩
  intro item uses reads sound
  have onward := reaches'.more
    (.cons reads (.token rfl) isComma (.nil ⟨back', m'.mentions ++ uses⟩))
  exact completes_entry onward (.toEnd sameBack (widened.append sound)) listed found comma rest

theorem accommodates_after (reaches : ReachesEntry sub ⟨tokens, []⟩ q.isDistinct before middle)
    (found : selectItem sub middle = .ok last ended)
    (comma : eatKind .comma ended = .ok false ended)
    (rest : afterItems sub q.isDistinct q.items ended = .ok q d) {divider} (entry : List Token)
    (whole : tokens = front ++ ended.rest) (sameFront : List.Forall₂ Token.Same front front')
    (sameBack : List.Forall₂ Token.Same ended.rest back') (isComma : divider.kind = .comma) :
    Accommodates sub extra q d (before ++ [last]) [] entry
      (front' ++ (divider :: entry ++ back')) := by
  have fromDivides := isDivider_of_afterItems rest
  let k : Seam := ⟨ended.rest, divider :: entry ++ back', extra⟩
  have ends : k.Ends := ⟨all_of_any fromDivides, by simp [k, Token.isDivider, isComma]⟩
  have notDistinct : k.after'.head?.any (·.isWord "DISTINCT") = false := by
    simp [k, Token.isWord, isComma]
  have starts : k.Holds ⟨tokens, []⟩ ⟨front' ++ (divider :: entry ++ back'), []⟩ := by
    rw [whole]
    exact .intro sameFront .nil
  obtain ⟨middle', reaches', holds⟩ := reaches.mimics notDistinct starts (length_le_of_ok found)
  obtain ⟨ended', found', holds⟩ := mimics_ok holds found (Nat.le_refl _)
  obtain ⟨rest', widened⟩ := holds.atSeam rfl
  have onward := reaches'.more
    (.cons found' (.token rest') isComma (.nil ⟨entry ++ back', ended'.mentions⟩))
  refine ⟨_, back', onward, rfl, isDivider_of_same sameBack fromDivides, fun added uses reads sound => ?_⟩
  exact completes_list onward reads (.toEnd sameBack (widened.append sound)) comma rest

theorem accommodates_instead {m n digits}
    (reaches : ReachesEntry sub ⟨tokens, []⟩ q.isDistinct before m)
    (number : selectItem sub m = .ok ⟨[.number digits], none⟩ n) (whole : tokens = front ++ m.rest)
    (sameFront : List.Forall₂ Token.Same front front')
    (sameBack : List.Forall₂ Token.Same n.rest back') (divides : n.rest.head?.any Token.isDivider)
    (plain : entry.head?.any (fun t => !t.isWord "DISTINCT") = true)
    (completes : ∀ {item m' n'}, ReachesEntry sub ⟨front' ++ (entry ++ back'), []⟩ q.isDistinct
      before m' → selectItem sub m' = .ok item n' → Seam.Holds ⟨[], [], extra⟩ n n' → ∃ d',
      selectWith sub ⟨front' ++ (entry ++ back'), []⟩ = .ok
      { q with items := before ++ item :: after } d' ∧ Seam.Holds ⟨[], [], extra⟩ d d') :
    Accommodates sub extra q d before after entry (front' ++ (entry ++ back')) := by
  obtain ⟨t, passed, -⟩ := selectItem_number number
  obtain ⟨m', reaches', rest', widened⟩ :=
    reaches.elsewhere extra whole sameFront (head_of_append plain)
  refine ⟨m', back', reaches', rest', isDivider_of_same sameBack divides, fun item uses reads sound => ?_⟩
  have silent : n.mentions = m.mentions := passed.mentions.trans (List.append_nil _)
  exact completes reaches' reads (.toEnd sameBack (silent ▸ widened.append sound))

/-- Between any two entries of a select list, and at both its ends, there is a place for one more:
    it is reached in every text with an entry there, and once the entry is read, so is the rest. -/
theorem exists_place (read : selectWith sub ⟨tokens, []⟩ = .ok q d)
    (parts : q.items = before ++ after) :
    ∃ front back, tokens = front ++ back ∧
      ∀ (extra : Mention → Prop) {front' back' entry : List Token} {comma : Token},
        List.Forall₂ Token.Same front front' → List.Forall₂ Token.Same back back' →
        comma.kind = .comma →
        entry.head?.any (fun t => !t.isWord "DISTINCT") = true →
        Accommodates sub extra q d before after entry
          (front' ++ (besideComma after.isEmpty comma entry ++ back')) := by
  obtain ⟨all, last, middle, ended, items, reaches, found, comma, rest⟩ := selectWith_entries read
  rcases List.eq_nil_or_concat after with rfl | ⟨later, final, rfl⟩
  · obtain rfl : before = all ++ [last] := by rw [← items, parts, List.append_nil]
    obtain ⟨front, whole⟩ := (onward_of_ok found).trans reaches.onward
    refine ⟨front, ended.rest, whole.symm, ?_⟩
    intro extra front' back' entry divider sameFront sameBack isComma _
    exact accommodates_after reaches found comma rest entry whole.symm sameFront sameBack isComma
  · obtain ⟨rfl, rfl⟩ := concat_parts (items.symm.trans parts)
    obtain ⟨m, reaches, listed⟩ := reaches.split
    obtain ⟨front, whole⟩ := reaches.onward
    refine ⟨front, m.rest, whole.symm, ?_⟩
    intro extra front' back' entry divider sameFront sameBack isComma plain
    have shown : besideComma (later.concat last).isEmpty divider entry ++ back' =
        entry ++ divider :: back' := by
      simp [besideComma]
    rw [shown, List.concat_eq_append]
    exact accommodates_before reaches listed found comma rest whole.symm sameFront sameBack isComma
      plain

theorem exists_place_of_number (read : selectWith sub ⟨tokens, []⟩ = .ok q d) {digits}
    (parts : q.items = before ++ ⟨[.number digits], none⟩ :: after) :
    ∃ front number back, tokens = front ++ number :: back ∧ number.IsNumber digits ∧
      ∀ (extra : Mention → Prop) {front' back' entry : List Token},
        List.Forall₂ Token.Same front front' → List.Forall₂ Token.Same back back' →
        entry.head?.any (fun t => !t.isWord "DISTINCT") = true →
        Accommodates sub extra q d before after entry (front' ++ (entry ++ back')) := by
  obtain ⟨all, last, middle, ended, items, reaches, found, comma, rest⟩ := selectWith_entries read
  rcases List.eq_nil_or_concat after with rfl | ⟨later, final, rfl⟩
  · obtain ⟨rfl, same⟩ := List.append_inj' (items.symm.trans parts) rfl
    obtain rfl := List.singleton_inj.mp same
    obtain ⟨front, whole⟩ := reaches.onward
    obtain ⟨t, passed, isNumber⟩ := selectItem_number found
    refine ⟨front, t, ended.rest, whole.symm.trans (congrArg (front ++ ·) passed.rest), isNumber,
      ?_⟩
    intro extra front' back' entry sameFront sameBack plain
    exact accommodates_instead reaches found whole.symm sameFront sameBack
      (isDivider_of_afterItems rest) plain fun reaches reads holds =>
        completes_list reaches reads holds comma rest
  · obtain ⟨rfl, rfl⟩ : all = before ++ ⟨[.number digits], none⟩ :: later ∧ last = final :=
      concat_parts (items.symm.trans parts)
    obtain ⟨m, reaches, listed⟩ := reaches.split
    cases listed with
    | @cons _ n _ _ _ _ divider first divided isComma others =>
    obtain ⟨front, whole⟩ := reaches.onward
    obtain ⟨t, passed, isNumber⟩ := selectItem_number first
    refine ⟨front, t, n.rest, whole.symm.trans (congrArg (front ++ ·) passed.rest), isNumber,
      ?_⟩
    intro extra front' back' entry sameFront sameBack plain
    have divides : n.rest.head?.any Token.isDivider = true := by
      rw [divided.rest]
      simp [Token.isDivider, isComma]
    rw [List.concat_eq_append]
    refine accommodates_instead reaches first whole.symm sameFront sameBack divides plain
      fun reaches reads holds => ?_
    obtain ⟨divider', _, divided', same, holds⟩ := holds.token divided (Nat.zero_le _)
    have onward := reaches.more (.cons reads divided' (same.kind ▸ isComma) (.nil _))
    exact completes_entry onward holds others found comma rest

end Entries

end Read

end EntityAudit.Query
