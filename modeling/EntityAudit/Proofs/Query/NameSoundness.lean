import EntityAudit.Proofs.Query.Passages
import EntityAudit.Proofs.Query.Resolution
import EntityAudit.Query.Compile

/-! # Names of accepted texts

In a text that is accepted every name has a meaning: uses of aliases and properties, which are
judged only at its end, as well as declarations, which are resolved on the way.
-/

namespace EntityAudit.Query

variable {aliases : Aliases} {text : String} {g g' : Gateway}
variable {uses : List NameUse} {parsed : Parsed}

theorem forM_ok {α ε : Type} {check : α → Except ε Unit} {items : List α}
    (checked : items.forM check = .ok ()) : ∀ item ∈ items, check item = .ok () := by
  induction items with
  | nil => simp
  | cons head tail ih =>
    replace checked : (check head >>= fun _ => tail.forM check) = .ok () := checked
    cases first : check head with
    | error e =>
      rw [first] at checked
      cases checked
    | ok =>
      rw [first] at checked
      exact List.forall_mem_cons.mpr ⟨first, ih checked⟩

theorem checkUses_ok {mentions} (checked : checkUses aliases mentions = .ok ()) {mention}
    (inside : mention ∈ mentions) :
    checkAlias aliases mention = .ok () ∧ checkProperty aliases mention = .ok () := by
  unfold checkUses at checked
  cases first : mentions.forM (checkAlias aliases) with
  | error e =>
    rw [first] at checked
    cases checked
  | ok =>
    rw [first] at checked
    exact ⟨forM_ok first _ inside, forM_ok checked _ inside⟩

theorem checkAlias_ok {token} (checked : checkAlias aliases (.variable token) = .ok ()) :
    aliases.has token.value := by
  simp only [checkAlias] at checked
  split at checked
  next found => exact found
  next => cases checked

theorem checkProperty_ok {aliasName field collection}
    (checked : checkProperty aliases (.path aliasName field collection) = .ok ()) :
    aliases.HasProperty ⟨aliasName.value, field.value⟩ (collection = true) := by
  simp only [checkProperty] at checked
  cases known : aliases.record? aliasName.value with
  | none => simp [known] at checked
  | some record =>
    refine ⟨record, record?_eq_some.mp known, ?_⟩
    simp only [known] at checked
    cases named : record.association? field.value with
    | none =>
      simp only [named] at checked
      split at checked
      next found => exact ⟨.inl found, fun _ absent => nomatch absent⟩
      next => cases checked
    | some association =>
      simp only [named] at checked
      split at checked
      next => cases checked
      next allowed =>
        refine ⟨.inr (by simp [EntityRecord.hasAssociation, named]), fun other same many => ?_⟩
        obtain rfl := Option.some.inj same
        simpa [many] using allowed

theorem Aliases.HasProperty.mono {path} {P Q : Prop} (has : aliases.HasProperty path P)
    (weaker : P → Q) : aliases.HasProperty path Q := by
  obtain ⟨record, known, property, many⟩ := has
  exact ⟨record, known, property, fun association named toMany =>
    weaker (many association named toMany)⟩

theorem Noted.mem {noted} (known : Noted uses noted) {use} (inside : use ∈ uses) :
    ∃ here, use.NotedAs here ∧ here ⊆ noted := by
  induction known with
  | nil => cases inside
  | cons first rest ih =>
    rcases List.mem_cons.mp inside with rfl | inside
    · exact ⟨_, first, List.subset_append_left _ _⟩
    · obtain ⟨here, noted, within⟩ := ih inside
      exact ⟨here, noted, List.Subset.trans within (List.subset_append_right _ _)⟩

theorem Noted.isResolved {noted} (known : Noted uses noted)
    (checked : checkUses aliases noted = .ok ()) {use} (inside : use ∈ uses)
    (silent : use.declares? = none) (g : Gateway) (earlier : List String) :
    use.IsResolved g aliases earlier := by
  obtain ⟨here, notedAs, within⟩ := known.mem inside
  cases notedAs with
  | range | join | result => cases silent
  | «variable» => exact checkAlias_ok (checkUses_ok checked (within (by simp))).1
  | path allowed =>
    exact (checkProperty_ok (checkUses_ok checked (within (by simp))).2).mono allowed
  | property =>
    exact (checkProperty_ok (checkUses_ok checked (within (by simp))).2).mono Bool.false_ne_true

theorem adaptExcept_ok {ε ε' σ α : Type} {f : ε → ε'} {x : EStateM ε σ α} {s s' : σ} {a : α} :
    (x.adaptExcept f) s = .ok a s' ↔ x s = .ok a s' := by
  unfold EStateM.adaptExcept
  cases x s <;> simp

theorem parse_reads (accepted : parse text g = .ok parsed g') :
    let reading := Reading.ofTokens (Token.scan text)
    reading.outcome = .ok parsed.statement ∧
      resolveAliases reading.mentions g = .ok parsed.aliases g' ∧
      checkUses parsed.aliases reading.mentions = .ok () := by
  obtain ⟨aliases, g₁, resolved, accepted⟩ := bind_ok.mp accepted
  cases outcome : (Reading.ofTokens (Token.scan text)).outcome with
  | error fault => simp only [outcome, throw_ok] at accepted
  | ok s =>
    simp only [outcome] at accepted
    cases checked : checkUses aliases (Reading.ofTokens (Token.scan text)).mentions with
    | error cause => simp only [checked, throw_ok] at accepted
    | ok =>
      simp only [checked, pure_ok] at accepted
      obtain ⟨rfl, rfl⟩ := accepted
      exact ⟨outcome, adaptExcept_ok.mp resolved, checked⟩

theorem parse_ok (accepted : parse text g = .ok parsed g') :
    ∃ mentions, Noted parsed.statement.uses mentions ∧
      (parsed.statement.uses.flatMap NameUse.words).Sublist ((Token.scan text).map (·.value)) ∧
      resolveAliases mentions g = .ok parsed.aliases g' ∧
      checkUses parsed.aliases mentions = .ok () := by
  obtain ⟨outcome, resolved, checked⟩ := parse_reads accepted
  obtain ⟨known, words⟩ := Reading.noted outcome
  exact ⟨_, known, words, resolved, checked⟩

theorem compile_ok {compiled} :
    compile text g = .ok compiled g' ↔ ∃ parsed, parse text g = .ok parsed g' ∧
      compiled = .ofStatement parsed.aliases parsed.statement := by
  unfold compile
  simp only [bind_ok, pure_ok]
  constructor
  · rintro ⟨parsed, _, found, rfl, rfl⟩
    exact ⟨parsed, found, rfl⟩
  · rintro ⟨parsed, found, rfl⟩
    exact ⟨parsed, g', found, rfl, rfl⟩

theorem exists_parsed
    (found : (match parse text g with
      | .ok parsed _ => some parsed.aliases
      | .error _ _ => none) = some aliases) :
    ∃ parsed g', parse text g = .ok parsed g' ∧ parsed.aliases = aliases := by
  cases accepted : parse text g with
  | ok parsed g' =>
    rw [accepted] at found
    exact ⟨parsed, g', rfl, Option.some.inj found⟩
  | error e g' =>
    rw [accepted] at found
    cases found

theorem resolveAliases_ok {mentions} (known : Noted uses mentions)
    (resolved : resolveAliases mentions g = .ok aliases g') : ResolvesAll g [] uses aliases := by
  obtain ⟨r, _, run, resolved⟩ := bind_ok.mp resolved
  obtain ⟨rfl, rfl⟩ := pure_ok.mp resolved
  exact known.resolves run

/-- A declaration has the meaning it got on the way, any other use the one it has at the end. -/
theorem parse_uses_resolved (accepted : parse text g = .ok parsed g') {earlier later use}
    (parts : parsed.statement.uses = earlier ++ use :: later) :
    use.IsResolved g parsed.aliases (declared earlier) := by
  obtain ⟨mentions, known, -, resolved, checked⟩ := parse_ok accepted
  cases declares : use.declares? with
  | none => exact known.isResolved checked (by simp [parts]) declares g _
  | some name =>
    exact (resolveAliases_ok known resolved).resolved earlier use later parts
      (by simp [declares])

theorem parse_declares (accepted : parse text g = .ok parsed g') :
    parsed.aliases.keys = declared parsed.statement.uses ∧
      (declared parsed.statement.uses).Nodup := by
  obtain ⟨mentions, known, -, resolved, -⟩ := parse_ok accepted
  have all := resolveAliases_ok known resolved
  have table : parsed.aliases.keys = declared parsed.statement.uses := all.keys
  exact ⟨table, table ▸ all.nodup List.nodup_nil⟩

/-- Every name in a statement has a meaning. -/
structure Statement.NamesSound (text : String) (g : Gateway) (s : Statement) (aliases : Aliases) :
    Prop where
  /-- The uses of names are listed in the order of the text. -/
  order : (s.uses.flatMap NameUse.words).Sublist ((Token.scan text).map (·.value))
  /-- The table holds the declared aliases in order, -/
  table : aliases.keys = declared s.uses
  /-- each of which is declared once. -/
  once : (declared s.uses).Nodup
  /-- All that the statement does with names, indexes included, is right where it stands. -/
  uses : ∀ earlier use later, s.uses = earlier ++ use :: later →
    use.IsResolved g aliases (declared earlier)
  /-- A variable in an expression at any depth is an alias. -/
  aliasUses : ∀ e ∈ s.expressions, ∀ aliasName, .variable aliasName ∈ e → aliases.has aliasName
  /-- A path in an expression at any depth is a property of its alias, to many only in place. -/
  paths : ∀ e ∈ s.expressions, ∀ before path after, e = before ++ .path path :: after →
    aliases.HasProperty path (IsCollectionPlace before after)
  /-- The fields of a partial object are properties of its alias, none of them to many. -/
  partials : ∀ e ∈ s.expressions, ∀ aliasName fields, .partialObject aliasName fields ∈ e →
    aliases.has aliasName ∧ ∀ field ∈ fields, aliases.HasProperty ⟨aliasName, field⟩ False
  /-- What an update assigns to is a property of its alias, not to many. -/
  targets : ∀ range assignments filter, s = .update range assignments filter →
    ∀ a ∈ assignments, aliases.HasProperty a.target False

theorem Statement.namesSound {s : Statement}
    (order : (s.uses.flatMap NameUse.words).Sublist ((Token.scan text).map (·.value)))
    (declares : aliases.keys = declared s.uses ∧ (declared s.uses).Nodup)
    (resolved : ∀ {earlier use later}, s.uses = earlier ++ use :: later →
      use.IsResolved g aliases (declared earlier)) : s.NamesSound text g aliases := by
  refine ⟨order, declares.1, declares.2, fun _ _ _ => resolved, ?_, ?_, ?_, ?_⟩
  · intro e inside aliasName member
    obtain ⟨before, after, parts⟩ := List.append_of_mem member
    obtain ⟨_, _, split⟩ := Statement.uses_split inside parts (List.mem_singleton_self _)
    exact resolved split
  · intro e inside before path after parts
    obtain ⟨_, _, split⟩ := Statement.uses_split inside parts (List.mem_singleton_self _)
    exact resolved split
  · intro e inside aliasName fields member
    obtain ⟨before, after, parts⟩ := List.append_of_mem member
    obtain ⟨_, _, split⟩ := Statement.uses_split inside parts List.mem_cons_self
    refine ⟨resolved split, fun field given => ?_⟩
    obtain ⟨_, _, split⟩ := Statement.uses_split inside parts
      (List.mem_cons_of_mem _ (List.mem_map_of_mem given))
    exact resolved split
  · intro range assignments filter same a given
    have member : NameUse.property a.target ∈ s.uses := by
      rw [same]
      refine List.mem_append_left _ (List.mem_append_right _ ?_)
      exact List.mem_flatMap.mpr ⟨a, given, List.mem_cons_self⟩
    obtain ⟨_, _, split⟩ := List.append_of_mem member
    exact resolved split

/-- Every name in a text that is accepted has a meaning. -/
theorem parse_names_sound {text : String} {g g' : Gateway} {parsed : Parsed}
    (accepted : parse text g = .ok parsed g') :
    parsed.statement.NamesSound text g parsed.aliases := by
  obtain ⟨mentions, -, order, -, -⟩ := parse_ok accepted
  exact Statement.namesSound order (parse_declares accepted) (parse_uses_resolved accepted)

/-- A partial object, an index, a join to many, a test for emptiness and a subselect that names its
    result, over two mapped classes. -/
theorem parse_names_sound_subselect :
    let text := "SELECT PARTIAL i.\x7bid\x7d FROM User u INDEX BY u.id JOIN u.items i " ++
      "WHERE u.items IS NOT EMPTY AND i.id IN (SELECT MAX(x.id) n FROM item x)"
    let id : Field := { name := "id", column := "id", columnType := "integer" }
    let user : EntityRecord :=
      { className := "User", table := "users", fields := [id],
        associations := [.toMany "items" "Item"] }
    let item : EntityRecord := { className := "Item", table := "items", fields := [id] }
    let g : Gateway := .ofSource (Catalog.toSource { records := [("user", user), ("item", item)] })
    ∃ parsed g', parse text g = .ok parsed g' ∧
      parsed.aliases =
        [("u", .entity user), ("i", .entity item), ("n", .result), ("x", .entity item)] ∧
      parsed.statement.NamesSound text g parsed.aliases :=
  (exists_parsed (by decide +kernel)).imp fun _ found => found.imp fun _ both =>
    ⟨both.1, both.2, parse_names_sound both.1⟩

end EntityAudit.Query
