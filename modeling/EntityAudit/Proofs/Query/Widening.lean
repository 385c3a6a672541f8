import EntityAudit.Proofs.Query.Locality

/-! # More uses of names

A text that mentions what another one does, and uses more aliases and properties in between,
resolves to the same table of aliases. It is accepted with the other one if what it uses in addition
is in that table.
-/

namespace EntityAudit.Query

theorem Token.Same.declare_ok {t t' : Token} {r r' : Resolved} {component : Component}
    (same : t.Same t') (done : r.declare t component g = .ok r' g') :
    r.declare t' component g = .ok r' g' := by
  rw [Resolved.declare, same.value] at done
  rw [Resolved.declare]
  cases known : r.aliases.has t'.value with
  | true =>
    rw [known, if_pos rfl] at done
    exact (throw_ok.mp done).elim
  | false =>
    rw [known] at done
    exact done

namespace Mention

/-- Whether the mention uses an alias or a property, and declares nothing. -/
def IsUse : Mention → Prop
  | .variable _ | .path _ _ _ => True
  | _ => False

def IsSound (aliases : Aliases) : Mention → Prop
  | .variable t => aliases.has t.value
  | .path a field collection => aliases.HasProperty ⟨a.value, field.value⟩ (collection = true)
  | _ => False

variable {aliases : Aliases} {m m' : Mention} {ms ms' : List Mention}

theorem IsSound.isUse (sound : m.IsSound aliases) : m.IsUse := by
  cases m with
  | «variable» | path => exact trivial
  | _ => exact sound

theorem IsSound.checkAlias_ok (sound : m.IsSound aliases) : checkAlias aliases m = .ok () := by
  cases m with
  | «variable» t => exact if_pos sound
  | path a field collection =>
    obtain ⟨record, known, -⟩ := sound
    exact if_pos (by rw [Dict.has, known]; rfl)
  | _ => cases sound

theorem IsSound.checkProperty_ok (sound : m.IsSound aliases) :
    checkProperty aliases m = .ok () := by
  cases m with
  | «variable» t => rfl
  | path a field collection =>
    obtain ⟨record, known, property, many⟩ := sound
    simp only [checkProperty, record?_eq_some.mpr known]
    cases named : record.association? field.value with
    | none =>
      simp only [EntityRecord.hasAssociation, named, Option.isSome_none, Bool.false_eq_true,
        or_false] at property
      exact if_pos property
    | some association =>
      have allowed : ¬(association.cardinality = .toMany ∧ collection = false) := by
        rintro ⟨toMany, no⟩
        cases no.symm.trans (many association named toMany)
      exact if_neg allowed
  | _ => cases sound

theorem Same.checks_ok (same : m.Same m')
    (checked : checkAlias aliases m = .ok () ∧ checkProperty aliases m = .ok ()) :
    checkAlias aliases m' = .ok () ∧ checkProperty aliases m' = .ok () := by
  cases same with
  | @«variable» t t' tokens =>
    have sound : (Mention.variable t').IsSound aliases := by
      rw [IsSound, ← tokens.value]
      exact Query.checkAlias_ok checked.1
    exact ⟨sound.checkAlias_ok, rfl⟩
  | @path a a' f f' collection names fields =>
    have sound : (Mention.path a' f' collection).IsSound aliases := by
      rw [IsSound, ← names.value, ← fields.value]
      exact Query.checkProperty_ok checked.2
    exact ⟨sound.checkAlias_ok, sound.checkProperty_ok⟩
  | _ => exact ⟨rfl, rfl⟩

theorem Same.step_ok {r r' : Resolved} {g g' : Gateway} (same : m.Same m')
    (done : r.step m g = .ok r' g') : r.step m' g = .ok r' g' := by
  cases same with
  | className tokens =>
    obtain ⟨found, _, looked, done⟩ := bind_ok.mp done
    rw [tokens.value] at looked
    refine (bind_of_ok looked _).trans ?_
    cases found with
    | none => exact (throw_ok.mp done).elim
    | some record => exact done
  | @joinRoot t t' next next' tokens =>
    rw [Resolved.step, tokens.value] at done
    rw [Resolved.step]
    cases known : r.aliases.record? t'.value with
    | none => simp only [known, throw_ok] at done
    | some record =>
      simp only [known] at done ⊢
      exact done
  | @joinField t t' next next' tokens =>
    rw [Resolved.step, tokens.value] at done
    rw [Resolved.step]
    cases subject : r.subject with
    | none =>
      simp only [subject] at done ⊢
      exact done
    | some parent =>
      simp only [subject] at done ⊢
      cases named : parent.association? t'.value with
      | none => simp only [named, throw_ok] at done
      | some association =>
        simp only [named] at done ⊢
        exact done
  | entityAlias tokens =>
    rw [Resolved.step] at done ⊢
    cases subject : r.subject with
    | none =>
      simp only [subject] at done ⊢
      exact done
    | some record =>
      simp only [subject] at done ⊢
      exact tokens.declare_ok done
  | resultAlias tokens => exact tokens.declare_ok done
  | «variable» | path => exact done

theorem IsUse.step_eq (use : m.IsUse) (r : Resolved) (g : Gateway) : r.step m g = .ok r g := by
  cases m with
  | «variable» | path => rfl
  | _ => cases use

namespace Widened

theorem foldlM_ok {r g g'} (widened : Widened IsUse ms ms')
    (done : ms.foldlM Resolved.step {} g = .ok r g') :
    ms'.foldlM Resolved.step {} g = .ok r g' := by
  induction widened generalizing r g' with
  | nil => exact done
  | both _ same ih =>
    rw [List.foldlM_append] at done ⊢
    obtain ⟨_, _, earlier, done⟩ := bind_ok.mp done
    rw [bind_of_ok (ih earlier)]
    rw [List.foldlM_cons] at done ⊢
    obtain ⟨_, _, step, done⟩ := bind_ok.mp done
    rw [bind_of_ok (same.step_ok step)]
    exact done
  | more _ use ih =>
    rw [List.foldlM_append, bind_of_ok (ih done), List.foldlM_cons, bind_of_ok (use.step_eq _ _)]
    rfl

theorem resolveAliases_ok {g g'} (widened : Widened IsUse ms ms')
    (resolved : resolveAliases ms g = .ok aliases g') : resolveAliases ms' g = .ok aliases g' := by
  obtain ⟨r, _, run, rest⟩ := bind_ok.mp resolved
  exact (bind_of_ok (widened.foldlM_ok run) _).trans rest

theorem mono {extra extra'} (weaker : ∀ {m}, extra m → extra' m) (widened : Widened extra ms ms') :
    Widened extra' ms ms' := by
  induction widened with
  | nil => exact .nil
  | both _ same ih => exact .both ih same
  | more _ added ih => exact .more ih (weaker added)

theorem mem {extra} (widened : Widened extra ms ms') (inside : m' ∈ ms') :
    extra m' ∨ ∃ m ∈ ms, m.Same m' := by
  induction widened with
  | nil => cases inside
  | both _ same ih =>
    rcases List.mem_append.mp inside with earlier | here
    · rcases ih earlier with added | ⟨m, known, alike⟩
      · exact .inl added
      · exact .inr ⟨m, List.mem_append_left _ known, alike⟩
    · obtain rfl := List.mem_singleton.mp here
      exact .inr ⟨_, List.mem_append_right _ List.mem_cons_self, same⟩
  | more _ added ih =>
    rcases List.mem_append.mp inside with earlier | here
    · exact ih earlier
    · obtain rfl := List.mem_singleton.mp here
      exact .inl added

end Widened

end Mention

theorem forM_of_forall {α ε : Type} {check : α → Except ε Unit} {items : List α}
    (each : ∀ item ∈ items, check item = .ok ()) : items.forM check = .ok () := by
  induction items with
  | nil => rfl
  | cons head tail ih =>
    have first := each head List.mem_cons_self
    have later := ih fun item inside => each item (List.mem_cons_of_mem _ inside)
    rw [List.forM, first]
    exact later

theorem checkUses_of_forall {ms}
    (each : ∀ m ∈ ms, checkAlias aliases m = .ok () ∧ checkProperty aliases m = .ok ()) :
    checkUses aliases ms = .ok () := by
  rw [checkUses, forM_of_forall fun m inside => (each m inside).1]
  exact forM_of_forall fun m inside => (each m inside).2

theorem Mention.Widened.checkUses_ok {ms ms'} (widened : Widened (IsSound aliases) ms ms')
    (checked : checkUses aliases ms = .ok ()) : checkUses aliases ms' = .ok () := by
  apply checkUses_of_forall
  intro m' inside
  rcases widened.mem inside with sound | ⟨m, known, same⟩
  · exact ⟨sound.checkAlias_ok, sound.checkProperty_ok⟩
  · exact same.checks_ok (Query.checkUses_ok checked known)

open Read

/-- A text is accepted if it is read to its end, its aliases resolve, and all that it uses is in
    their table. -/
theorem parse_eq_ok_iff {text parsed} :
    parse text g = .ok parsed g' ↔
      ∃ d, statement ⟨Token.scan text, []⟩ = .ok parsed.statement d ∧
        resolveAliases d.mentions g = .ok parsed.aliases g' ∧
        checkUses parsed.aliases d.mentions = .ok () := by
  constructor
  · intro accepted
    obtain ⟨outcome, resolved, checked⟩ := parse_reads accepted
    cases read : statement ⟨Token.scan text, []⟩ with
    | error => simp only [Reading.ofTokens, read, reduceCtorEq] at outcome
    | ok s d =>
      simp only [Reading.ofTokens, read] at outcome resolved checked
      obtain rfl := Except.ok.inj outcome
      exact ⟨d, rfl, resolved, checked⟩
  · rintro ⟨d, read, resolved, checked⟩
    have judged : (resolveAliases d.mentions).adaptExcept (Rejection.ofNameFailure text) g =
        .ok parsed.aliases g' := adaptExcept_ok.mpr resolved
    simp only [parse, Reading.ofTokens, read]
    rw [bind_of_ok judged, checked]
    rfl

variable {c d : Cursor} {q : Select}
variable {g' g : Gateway} {aliases : Aliases}

theorem statement_ok_of_sees {s} (seen : c.rest.head?.any (·.isWord "SELECT") = true) :
    statement c = .ok s d ↔ ∃ q, s = .select q ∧ select c = .ok q d ∧ d.rest = [] := by
  have looks (word : String) : sees word c = .ok (c.rest.head?.any (·.isWord word)) c := rfl
  rw [statement, bind_of_ok (looks _), bind_of_ok (looks _), bind_of_ok (looks _), seen, if_pos rfl]
  constructor
  · intro read
    obtain ⟨_, _, inner, read⟩ := bind_ok.mp read
    obtain ⟨q, selected, rfl⟩ := map_ok.mp inner
    obtain ⟨ended, rfl, rfl⟩ := ended_ok read
    exact ⟨q, rfl, selected, ended⟩
  · rintro ⟨q, rfl, selected, ended⟩
    have ends : peek d = .ok none d := by rw [← List.head?_nil, ← ended]; rfl
    exact (bind_of_ok (map_ok.mpr ⟨q, selected, rfl⟩) _).trans (bind_of_ok ends _)

theorem sees_of_selectWith {sub} (read : selectWith sub c = .ok q d) :
    c.rest.head?.any (·.isWord "SELECT") = true := by
  obtain ⟨_, _, first, -⟩ := bind_ok.mp read
  exact sees_of_expectWord first

theorem parse_select_ok {text} :
    parse text g = .ok ⟨.select q, aliases⟩ g' ↔
      ∃ d, selectWith select ⟨Token.scan text, []⟩ = .ok q d ∧
        d.rest = [] ∧ resolveAliases d.mentions g = .ok aliases g' ∧
        checkUses aliases d.mentions = .ok () := by
  constructor
  · intro accepted
    obtain ⟨d, read, resolved, checked⟩ := parse_eq_ok_iff.mp accepted
    obtain ⟨ended, ⟨_, selected, same⟩ | updated | deleted⟩ := statement_ok read
    · obtain rfl := Statement.select.inj same
      exact ⟨d, select_eq ▸ selected, ended, resolved, checked⟩
    · obtain ⟨_, _, _, _, _, _, _, _, _, -, -, -, -, -, same⟩ := update_ok updated
      cases same
    · obtain ⟨_, _, _, _, _, -, -, -, same⟩ := delete_ok deleted
      cases same
  · rintro ⟨d, read, ended, resolved, checked⟩
    have whole := (statement_ok_of_sees (sees_of_selectWith read)).mpr
      ⟨q, rfl, select_eq ▸ read, ended⟩
    exact parse_eq_ok_iff.mpr ⟨d, whole, resolved, checked⟩

theorem select_of_parse {text parsed} (accepted : parse text g = .ok parsed g')
    (seen : (Token.scan text).head?.any (·.isWord "SELECT") = true) :
    ∃ q d, parsed.statement = .select q ∧
      selectWith select ⟨Token.scan text, []⟩ = .ok q d ∧
      resolveAliases d.mentions g = .ok parsed.aliases g' := by
  obtain ⟨d, read, resolved, -⟩ := parse_eq_ok_iff.mp accepted
  obtain ⟨q, same, selected, -⟩ := (statement_ok_of_sees seen).mp read
  exact ⟨q, d, same, select_eq ▸ selected, resolved⟩

end EntityAudit.Query
