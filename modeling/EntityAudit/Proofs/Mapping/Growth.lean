import EntityAudit.Mapping.Gateway
import EntityAudit.Proofs.Outcome

/-! # What a gateway learns

Look-ups make a gateway remember more classes, each as its source maps it, and change nothing that
it answered before. `Gateway.Maps` says how a gateway maps a class, whether it was asked or not.
-/

namespace EntityAudit

variable {name : String} {record : EntityRecord}

theorem Catalog.mappingOf_eq_orm {c : Catalog} :
    c.mappingOf name = .orm record ↔ c.records.get? (Text.foldCase name) = some record := by
  simp only [mappingOf]
  cases c.records.get? (Text.foldCase name) with
  | some found => simp
  | none => cases c.foreign.get? (Text.foldCase name) <;> simp

namespace Gateway

theorem resolve_toSource {c : Catalog} : resolve c.toSource name = .ok (c.mappingOf name) := by
  rw [resolve]
  split
  · rename_i unmapped
    simp only [Catalog.toSource, Catalog.isTransient, Bool.and_eq_true, Bool.not_eq_true', Dict.has,
      Option.isSome_eq_false_iff, Option.isNone_iff_eq_none] at unmapped
    simp only [Catalog.mappingOf, unmapped.1, unmapped.2]
  · rfl

/-- The gateway maps the class `name` by `record`: as it remembers the class, or else as its source
    maps a spelling of the name. -/
def Maps (g : Gateway) (name : String) (record : EntityRecord) : Prop :=
  match g.cache.get? (Text.foldCase name) with
  | some known => known.mapping = .orm record
  | none => ∃ source spelled, g.connect = .ok source ∧
      Text.foldCase spelled = Text.foldCase name ∧ resolve source spelled = .ok (.orm record)

theorem maps_ofCatalog {c : Catalog} :
    (ofSource c.toSource).Maps name record ↔
      c.records.get? (Text.foldCase name) = some record := by
  simp only [← Catalog.mappingOf_eq_orm]
  constructor
  · rintro ⟨_, spelled, ⟨⟩, same, found⟩
    rw [resolve_toSource, Except.ok.injEq, Catalog.mappingOf, same] at found
    exact found
  · intro found
    exact ⟨c.toSource, name, rfl, rfl, resolve_toSource.trans (congrArg _ found)⟩

/-- The gateway `g'` knows what `g` knew, and all it knows besides comes from the source. -/
structure Grows (g g' : Gateway) : Prop where
  connect : g'.connect = g.connect
  kept : ∀ {key known}, g.cache.get? key = some known → g'.cache.get? key = some known
  learnt : ∀ {key known}, g.cache.get? key = none → g'.cache.get? key = some known →
    ∃ source, g.connect = .ok source ∧ Text.foldCase known.className = key ∧
      resolve source known.className = .ok known.mapping

namespace Grows

variable {g₁ g₂ : Gateway}

theorem refl (g : Gateway) : g.Grows g where
  connect := rfl
  kept := id
  learnt absent known := by simp [absent] at known

theorem maps (grows : g₁.Grows g₂) (mapped : g₂.Maps name record) : g₁.Maps name record := by
  unfold Maps at mapped ⊢
  cases before : g₁.cache.get? (Text.foldCase name) with
  | some known =>
    rw [grows.kept before] at mapped
    exact mapped
  | none =>
    cases after : g₂.cache.get? (Text.foldCase name) with
    | none =>
      rw [after, grows.connect] at mapped
      exact mapped
    | some known =>
      rw [after] at mapped
      obtain ⟨source, connected, same, resolved⟩ := grows.learnt before after
      exact ⟨source, known.className, connected, same, mapped ▸ resolved⟩

end Grows

variable {g g' : Gateway}

theorem source?_ok {source} (found : source? g = .ok (some source) g') :
    g.connect = .ok source ∧
      g' = { g with connection := some (.ok source), loads := g.loads + g.mustLoad.toNat } := by
  simp only [source?, bind_ok, get_ok] at found
  obtain ⟨_, _, ⟨rfl, rfl⟩, found⟩ := found
  split at found
  next =>
    simp only [bind_ok, set_ok] at found
    obtain ⟨_, _, rfl, found⟩ := found
    cases connected : g.connect with
    | ok source' =>
      simp only [connected, pure_ok, Option.some.injEq] at found
      obtain ⟨rfl, rfl⟩ := found
      exact ⟨rfl, rfl⟩
    | error fault => simp only [connected, throw_ok] at found
  next => cases (pure_ok.mp found).1

theorem descriptor?_ok {known} (found : descriptor? name g = .ok (some known) g') :
    g.Grows g' ∧ g'.cache.get? (Text.foldCase name) = some known := by
  obtain ⟨answer, _, asked, found⟩ := bind_ok.mp found
  cases answer with
  | none => cases (pure_ok.mp found).1
  | some source =>
    obtain ⟨connected, rfl⟩ := source?_ok asked
    simp only [bind_ok, get_ok] at found
    obtain ⟨_, _, ⟨rfl, rfl⟩, found⟩ := found
    cases remembered : g.cache.get? (Text.foldCase name) with
    | some earlier =>
      simp only [remembered, bind_ok, set_ok, pure_ok, Option.some.injEq] at found
      obtain ⟨_, _, rfl, rfl, rfl⟩ := found
      exact ⟨⟨connected.symm, id, fun absent found => by simp [absent] at found⟩, remembered⟩
    | none =>
      simp only [remembered, bind_ok, set_ok] at found
      obtain ⟨_, _, rfl, mapping, _, consulted, found⟩ := found
      cases resolved : resolve source name with
      | error failure => simp [consult, resolved, bind_ok, throw_ok] at consulted
      | ok =>
        simp only [consult, resolved, bind_ok, modify_ok, pure_ok] at consulted
        obtain ⟨_, _, rfl, rfl, rfl⟩ := consulted
        simp only [modify_ok, pure_ok, Option.some.injEq] at found
        obtain ⟨_, _, rfl, rfl, rfl⟩ := found
        -- The one new entry has a name that was not remembered before.
        refine ⟨⟨connected.symm, fun known => ?_, fun absent found => ?_⟩, by simp⟩
        · rw [Dict.get?_put]
          split
          next same => simp [← same, remembered] at known
          next => exact known
        · rw [Dict.get?_put] at found
          split at found
          next same =>
            obtain rfl := Option.some.inj found
            exact ⟨source, connected, same, resolved⟩
          next => simp [absent] at found

theorem record?_ok (found : record? name g = .ok (some record) g') :
    g.Grows g' ∧ g.Maps name record := by
  simp only [record?, bind_ok, pure_ok] at found
  obtain ⟨answer, _, asked, bound, rfl⟩ := found
  obtain ⟨known, rfl, mapped⟩ := Option.bind_eq_some_iff.mp bound
  obtain ⟨grows, remembered⟩ := descriptor?_ok asked
  refine ⟨grows, grows.maps ?_⟩
  unfold Maps
  rw [remembered]
  cases kind : known.mapping with
  | orm record' => simp_all [ClassMapping.record?]
  | transient => simp [kind, ClassMapping.record?] at mapped
  | foreign driver => simp [kind, ClassMapping.record?] at mapped

end Gateway

end EntityAudit
