import EntityAudit.Proofs.Mapping.Growth
import EntityAudit.Proofs.Query.Mentions
import EntityAudit.Query.Names

/-! # How aliases are resolved

Resolution goes through the uses of a statement in the order of its text. A declaration adds one new
alias and no use changes an entry, so the finished table holds the declared aliases in order.
-/

namespace EntityAudit.Query

/-- The record of the alias has a property of the path's name. Where that is an association to many,
    the place of the path must be one for collections. -/
def Aliases.HasProperty (aliases : Aliases) (path : PropertyPath) (forCollections : Prop) : Prop :=
  ∃ record, aliases.get? path.aliasName = some (.entity record) ∧
    (record.hasField path.field ∨ record.hasAssociation path.field) ∧
    ∀ association, record.association? path.field = some association →
      association.cardinality = .toMany → forCollections

/-- The alias is a word that is not reserved, it is not among `earlier`, and it stands for
    `component`. -/
structure Aliases.Declares (aliases : Aliases) (earlier : List String) (aliasName : String)
    (component : Component) : Prop where
  notReserved : isReserved aliasName = false
  isNew : aliasName ∉ earlier
  means : aliases.get? aliasName = some component

/-- The names of a use have a meaning in the finished table, where `earlier` are the aliases that
    were declared before. -/
def NameUse.IsResolved (g : Gateway) (aliases : Aliases) (earlier : List String) : NameUse → Prop
  | .range className aliasName =>
    ∃ record, g.Maps className record ∧ aliases.Declares earlier aliasName (.entity record)
  | .join p aliasName =>
    p.aliasName ∈ earlier ∧ ∃ parent association record,
      aliases.get? p.aliasName = some (.entity parent) ∧
      parent.association? p.field = some association ∧ g.Maps association.target record ∧
      aliases.Declares earlier aliasName (.entity record)
  | .result aliasName => aliases.Declares earlier aliasName .result
  | .variable aliasName => aliases.has aliasName
  | .path p before after => aliases.HasProperty p (IsCollectionPlace before after)
  | .property p => aliases.HasProperty p False

/-- One table holds all entries of the other. -/
def Aliases.Extends (aliases aliases' : Aliases) : Prop :=
  ∀ {name component}, aliases.get? name = some component → aliases'.get? name = some component

variable {g g' : Gateway} {r r' : Resolved}
variable {token : Token}

theorem record?_ok {className found} (looked : Resolve.record? className g = .ok found g') :
    Gateway.record? className g = .ok found g' := by
  unfold Resolve.record? at looked
  split at looked
  next answer => cases looked; exact answer
  next => cases looked

theorem subject_ok {className failure}
    (resolved : (do
      match ← Resolve.record? className with
      | some record => return { r with subject := some record }
      | none => throw failure) g = .ok r' g') :
    ∃ record, g.Grows g' ∧ g.Maps className record ∧ r' = { r with subject := some record } := by
  obtain ⟨found, _, looked, resolved⟩ := bind_ok.mp resolved
  cases found with
  | none => exact (throw_ok.mp resolved).elim
  | some record =>
    obtain ⟨grows, maps⟩ := Gateway.record?_ok (record?_ok looked)
    obtain ⟨rfl, rfl⟩ := pure_ok.mp resolved
    exact ⟨record, grows, maps, rfl⟩

theorem className_step_ok (resolved : r.step (.className token) g = .ok r' g') :
    ∃ record, g.Grows g' ∧ g.Maps token.value record ∧ r' = { r with subject := some record } :=
  subject_ok resolved

theorem record?_eq_some {aliases : Aliases} {aliasName record} :
    aliases.record? aliasName = some record ↔ aliases.get? aliasName = some (.entity record) := by
  unfold Aliases.record?
  split <;> simp_all

theorem joinRoot_step_ok {next : Option Token}
    (resolved : r.step (.joinRoot token next) g = .ok r' g') :
    ∃ parent, r.aliases.get? token.value = some (.entity parent) ∧ g = g' ∧
      r' = { r with subject := some parent } := by
  simp only [Resolved.step] at resolved
  cases found : r.aliases.record? token.value with
  | none => simp only [found, throw_ok] at resolved
  | some parent =>
    simp only [found, pure_ok] at resolved
    exact ⟨parent, record?_eq_some.mp found, resolved.2, resolved.1.symm⟩

theorem joinField_step_ok {parent next} (subject : r.subject = some parent)
    (resolved : r.step (.joinField token next) g = .ok r' g') :
    ∃ association record, parent.association? token.value = some association ∧ g.Grows g' ∧
      g.Maps association.target record ∧ r' = { r with subject := some record } := by
  simp only [Resolved.step, subject] at resolved
  cases named : parent.association? token.value with
  | none => simp only [named, throw_ok] at resolved
  | some association =>
    simp only [named] at resolved
    obtain ⟨record, grows, maps, rfl⟩ := subject_ok resolved
    exact ⟨association, record, rfl, grows, maps, rfl⟩

/-- The new alias `aliasName` is added to a table. -/
structure Aliases.Adds (aliases : Aliases) (aliasName : String) (component : Component)
    (aliases' : Aliases) : Prop where
  notReserved : isReserved aliasName = false
  isNew : aliasName ∉ aliases.keys
  table : aliases' = aliases.put aliasName component

/-- What resolving a use does to the table: a declaration adds an alias, and nothing else changes
    it. -/
def NameUse.Resolves (g : Gateway) (aliases aliases' : Aliases) : NameUse → Prop
  | .range className aliasName =>
    ∃ record, g.Maps className record ∧ aliases.Adds aliasName (.entity record) aliases'
  | .join p aliasName =>
    ∃ parent association record, aliases.get? p.aliasName = some (.entity parent) ∧
      parent.association? p.field = some association ∧ g.Maps association.target record ∧
      aliases.Adds aliasName (.entity record) aliases'
  | .result aliasName => aliases.Adds aliasName .result aliases'
  | .variable _ | .path _ _ _ | .property _ => aliases' = aliases

theorem declare_adds {component} (isAlias : token.isAlias)
    (declared : r.declare token component g = .ok r' g') :
    g = g' ∧ r.aliases.Adds token.value component r'.aliases := by
  simp only [Token.isAlias, Bool.and_eq_true, Bool.not_eq_true'] at isAlias
  simp only [Resolved.declare] at declared
  split at declared
  next => exact (throw_ok.mp declared).elim
  next absent =>
    obtain ⟨rfl, rfl⟩ := pure_ok.mp declared
    exact ⟨rfl, isAlias.2, fun inside => absent ((Dict.has_iff_mem_keys _ _).mpr inside), rfl⟩

theorem entityAlias_step_ok {record} (isAlias : token.isAlias) (subject : r.subject = some record)
    (resolved : r.step (.entityAlias token) g = .ok r' g') :
    g = g' ∧ r.aliases.Adds token.value (.entity record) r'.aliases := by
  simp only [Resolved.step, subject] at resolved
  exact declare_adds isAlias resolved

theorem NameUse.NotedAs.resolves {use : NameUse} {noted} (known : use.NotedAs noted)
    (run : noted.foldlM Resolved.step r g = .ok r' g') :
    g.Grows g' ∧ use.Resolves g r.aliases r'.aliases := by
  cases known with
  | range isAlias =>
    simp only [List.foldlM_cons, List.foldlM_nil, bind_ok, pure_ok] at run
    obtain ⟨_, _, first, _, _, second, rfl, rfl⟩ := run
    obtain ⟨record, grows, maps, rfl⟩ := className_step_ok first
    obtain ⟨rfl, adds⟩ := entityAlias_step_ok isAlias rfl second
    exact ⟨grows, record, maps, adds⟩
  | join isAlias =>
    simp only [List.foldlM_cons, List.foldlM_nil, bind_ok, pure_ok] at run
    obtain ⟨_, _, first, _, _, second, _, _, third, rfl, rfl⟩ := run
    obtain ⟨parent, found, rfl, rfl⟩ := joinRoot_step_ok first
    obtain ⟨association, record, named, grows, maps, rfl⟩ := joinField_step_ok rfl second
    obtain ⟨rfl, adds⟩ := entityAlias_step_ok isAlias rfl third
    exact ⟨grows, parent, association, record, found, named, maps, adds⟩
  | result isAlias =>
    simp only [List.foldlM_cons, List.foldlM_nil, bind_ok, pure_ok] at run
    obtain ⟨_, _, first, rfl, rfl⟩ := run
    obtain ⟨rfl, adds⟩ := declare_adds isAlias first
    exact ⟨.refl g, adds⟩
  | «variable» | path | property =>
    simp only [List.foldlM_cons, List.foldlM_nil, bind_ok, pure_ok, Resolved.step] at run
    obtain ⟨_, _, ⟨rfl, rfl⟩, rfl, rfl⟩ := run
    exact ⟨.refl g, rfl⟩

section Tables

variable {aliases aliases' final : Aliases} {aliasName : String} {component : Component}

section

variable (adds : aliases.Adds aliasName component aliases')

include adds

theorem Aliases.Adds.keys :
    aliases'.keys = aliases.keys ++ [aliasName] := by
  rw [adds.table, Dict.keys_put, if_neg adds.isNew]

theorem Aliases.Adds.extends :
    aliases.Extends aliases' := by
  intro name known found
  rw [adds.table, Dict.get?_put, if_neg, found]
  rintro rfl
  exact adds.isNew (Dict.mem_keys_of_get? found)

theorem Aliases.Adds.declares (later : aliases'.Extends final) :
    final.Declares aliases.keys aliasName component where
  notReserved := adds.notReserved
  isNew := adds.isNew
  means := later (by rw [adds.table, Dict.get?_put, if_pos rfl])

end

variable {use : NameUse}

section

variable (resolves : use.Resolves g aliases aliases')

include resolves

theorem NameUse.Resolves.adds_or_same :
    (∃ aliasName component, use.declares? = some aliasName ∧
        aliases.Adds aliasName component aliases') ∨
      (use.declares? = none ∧ aliases' = aliases) := by
  cases use with
  | range _ aliasName =>
    obtain ⟨record, _, adds⟩ := resolves
    exact .inl ⟨aliasName, .entity record, rfl, adds⟩
  | join _ aliasName =>
    obtain ⟨_, _, record, _, _, _, adds⟩ := resolves
    exact .inl ⟨aliasName, .entity record, rfl, adds⟩
  | result aliasName => exact .inl ⟨aliasName, .result, rfl, resolves⟩
  | «variable» | path | property => exact .inr ⟨rfl, resolves⟩

theorem NameUse.Resolves.extends :
    aliases.Extends aliases' := by
  rcases resolves.adds_or_same with ⟨_, _, -, adds⟩ | ⟨-, rfl⟩
  · exact adds.extends
  · exact id

theorem NameUse.Resolves.keys :
    aliases'.keys = aliases.keys ++ declared [use] := by
  rcases resolves.adds_or_same with ⟨_, _, declares, adds⟩ | ⟨silent, rfl⟩
  · simp [adds.keys, declared, declares]
  · simp [declared, silent]

theorem NameUse.Resolves.nodup (distinct : aliases.keys.Nodup) : aliases'.keys.Nodup := by
  rcases resolves.adds_or_same with ⟨aliasName, _, -, adds⟩ | ⟨-, rfl⟩
  · rw [adds.table]
    exact Dict.nodup_keys_put distinct _ _
  · exact distinct

theorem NameUse.Resolves.isResolved (later : aliases'.Extends final)
    (declares : use.declares?.isSome) :
    use.IsResolved g final aliases.keys := by
  have kept {name : String} {known : Component} (found : aliases.get? name = some known) :
      final.get? name = some known := later (resolves.extends found)
  cases use with
  | range =>
    obtain ⟨record, maps, adds⟩ := resolves
    exact ⟨record, maps, adds.declares later⟩
  | join =>
    obtain ⟨parent, association, record, found, named, maps, adds⟩ := resolves
    exact ⟨Dict.mem_keys_of_get? found, parent, association, record, kept found, named, maps,
      adds.declares later⟩
  | result => exact Aliases.Adds.declares resolves later
  | «variable» | path | property => cases declares

end

theorem NameUse.IsResolved.ofGrows {earlier} (grows : g.Grows g')
    (resolved : use.IsResolved g' aliases earlier) : use.IsResolved g aliases earlier := by
  cases use with
  | range =>
    obtain ⟨record, maps, declares⟩ := resolved
    exact ⟨record, grows.maps maps, declares⟩
  | join =>
    obtain ⟨before, parent, association, record, found, named, maps, declares⟩ := resolved
    exact ⟨before, parent, association, record, found, named, grows.maps maps, declares⟩
  | result | «variable» | path | property => exact resolved

end Tables

/-- What resolving uses one after the other does to the table. -/
structure ResolvesAll (g : Gateway) (aliases : Aliases) (uses : List NameUse)
    (aliases' : Aliases) : Prop where
  kept : aliases.Extends aliases'
  keys : aliases'.keys = aliases.keys ++ declared uses
  nodup : aliases.keys.Nodup → aliases'.keys.Nodup
  resolved : ∀ earlier use later, uses = earlier ++ use :: later → use.declares?.isSome →
    use.IsResolved g aliases' (aliases.keys ++ declared earlier)

theorem declared_cons (use : NameUse) (uses : List NameUse) :
    declared (use :: uses) = declared [use] ++ declared uses :=
  List.filterMap_append (l := [use])

theorem ResolvesAll.cons {use uses aliases middle aliases'} (grows : g.Grows g')
    (first : use.Resolves g aliases middle) (rest : ResolvesAll g' middle uses aliases') :
    ResolvesAll g aliases (use :: uses) aliases' where
  kept found := rest.kept (first.extends found)
  keys := by
    rw [rest.keys, first.keys, List.append_assoc, ← declared_cons]
  nodup distinct := rest.nodup (first.nodup distinct)
  resolved earlier other later parts declares := by
    cases earlier with
    | nil =>
      obtain ⟨rfl, rfl⟩ := List.cons.inj parts
      have := first.isResolved rest.kept declares
      simpa [declared] using this
    | cons head earlier =>
      obtain ⟨rfl, tail⟩ := List.cons.inj parts
      have := (rest.resolved earlier other later tail declares).ofGrows grows
      rw [first.keys, List.append_assoc, ← declared_cons] at this
      exact this

theorem Noted.resolves {uses noted} (known : Noted uses noted)
    (run : noted.foldlM Resolved.step r g = .ok r' g') :
    ResolvesAll g r.aliases uses r'.aliases := by
  -- The mentions of one use are resolved together, since the alias of a class or of a join belongs
  -- to the subject that the mentions before it have set.
  induction known generalizing r g with
  | nil =>
    obtain ⟨rfl, rfl⟩ := pure_ok.mp run
    exact ⟨id, (List.append_nil _).symm, id, by simp⟩
  | cons first rest ih =>
    rw [List.foldlM_append] at run
    obtain ⟨middle, g₁, here, run⟩ := bind_ok.mp run
    obtain ⟨grows, resolves⟩ := first.resolves here
    exact .cons grows resolves (ih run)

end EntityAudit.Query
