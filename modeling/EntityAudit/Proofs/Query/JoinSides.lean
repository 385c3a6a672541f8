import EntityAudit.Proofs.Query.Lowering

/-! # Joins from either side

An association that holds its mapping and the one that refers back to it describe the same columns.
`Association.Equates` says which columns the mapping makes equal; the routes of both associations
compare exactly these.
-/

namespace EntityAudit

/-- Whether an association holds its mapping: in columns of its own, or in a link table if it leads to
    many. -/
def Association.IsOwning (association : Association) : Prop :=
  association.joinColumns ≠ [] ∨
    association.cardinality = .toMany ∧ ∃ table, association.joinTable = some table

/-- Whether an association leaves the mapping to another one, called `name`, of its target. -/
structure Association.IsInverseOf (association : Association) (name : String) : Prop where
  mappedBy : association.mappedBy = some name
  joinColumns : association.joinColumns = []
  joinTable : association.joinTable = none

/-- The columns that the mapping of an association makes equal, where `owner`, `target` and `link`
    are the aliases of the tables that it leads from, to and through. -/
inductive Association.Equates (association : Association) (owner target link : String) :
    Query.Sql.Equality → Prop where
  /-- A column of the owner refers to the target. -/
  | key {column} (held : column ∈ association.joinColumns) :
      Equates association owner target link ⟨⟨owner, column.name⟩, ⟨target, column.referenced⟩⟩
  /-- A column of the link table refers to the owner. -/
  | toOwner {table column} (noKey : association.joinColumns = [])
      (linked : association.joinTable = some table) (held : column ∈ table.joinColumns) :
      Equates association owner target link ⟨⟨link, column.name⟩, ⟨owner, column.referenced⟩⟩
  /-- A column of the link table refers to the target. -/
  | toTarget {table column} (noKey : association.joinColumns = [])
      (linked : association.joinTable = some table) (held : column ∈ table.inverseColumns) :
      Equates association owner target link ⟨⟨link, column.name⟩, ⟨target, column.referenced⟩⟩

namespace Association

variable {association : Association} {owner target link : String} {e : Query.Sql.Equality}

theorem equates_of_key (some : association.joinColumns ≠ []) :
    association.Equates owner target link e ↔
      e ∈ Query.Route.equalities association.joinColumns owner target := by
  rw [Query.Route.equalities, List.mem_map]
  constructor
  · rintro (held | noKey | noKey)
    · exact ⟨_, held, rfl⟩
    · contradiction
    · contradiction
  · rintro ⟨column, held, rfl⟩
    exact .key held

theorem equates_of_link {table} (noKey : association.joinColumns = [])
    (linked : association.joinTable = some table) :
    association.Equates owner target link e ↔
      e ∈ Query.Route.equalities table.joinColumns link owner ∨
        e ∈ Query.Route.equalities table.inverseColumns link target := by
  simp only [Query.Route.equalities, List.mem_map]
  constructor
  · rintro (held | ⟨-, same, held⟩ | ⟨-, same, held⟩)
    · rw [noKey] at held
      contradiction
    · obtain rfl := Option.some.inj (same.symm.trans linked)
      exact .inl ⟨_, held, rfl⟩
    · obtain rfl := Option.some.inj (same.symm.trans linked)
      exact .inr ⟨_, held, rfl⟩
  · rintro (⟨column, held, rfl⟩ | ⟨column, held, rfl⟩)
    · exact .toOwner noKey linked held
    · exact .toTarget noKey linked held

end Association

namespace Query

/-- The equalities that a route brings into a query. -/
def Route.comparisons (route : Route) (owner target link targetTable : String) :
    List Sql.Equality :=
  (route.hops owner target link targetTable).flatMap (·.equalities)

variable {x y : Association} {name : String} {owner target : EntityRecord}

theorem routes_of_owning (held : owner.association? name = some x) (owns : x.IsOwning)
    (inverse : y.IsInverseOf name) :
    ∃ there back, Route.of? x target = some there ∧ Route.of? y owner = some back ∧
      there.linkTable? = back.linkTable? ∧
      ∀ a b link e,
        (e ∈ there.comparisons a b link target.table ↔ x.Equates a b link e) ∧
        (e ∈ back.comparisons b a link owner.table ↔ x.Equates a b link e) := by
  by_cases key : x.joinColumns = []
  · obtain ⟨many, table, linked⟩ := owns.resolve_left (not_not_intro key)
    refine ⟨.link table.name table.joinColumns table.inverseColumns,
      .link table.name table.inverseColumns table.joinColumns, ?_, ?_, rfl, ?_⟩
    · simp [Route.of?, key, linked]
    · simp [Route.of?, inverse.joinColumns, inverse.joinTable, inverse.mappedBy, held, key, many,
        linked]
    · intro a b link e
      rw [Association.equates_of_link key linked]
      simp [Route.comparisons, Route.hops, or_comm]
  · refine ⟨.forward x.joinColumns, .backward x.joinColumns, ?_, ?_, rfl, ?_⟩
    · simp [Route.of?, key]
    · simp [Route.of?, inverse.joinColumns, inverse.joinTable, inverse.mappedBy, held, key]
    · intro a b link e
      rw [Association.equates_of_key key]
      simp [Route.comparisons, Route.hops]

theorem Lower.exists_linkAlias (route : Route) (s : Issued) :
    ∃ link s', Lower.linkAlias route s = some (link, s') := by
  rw [Lower.linkAlias]
  cases route.linkTable? <;> exact ⟨_, _, rfl⟩

theorem lowerJoins_route {aliases s s' path aliasName ownerTable table link association route}
    (owned : aliases.record? path.aliasName = some owner)
    (started : s.tables.get? path.aliasName = some ownerTable)
    (known : aliases.record? aliasName = some target) (found : s.tables.get? aliasName = some table)
    (named : owner.association? path.field = some association)
    (leads : Route.of? association target = some route)
    (given : Lower.linkAlias route s = some (link, s')) (isLeft : Bool)
    (index : Option PropertyPath) :
    lowerJoins aliases [⟨isLeft, .association path, aliasName, index, none⟩] s =
      some ([⟨isLeft, .hops (route.hops ownerTable table link target.table) none⟩], s') := by
  rw [lowerJoins_association]
  simp only [Lower.bind_some, Lower.lift_some, Lower.tableAlias_some]
  exact ⟨table, s, ⟨found, rfl⟩, target, s, ⟨known, rfl⟩, ownerTable, s, ⟨started, rfl⟩, owner, s,
    ⟨owned, rfl⟩, association, s, ⟨named, rfl⟩, route, s, ⟨leads, rfl⟩, link, s', given, none, s',
    rfl, [], s', rfl, rfl⟩

/-- Joins along an association that holds its mapping and along one that refers to it compare the same
    columns, whatever aliases the two tables and the link table have: those that the mapping makes
    equal. So in a statement that knows both classes a join in one direction brings in the same
    equalities as a join in the other, with the same alias for the link table. -/
theorem joins_from_either_side (held : owner.association? name = some x) (owns : x.IsOwning)
    (inverse : y.IsInverseOf name) :
    (∃ there back, Route.of? x target = some there ∧ Route.of? y owner = some back ∧
      ∀ a b link e,
        (e ∈ there.comparisons a b link target.table ↔
          e ∈ back.comparisons b a link owner.table) ∧
        (e ∈ there.comparisons a b link target.table ↔ x.Equates a b link e)) ∧
    ∀ (aliases : Aliases) (s : Issued) (p q a b other : String),
      aliases.record? p = some owner → aliases.record? q = some target →
      s.tables.get? p = some a → s.tables.get? q = some b →
      target.association? other = some y → ∀ isLeft,
      ∃ hops hops' s',
        lowerJoins aliases [⟨isLeft, .association ⟨p, name⟩, q, none, none⟩] s =
          some ([⟨isLeft, .hops hops none⟩], s') ∧
        lowerJoins aliases [⟨isLeft, .association ⟨q, other⟩, p, none, none⟩] s =
          some ([⟨isLeft, .hops hops' none⟩], s') ∧
        ∀ e, e ∈ hops.flatMap (·.equalities) ↔ e ∈ hops'.flatMap (·.equalities) := by
  obtain ⟨there, back, leads, returns, links, agree⟩ := routes_of_owning held owns inverse
  have same : ∀ a b link e, e ∈ there.comparisons a b link target.table ↔
      e ∈ back.comparisons b a link owner.table :=
    fun a b link e => (agree a b link e).1.trans (agree a b link e).2.symm
  refine ⟨⟨there, back, leads, returns, fun a b link e => ⟨same a b link e, (agree a b link e).1⟩⟩,
    ?_⟩
  intro aliases s p q a b other first second firstTable secondTable named isLeft
  obtain ⟨link, s', given⟩ := Lower.exists_linkAlias there s
  have given' : Lower.linkAlias back s = some (link, s') := by
    rw [Lower.linkAlias, ← links]
    exact given
  exact ⟨_, _, s',
    lowerJoins_route first firstTable second secondTable held leads given isLeft none,
    lowerJoins_route second secondTable first firstTable named returns given' isLeft none,
    same a b link⟩

/-- A link table with two columns to either side. -/
theorem joins_from_either_side_composite :
    let links : JoinTable :=
      { name := "member",
        joinColumns := [⟨"team_no", "no", none⟩, ⟨"team_year", "year", none⟩],
        inverseColumns := [⟨"user_id", "id", none⟩] }
    let users : Association :=
      { name := "users", cardinality := .toMany, target := "User", joinTable := some links }
    let teams : Association :=
      { name := "teams", cardinality := .toMany, target := "Team", mappedBy := some "users" }
    let team : EntityRecord := { className := "Team", table := "team", associations := [users] }
    let user : EntityRecord := { className := "User", table := "user", associations := [teams] }
    ∃ there back, Route.of? users user = some there ∧ Route.of? teams team = some back ∧
      (∀ a b link e, e ∈ there.comparisons a b link "user" ↔ e ∈ back.comparisons b a link "team") ∧
      ∀ a b link, ⟨⟨link, "team_year"⟩, ⟨a, "year"⟩⟩ ∈ back.comparisons b a link "team" := by
  intro links users teams team user
  have held : team.association? "users" = some users := rfl
  have inverse : teams.IsInverseOf "users" := ⟨rfl, rfl, rfl⟩
  obtain ⟨⟨there, back, leads, returns, agree⟩, -⟩ :=
    @joins_from_either_side users teams "users" team user held (.inr ⟨rfl, links, rfl⟩) inverse
  refine ⟨there, back, leads, returns, fun a b link e => (agree a b link e).1, fun a b link => ?_⟩
  have second : ⟨"team_year", "year", none⟩ ∈ links.joinColumns := by simp [links]
  have compared : users.Equates a b link ⟨⟨link, "team_year"⟩, ⟨a, "year"⟩⟩ :=
    .toOwner rfl rfl second
  exact (agree a b link _).1.mp ((agree a b link _).2.mpr compared)

end Query

end EntityAudit
