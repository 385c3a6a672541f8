import EntityAudit.Proofs.Mapping.Loading
import EntityAudit.Proofs.Query.AliasScoping
import EntityAudit.Proofs.Query.SqlMarks

/-! # Conditions of joins along associations

A join by columns of a class compares at least one of them, since a list without columns is no
route. A link table may list none, and a join through it is then written with nothing to compare.
-/

namespace EntityAudit

variable {file : SchemaFile}

def SchemaFile.linkTables (file : SchemaFile) : List JoinTable :=
  file.entities.flatMap fun e => e.associations.filterMap (·.joinTable)

theorem SchemaFile.mem_linkTables {e} (inside : e ∈ file.entities) {association}
    (held : association ∈ e.toRecord.associations) {table}
    (linked : association.joinTable = some table) : table ∈ file.linkTables := by
  obtain ⟨entry, listed, rfl⟩ := List.mem_map.mp held
  exact List.mem_flatMap.mpr ⟨e, inside, List.mem_filterMap.mpr ⟨entry, listed, linked⟩⟩

namespace Query

theorem parse_entity {c} (loaded : file.toCatalog = .ok c) {text parsed g'}
    (accepted : parse text (.ofSource c.toSource) = .ok parsed g') {name record}
    (found : parsed.aliases.record? name = some record) :
    ∃ e ∈ file.entities, e.toRecord = record := by
  obtain ⟨className, maps⟩ := parse_maps accepted found
  obtain ⟨e, inside, -, same⟩ :=
    (Catalog.records_toCatalog loaded).mp (Gateway.maps_ofCatalog.mp maps)
  exact ⟨e, inside, same⟩

/-- What a join through a link table brings in, from the side that lists the table or from the
    other. -/
inductive LeadsThrough (table : JoinTable) : List Sql.Hop → Prop where
  | there (owner target link targetTable : String) :
      LeadsThrough table ((Route.link table.name table.joinColumns table.inverseColumns).hops
        owner target link targetTable)
  | back (owner target link targetTable : String) :
      LeadsThrough table ((Route.link table.name table.inverseColumns table.joinColumns).hops
        owner target link targetTable)

/-- A route compares at least one column, or goes through a link table of an association of the two
    classes. -/
theorem Route.of?_cases {association target route}
    (leads : Route.of? association target = some route) (owner table link : String) :
    (∃ hop, route.hops owner table link target.table = [hop] ∧ hop.equalities ≠ []) ∨
      ∃ holder links, (holder = association ∨ holder ∈ target.associations) ∧
        holder.joinTable = some links ∧
        LeadsThrough links (route.hops owner table link target.table) := by
  rw [Route.of?] at leads
  -- Columns of its own come first, then a link table of its own, then the mapping of the target.
  split at leads
  · next key =>
      cases leads
      refine .inl ⟨_, rfl, ?_⟩
      simpa [Route.equalities] using key
  split at leads
  · next links linked =>
      cases leads
      exact .inr ⟨association, links, .inl rfl, linked, .there ..⟩
  obtain ⟨name, -, leads⟩ := Option.bind_eq_some_iff.mp leads
  obtain ⟨holder, found, leads⟩ := Option.bind_eq_some_iff.mp leads
  split at leads
  · next key =>
      cases leads
      refine .inl ⟨_, rfl, ?_⟩
      simpa [Route.equalities] using key
  split at leads
  · obtain ⟨links, linked, leads⟩ := Option.bind_eq_some_iff.mp leads
    cases leads
    exact .inr ⟨holder, links, .inr (List.mem_of_find?_eq_some found), linked, .back ..⟩
  · cases leads

namespace Sql

/-- Whether the condition of a joined table begins with an equality of columns. -/
def Hop.IsConstrained (hop : Hop) : Prop :=
  ∃ (e : Equality) (rest : String),
    hop.render = quoteName hop.table ++ " " ++ hop.aliasName ++ " ON " ++ (e.render ++ rest)

theorem Equality.render_ne_empty (e : Equality) : e.render ≠ "" := by
  intro empty
  have none := congrArg String.toList empty
  simp [render] at none

theorem Hop.isConstrained_iff {hop : Hop} : hop.IsConstrained ↔ hop.equalities ≠ [] := by
  constructor
  · rintro ⟨e, rest, written⟩ none
    rw [render, none, List.map_nil, String.append_right_inj] at written
    have empty : e.render ++ rest = "" := written.symm
    exact e.render_ne_empty (String.append_eq_empty_iff.mp empty).1
  · intro some
    obtain ⟨e, others, same⟩ := List.exists_cons_of_ne_nil some
    rw [IsConstrained, render, same, List.map_cons]
    refine ⟨e, ?_⟩
    cases others with
    | nil => exact ⟨"", by rw [List.map_nil, String.intercalate_singleton, String.append_empty]⟩
    | cons next others =>
      rw [List.map_cons, String.intercalate_cons_cons]
      exact ⟨_, congrArg (_ ++ ·) String.append_assoc⟩

/-- The conditions of a join through a link table begin with equalities exactly if the table lists
    columns to both sides. -/
theorem leadsThrough_constrained {table : JoinTable} {hops} (through : LeadsThrough table hops) :
    (∀ hop ∈ hops, hop.IsConstrained) ↔
      table.joinColumns ≠ [] ∧ table.inverseColumns ≠ [] := by
  cases through with
  | there owner target link targetTable =>
    simp [Route.hops, Hop.isConstrained_iff, Route.equalities]
  | back owner target link targetTable =>
    simp [Route.hops, Hop.isConstrained_iff, Route.equalities, and_comm]

/-- Whether a text contains the texts of all these joins. -/
def Spells (text : String) (joins : List RouteJoin) : Prop :=
  ∀ join ∈ joins, ∃ before after, text = before ++ join.render ++ after

theorem Marked.spells {text marks} (marked : Marked text marks) : Spells text marks.joins := by
  induction marked with
  | plain | quotedName | quotedText | name | word | parameter =>
    exact fun _ inside => absurd inside List.not_mem_nil
  | join =>
    intro other inside
    obtain rfl := List.mem_singleton.mp inside
    exact ⟨"", "", by rw [String.empty_append, String.append_empty]⟩
  | @append text text' _ _ _ _ _ first second =>
    intro join inside
    rcases List.mem_append.mp inside with here | there
    · obtain ⟨start, rest, rfl⟩ := first join here
      exact ⟨start, rest ++ text', by simp only [String.append_assoc]⟩
    · obtain ⟨start, rest, rfl⟩ := second join there
      exact ⟨text ++ start, rest, by simp only [String.append_assoc]⟩

end Sql

/-- A join of an accepted text compares at least one column, or goes through a link table that the
    schema file lists. -/
theorem follows_cases {c} (loaded : file.toCatalog = .ok c) {text parsed g'}
    (accepted : parse text (.ofSource c.toSource) = .ok parsed g') {join : Sql.RouteJoin}
    (follows : join.Follows parsed.aliases) :
    (∃ hop, join.hops = [hop] ∧ hop.IsConstrained) ∨
      ∃ table ∈ file.linkTables, LeadsThrough table join.hops := by
  obtain ⟨path, name, owner, association, target, route, ownerTable, table, link, owned, named,
    known, leads, hops⟩ := follows
  obtain ⟨source, among, rfl⟩ := parse_entity loaded accepted owned
  obtain ⟨goal, inside, rfl⟩ := parse_entity loaded accepted known
  rw [hops]
  rcases Route.of?_cases leads ownerTable table link with
    ⟨hop, single, some⟩ | ⟨holder, links, held, linked, through⟩
  · exact .inl ⟨hop, single, Sql.Hop.isConstrained_iff.mpr some⟩
  · refine .inr ⟨links, ?_, through⟩
    rcases held with rfl | held
    · exact SchemaFile.mem_linkTables among (List.mem_of_find?_eq_some named) linked
    · exact SchemaFile.mem_linkTables inside held linked

/-- Every join along an association stands in the SQL of an accepted text. It brings in one table
    with at least one equality of columns, or goes through a link table of the schema file. So the
    joins all have their equalities exactly if the link tables they go through list columns to both
    sides. -/
theorem compile_joins_constrained_iff {file : SchemaFile} {c : Catalog}
    (loaded : file.toCatalog = .ok c) {text : String} {compiled : Compiled} {g' : Gateway}
    (accepted : compile text (.ofSource c.toSource) = .ok compiled g') {sql : Sql.Statement}
    (formed : compiled.sql = some sql) :
    (∀ join ∈ sql.routes, ∃ before after, sql.render = before ++ join.render ++ after) ∧
      (∀ join ∈ sql.routes, (∃ hop, join.hops = [hop] ∧ hop.IsConstrained) ∨
        ∃ table ∈ file.linkTables, LeadsThrough table join.hops) ∧
      ((∀ join ∈ sql.routes, ∀ hop ∈ join.hops, hop.IsConstrained) ↔
        ∀ join ∈ sql.routes, ∀ table ∈ file.linkTables, LeadsThrough table join.hops →
          table.joinColumns ≠ [] ∧ table.inverseColumns ≠ []) := by
  obtain ⟨parsed, found, rfl⟩ := compile_ok.mp accepted
  obtain ⟨issued, lowered⟩ := Compiled.ofStatement_some formed
  have follows := lowerStatement_judged (following _).judgement lowered fun _ _ _ _ => trivial
  have kinds := fun join inside => follows_cases loaded found (follows join inside)
  refine ⟨sql.render_marked.spells, kinds, ?_⟩
  constructor
  · intro constrained join inside table _ through
    exact (Sql.leadsThrough_constrained through).mp (constrained join inside)
  · intro listed join inside
    rcases kinds join inside with ⟨hop, single, constrained⟩ | ⟨table, among, through⟩
    · rw [single]
      exact List.forall_mem_singleton.mpr constrained
    · exact (Sql.leadsThrough_constrained through).mpr (listed join inside table among through)

/-- Teams and the users who belong to them by a link table, and who have a boss. -/
def teamsAndUsers (links : JoinTable) : SchemaFile :=
  let id : FieldEntry := { name := "id", columnType := "integer", isId := true }
  let team : EntityEntry :=
    { className := "Team", table := some "team", fields := [id],
      associations := [
        { name := "users", shape := .manyToMany, target := "User", joinTable := some links }] }
  let user : EntityEntry :=
    { className := "User", table := some "users", fields := [id],
      associations := [
        { name := "teams", shape := .manyToMany, target := "Team", mappedBy := some "users" },
        { name := "boss", shape := .manyToOne, target := "User" }] }
  { entities := [team, user] }

/-- Joins through a link table in both directions and along a column. -/
theorem compile_joins_constrained_iff_members :
    let links : JoinTable :=
      { name := "member", joinColumns := [⟨"team_id", "id", none⟩],
        inverseColumns := [⟨"user_id", "id", none⟩] }
    let file := teamsAndUsers links
    let text := "SELECT t.id FROM Team t JOIN t.users u LEFT JOIN u.teams s JOIN u.boss b"
    ∃ c compiled sql g', file.toCatalog = .ok c ∧
      compile text (.ofSource c.toSource) = .ok compiled g' ∧ compiled.sql = some sql ∧
      sql.routes.length = 3 ∧ ∀ join ∈ sql.routes, ∀ hop ∈ join.hops, hop.IsConstrained := by
  intro links file text
  have loaded := SchemaFile.toCatalog_ok.mpr
    (show file.IsConsistent ∧ _ from ⟨⟨by decide, by decide⟩, rfl⟩)
  have readable : succeeds (compile text)
      (.ofSource ((Catalog.appendedAll {} file.entities).withDocuments []).toSource)
      (fun compiled => compiled.sql.map (·.routes.length) == some 3) = true := by
    decide +kernel
  obtain ⟨compiled, g', accepted, passed⟩ := exists_of_succeeds readable
  obtain ⟨sql, formed, three⟩ := Option.map_eq_some_iff.mp (eq_of_beq passed)
  obtain ⟨-, -, constrained⟩ := compile_joins_constrained_iff loaded accepted formed
  refine ⟨_, compiled, sql, g', loaded, accepted, formed, three, constrained.mpr ?_⟩
  intro join _ table inside _
  obtain rfl : table = links := List.mem_singleton.mp inside
  exact ⟨by simp [links], by simp [links]⟩

/-- The link table lists no columns, so both tables of the join come with nothing to compare. -/
theorem compile_joins_unconstrained :
    let links : JoinTable := { name := "member", joinColumns := [], inverseColumns := [] }
    let file := teamsAndUsers links
    let text := "SELECT t.id FROM Team t JOIN t.users u"
    let written := "SELECT t0_.\"id\" AS sclr_0 FROM \"team\" t0_ " ++
      "INNER JOIN \"member\" m2_ ON  INNER JOIN \"users\" u1_ ON "
    ∃ c compiled sql g', file.toCatalog = .ok c ∧
      compile text (.ofSource c.toSource) = .ok compiled g' ∧ compiled.sql = some sql ∧
      sql.render = written ∧
      ∃ join ∈ sql.routes, ∃ hop ∈ join.hops, ¬ hop.IsConstrained := by
  intro links file text written
  have loaded := SchemaFile.toCatalog_ok.mpr
    (show file.IsConsistent ∧ _ from ⟨⟨by decide, by decide⟩, rfl⟩)
  have readable : succeeds (compile text)
      (.ofSource ((Catalog.appendedAll {} file.entities).withDocuments []).toSource)
      (fun compiled => compiled.sql.map (fun sql =>
        (sql.render, sql.routes.any (·.hops.any (·.equalities.isEmpty)))) ==
          some (written, true)) = true := by
    decide +kernel
  obtain ⟨compiled, g', accepted, passed⟩ := exists_of_succeeds readable
  obtain ⟨sql, formed, pair⟩ := Option.map_eq_some_iff.mp (eq_of_beq passed)
  obtain ⟨same, empty⟩ := Prod.mk.inj pair
  obtain ⟨join, inside, empty⟩ := List.any_eq_true.mp empty
  obtain ⟨hop, among, empty⟩ := List.any_eq_true.mp empty
  refine ⟨_, compiled, sql, g', loaded, accepted, formed, same, join, inside, hop, among,
    fun constrained => ?_⟩
  exact Sql.Hop.isConstrained_iff.mp constrained (List.isEmpty_iff.mp empty)

end Query

end EntityAudit
