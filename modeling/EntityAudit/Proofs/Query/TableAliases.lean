import EntityAudit.Proofs.Query.AliasScoping

/-! # Table aliases

Lowering counts the table aliases it gives out and writes the count into each, so no two are equal.
-/

namespace EntityAudit.Query

/-- How a statement and its SQL use table aliases, where `issued` is what lowering has given out in
    the end. -/
structure Statement.TablesApart (s : Statement) (sql : Sql.Statement) (issued : Issued) : Prop where
  /-- No table alias is introduced twice, be it for a range, a join or a link table, at whatever
      level. -/
  distinct : sql.tables.Nodup
  /-- Every table alias that was given out is introduced, so none got lost on the way. -/
  complete : ∀ n < issued.tableCount, ∃ table ∈ sql.tables, Numbered n table
  /-- Aliases of the statement have different tables. -/
  injective : ∀ {name other table}, issued.tables.get? name = some table →
    issued.tables.get? other = some table → name = other
  /-- Every part was rendered with the tables that its aliases have in the end. -/
  rendered : s.Under issued.tables sql

/-- In an accepted text with a relational form, table aliases never clash, and an alias keeps the
    table it is given. -/
theorem compile_tables_apart {text : String} {g g' : Gateway} {compiled : Compiled}
    (accepted : compile text g = .ok compiled g') {sql : Sql.Statement}
    (formed : compiled.sql = some sql) :
    ∃ parsed issued, parse text g = .ok parsed g' ∧
      lowerStatement parsed.aliases parsed.statement {} = some (sql, issued) ∧
      parsed.statement.TablesApart sql issued := by
  obtain ⟨parsed, found, rfl⟩ := compile_ok.mp accepted
  obtain ⟨issued, lowered⟩ := Compiled.ofStatement_some formed
  have renders := parse_renders found lowered
  have settled := renders.settled (Issued.settled_empty _)
  exact ⟨parsed, issued, found, lowered, renders.spans.nodup,
    fun n below => renders.spans.exists_numbered (Nat.zero_le n) below, settled.injective,
    renders.now⟩

/-- An association over a link table is joined outside and inside of a subselect. -/
theorem compile_tables_apart_links :
    let text := "SELECT u.id FROM User u JOIN u.friends f WHERE EXISTS " ++
      "(SELECT v.id FROM User v JOIN v.friends w WHERE w.id = f.id)"
    let id : Field := { name := "id", column := "id", columnType := "integer", isId := true }
    let friends : Association :=
      { name := "friends", cardinality := .toMany, target := "User",
        joinTable := some ⟨"friendships", [⟨"user_id", "id", none⟩], [⟨"friend_id", "id", none⟩]⟩ }
    let user : EntityRecord :=
      { className := "User", table := "users", fields := [id], associations := [friends] }
    let g : Gateway := .ofSource (Catalog.toSource { records := [("user", user)] })
    ∃ parsed compiled sql issued g', parse text g = .ok parsed g' ∧
      compile text g = .ok compiled g' ∧ compiled.sql = some sql ∧
      sql.tables = ["u0_", "f2_", "u1_", "u3_", "f5_", "u4_"] ∧
      parsed.statement.TablesApart sql issued := by
  intro text id friends user g
  have readable : succeeds (parse text) g (fun parsed =>
      (Compiled.ofStatement parsed.aliases parsed.statement).sql.any fun sql =>
        sql.tables == ["u0_", "f2_", "u1_", "u3_", "f5_", "u4_"]) = true := by
    decide +kernel
  obtain ⟨parsed, g', found, passed⟩ := exists_of_succeeds readable
  simp only [Option.any_eq_true, beq_iff_eq] at passed
  obtain ⟨sql, formed, listed⟩ := passed
  have accepted := compile_ok.mpr ⟨parsed, found, rfl⟩
  obtain ⟨parsed, issued, found, -, apart⟩ := compile_tables_apart accepted formed
  exact ⟨parsed, _, sql, issued, g', found, accepted, formed, listed, apart⟩

end EntityAudit.Query
