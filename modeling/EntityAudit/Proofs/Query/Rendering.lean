import EntityAudit.Proofs.Query.Lowering
import EntityAudit.Proofs.Query.Passages
import EntityAudit.Proofs.Query.Resolution
import EntityAudit.Proofs.Query.TableScope

/-! # Rendering with tables

Lowering gives a table alias to every range and join and looks aliases up wherever a column is
qualified. No alias is given a table twice if none is declared twice, so a part that is rendered
early sees the same table as one that is rendered late. `Renders` says so for one part of a
statement.
-/

namespace EntityAudit.Query

/-- No name has a table, and none is listed twice. -/
def Fresh (tables : Dict String) (names : List String) : Prop :=
  ∀ name, tables.keys.count name + names.count name ≤ 1

def Keeps (d d' : Dict String) : Prop :=
  ∀ ⦃name table : String⦄, d.get? name = some table → d'.get? name = some table

/-- Tables are given to some of `names`, each at most as often as it is listed; no table that was
    given before is changed. -/
structure Gives (tables tables' : Dict String) (names : List String) : Prop where
  kept : Keeps tables tables'
  counted : ∀ name, tables'.keys.count name ≤ tables.keys.count name + names.count name

section Tables

variable {d d' d'' : Dict String} {names names' : List String}

theorem Fresh.mono (fresh : Fresh d names) (fewer : ∀ name, names'.count name ≤ names.count name) :
    Fresh d names' := by
  intro name
  have := fresh name
  have := fewer name
  omega

theorem Fresh.left (fresh : Fresh d (names ++ names')) : Fresh d names :=
  fresh.mono fun name => by simp [List.count_append]

theorem Fresh.after (fresh : Fresh d (names ++ names')) (gives : Gives d d' names) :
    Fresh d' names' := by
  intro name
  have total := fresh name
  have given := gives.counted name
  rw [List.count_append] at total
  omega

theorem Gives.same (names : List String) (same : d' = d) : Gives d d' names := by
  subst same
  exact ⟨fun _ _ => id, fun _ => Nat.le_add_right _ _⟩

theorem Gives.trans (first : Gives d d' names) (second : Gives d' d'' names') :
    Gives d d'' (names ++ names') where
  kept := fun _ _ found => second.kept (first.kept found)
  counted := by
    intro name
    have before := first.counted name
    have after := second.counted name
    rw [List.count_append]
    omega

theorem Gives.mono (gives : Gives d d' names)
    (more : ∀ name, names.count name ≤ names'.count name) : Gives d d' names' where
  kept := gives.kept
  counted := by
    intro name
    have := gives.counted name
    have := more name
    omega

theorem gives_put {name} (fresh : Fresh d [name]) (table : String) :
    Gives d (d.put name table) [name] := by
  have absent : name ∉ d.keys := by
    intro inside
    have once := fresh name
    have given := List.count_pos_iff.mpr inside
    rw [List.count_singleton_self] at once
    omega
  constructor
  · intro other old found
    have different : name ≠ other := by
      rintro rfl
      exact absent (Dict.mem_keys_of_get? found)
    rwa [Dict.get?_put, if_neg different]
  · intro other
    apply Nat.le_of_eq
    rw [Dict.keys_put, if_neg absent, List.count_append]

end Tables

theorem declared_append (first second : List NameUse) :
    declared (first ++ second) = declared first ++ declared second :=
  List.filterMap_append

def conditionNames (joins : List (Join (List Piece))) : List String :=
  joins.flatMap fun join => declared (optionalUses join.condition)

theorem declared_target (target : JoinTarget) (aliasName : String) (index : Option PropertyPath) :
    declared (target.uses aliasName index) = [aliasName] := by
  cases target <;> cases index <;> rfl

theorem count_declared_joins (joins : List (Join (List Piece))) (name : String) :
    (declared (joinUses joins)).count name =
      (joins.map (·.aliasName)).count name + (conditionNames joins).count name := by
  induction joins with
  | nil => rfl
  | cons join rest ih =>
    obtain ⟨isLeft, target, aliasName, index, condition⟩ := join
    simp only [joinUses, declared_append, declared_target, conditionNames, List.map_cons,
      List.flatMap_cons, List.count_append, List.count_cons, List.count_nil] at ih ⊢
    omega

theorem count_declared_ranges (ranges : List (Range (List Piece))) (name : String) :
    (declared (rangeUses ranges)).count name = (ranges.flatMap Range.names).count name +
      (ranges.flatMap fun range => conditionNames range.joins).count name := by
  induction ranges with
  | nil => rfl
  | cons range rest ih =>
    obtain ⟨className, aliasName, index, joins⟩ := range
    have own (uses : List NameUse) : declared (.range className aliasName :: uses) =
        aliasName :: declared uses := rfl
    have indexed : declared (indexUses index) = [] := by cases index <;> rfl
    have joined := count_declared_joins joins name
    simp only [rangeUses, List.cons_append, own, declared_append, indexed, List.nil_append,
      Range.names, List.flatMap_cons, List.count_append, List.count_cons] at ih ⊢
    omega

/-- The aliases a select statement declares, in the order in which they are given tables: its own
    come before those of its subselects. -/
theorem count_declared_select {isDistinct items ranges filter groups groupFilter orders}
    (name : String) :
    (ranges.flatMap Range.names ++ (declared (itemUses items) ++
      ((ranges.flatMap fun range => conditionNames range.joins) ++
        (declared (optionalUses filter) ++ (declared (listedUses groups) ++
          (declared (optionalUses groupFilter) ++ declared (orderUses orders))))))).count name =
      (declared (selectUses
        ⟨isDistinct, items, ranges, filter, groups, groupFilter, orders⟩)).count name := by
  simp only [selectUses, declared_append, List.count_append, count_declared_ranges]
  omega

theorem piecesUses_suffix {later pieces} (part : later <:+ pieces) (before : Expression) :
    ∃ context, piecesUses later context <:+ piecesUses pieces before := by
  induction pieces generalizing before with
  | nil =>
    obtain rfl := List.suffix_nil.mp part
    exact ⟨before, List.suffix_rfl⟩
  | cons piece rest ih =>
    rcases List.suffix_cons_iff.mp part with rfl | part
    · exact ⟨before, List.suffix_rfl⟩
    · obtain ⟨context, inner⟩ := ih part (before ++ [piece])
      exact ⟨context, inner.trans (List.suffix_append _ _)⟩

theorem declared_loneRange (className aliasName : String) (index : Option PropertyPath) :
    declared (rangeUses [⟨className, aliasName, index, []⟩]) = [aliasName] := by
  cases index <;> rfl

/-- The table aliases have the numbers from `start` on, one after the other. -/
def NumberedFrom : Nat → List String → Prop
  | _, [] => True
  | start, table :: rest => Numbered start table ∧ NumberedFrom (start + 1) rest

/-- The table aliases have the numbers from `start` up to `stop`, each once, in any order. -/
def Spans (start stop : Nat) (listed : List String) : Prop :=
  ∃ order, listed.Perm order ∧ NumberedFrom start order ∧ start + order.length = stop

theorem NumberedFrom.append {start first second} (front : NumberedFrom start first)
    (back : NumberedFrom (start + first.length) second) : NumberedFrom start (first ++ second) := by
  induction first generalizing start with
  | nil => exact back
  | cons table rest ih =>
    refine ⟨front.1, ih front.2 ?_⟩
    rwa [List.length_cons, Nat.add_comm rest.length, ← Nat.add_assoc] at back

section

variable {order : List String} {start : Nat} (numbered : NumberedFrom start order)

include numbered

theorem NumberedFrom.le_of_mem {table} (inside : table ∈ order) :
    ∃ n, start ≤ n ∧ Numbered n table := by
  induction order generalizing start with
  | nil => cases inside
  | cons first rest ih =>
    rcases List.mem_cons.mp inside with rfl | later
    · exact ⟨start, Nat.le_refl start, numbered.1⟩
    · obtain ⟨n, above, own⟩ := ih numbered.2 later
      exact ⟨n, by omega, own⟩

theorem NumberedFrom.nodup : order.Nodup := by
  induction order generalizing start with
  | nil => exact List.nodup_nil
  | cons first rest ih =>
    refine List.nodup_cons.mpr ⟨fun inside => ?_, ih numbered.2⟩
    obtain ⟨n, above, own⟩ := numbered.2.le_of_mem inside
    have := own.unique numbered.1
    omega

theorem NumberedFrom.exists_numbered {n} (above : start ≤ n) (below : n < start + order.length) :
    ∃ table ∈ order, Numbered n table := by
  induction order generalizing start with
  | nil =>
    rw [List.length_nil] at below
    omega
  | cons first rest ih =>
    rcases Nat.eq_or_lt_of_le above with rfl | later
    · exact ⟨first, List.mem_cons_self, numbered.1⟩
    · rw [List.length_cons] at below
      obtain ⟨table, inside, own⟩ := ih numbered.2 later (by omega)
      exact ⟨table, List.mem_cons_of_mem first inside, own⟩

end

namespace Spans

variable {start middle stop : Nat} {first second listed listed' : List String}

theorem none (n : Nat) : Spans n n [] :=
  ⟨[], .refl _, trivial, rfl⟩

theorem one {n table} (numbered : Numbered n table) : Spans n (n + 1) [table] :=
  ⟨[table], .refl _, ⟨numbered, trivial⟩, rfl⟩

theorem seq (front : Spans start middle first) (back : Spans middle stop second) :
    Spans start stop (first ++ second) := by
  obtain ⟨order, perm, numbered, rfl⟩ := front
  obtain ⟨order', perm', numbered', rfl⟩ := back
  refine ⟨order ++ order', perm.append perm', numbered.append numbered', ?_⟩
  rw [List.length_append, Nat.add_assoc]

theorem perm (spans : Spans start stop listed) (same : listed'.Perm listed) :
    Spans start stop listed' := by
  obtain ⟨order, perm, rest⟩ := spans
  exact ⟨order, same.trans perm, rest⟩

theorem nodup (spans : Spans start stop listed) : listed.Nodup := by
  obtain ⟨order, perm, numbered, -⟩ := spans
  exact perm.nodup_iff.mpr numbered.nodup

theorem exists_numbered (spans : Spans start stop listed) {n} (above : start ≤ n)
    (below : n < stop) :
    ∃ table ∈ listed, Numbered n table := by
  obtain ⟨order, perm, numbered, rfl⟩ := spans
  obtain ⟨table, inside, own⟩ := numbered.exists_numbered above below
  exact ⟨table, perm.mem_iff.mpr inside, own⟩

end Spans

def Lookups (d : Dict String) (names tables : List String) : Prop :=
  List.Forall₂ (fun name table => d.get? name = some table) names tables

theorem Lookups.kept {d d' tables} (lookups : Lookups d names tables) (keeps : Keeps d d') :
    Lookups d' names tables :=
  lookups.imp fun _ _ found => keeps found

theorem Lookups.unique {d first second} (one : Lookups d names first)
    (other : Lookups d names second) : first = second :=
  List.right_unique_forall₂' (fun _ _ _ found same => Option.some.inj (found.symm.trans same))
    one other

theorem Lookups.append {d names' tables tables'} (first : Lookups d names tables)
    (second : Lookups d names' tables') : Lookups d (names ++ names') (tables ++ tables') :=
  List.rel_append first second

/-- Every table was given out, to an alias of an entity, and no two names have the same one. -/
structure Issued.Settled (s : Issued) (aliases : Aliases) : Prop where
  numbered : ∀ {name table}, s.tables.get? name = some table →
    ∃ n < s.tableCount, Numbered n table
  injective : ∀ {name other table}, s.tables.get? name = some table →
    s.tables.get? other = some table → name = other
  recorded : ∀ {name table}, s.tables.get? name = some table →
    ∃ record, aliases.record? name = some record

variable {aliases : Aliases}
variable {names : List String} {s s' : Issued}

theorem Issued.Settled.same {s s' : Issued} (settled : s.Settled aliases)
    (same : s.SameTables s') : s'.Settled aliases := by
  obtain ⟨tables, tableCount⟩ := same
  constructor
  · rw [tables, tableCount]
    exact settled.numbered
  · rw [tables]
    exact settled.injective
  · rw [tables]
    exact settled.recorded

theorem Issued.Settled.put (settled : s.Settled aliases) {name fresh record}
    (known : aliases.record? name = some record) (numbered : Numbered s.tableCount fresh) :
    Issued.Settled { s with tables := s.tables.put name fresh, tableCount := s.tableCount + 1 }
      aliases := by
  have old {other : String} (found : s.tables.get? other = some fresh) : False := by
    obtain ⟨n, below, own⟩ := settled.numbered found
    have := own.unique numbered
    omega
  constructor
  · intro other table found
    simp only [Dict.get?_put] at found
    split at found
    · cases found
      exact ⟨s.tableCount, Nat.lt_succ_self _, numbered⟩
    · obtain ⟨n, below, own⟩ := settled.numbered found
      exact ⟨n, Nat.lt_succ_of_lt below, own⟩
  · intro one other table found also
    simp only [Dict.get?_put] at found also
    split at found <;> split at also
    · rename_i here there
      exact here.symm.trans there
    · cases found
      exact (old also).elim
    · cases also
      exact (old found).elim
    · exact settled.injective found also
  · intro other table found
    simp only [Dict.get?_put] at found
    split at found
    · rename_i same
      exact ⟨record, same ▸ known⟩
    · exact settled.recorded found

/-- Lowering a part of a statement from `s` to `s'`: the table aliases given out are those listed,
    and what holds of the part holds under all tables that keep the ones known after it. -/
structure Renders (aliases : Aliases) (s s' : Issued) (names listed : List String)
    (rendered : Dict String → Prop) : Prop extends Gives s.tables s'.tables names where
  spans : Spans s.tableCount s'.tableCount listed
  introduced : ∀ {name table}, s'.tables.get? name = some table →
    s.tables.get? name = some table ∨ table ∈ listed
  settled : s.Settled aliases → s'.Settled aliases
  renders : ∀ {final}, Keeps s'.tables final → rendered final

namespace Renders

variable {s s' s'' : Issued} {names names' listed listed' : List String}
  {rendered rendered' : Dict String → Prop}

theorem same (names : List String) (unchanged : s.SameTables s')
    (renders : ∀ {final}, Keeps s.tables final → rendered final) :
    Renders aliases s s' names [] rendered where
  toGives := .same names unchanged.tables
  spans := unchanged.tableCount ▸ .none _
  introduced := fun found => .inl (unchanged.tables ▸ found)
  settled := fun settled => settled.same unchanged
  renders := fun keeps => renders (unchanged.tables ▸ keeps)

theorem constant (names : List String) (always : ∀ {final}, Keeps s.tables final → rendered final) :
    Renders aliases s s names [] rendered :=
  same names ⟨rfl, rfl⟩ always

theorem seq (first : Renders aliases s s' names listed rendered)
    (second : Renders aliases s' s'' names' listed' rendered') :
    Renders aliases s s'' (names ++ names') (listed ++ listed')
      (fun final => rendered final ∧ rendered' final) where
  toGives := first.toGives.trans second.toGives
  spans := first.spans.seq second.spans
  introduced := by
    intro name table found
    rcases second.introduced found with old | new
    · exact (first.introduced old).imp_right (List.mem_append_left _)
    · exact .inr (List.mem_append_right _ new)
  settled := fun settled => second.settled (first.settled settled)
  renders := fun keeps => ⟨first.renders fun _ _ found => keeps (second.kept found),
    second.renders keeps⟩

variable (renders : Renders aliases s s' names listed rendered)

include renders

theorem mono (more : ∀ name, names.count name ≤ names'.count name) (same : listed'.Perm listed)
    (follows : ∀ {final}, rendered final → rendered' final) :
    Renders aliases s s' names' listed' rendered' where
  toGives := renders.toGives.mono more
  spans := renders.spans.perm same
  introduced := fun found => (renders.introduced found).imp_right same.mem_iff.mpr
  settled := renders.settled
  renders := fun keeps => follows (renders.renders keeps)

theorem imp (follows : ∀ {final}, rendered final → rendered' final) :
    Renders aliases s s' names listed rendered' :=
  renders.mono (fun _ => Nat.le_refl _) (.refl _) follows

theorem now : rendered s'.tables :=
  renders.renders fun _ _ found => found

end Renders

theorem issueAlias_renders {u name} (fresh : Fresh s.tables [name])
    (issued : Lower.issueAlias aliases name s = some (u, s')) :
    ∃ table, Renders aliases s s' [name] [table] (Lookups · [name] [table]) := by
  simp only [Lower.issueAlias, Lower.bind_some, Lower.lift_some, Lower.modify_some] at issued
  obtain ⟨record, _, ⟨known, rfl⟩, table, _, given, rfl⟩ := issued
  obtain ⟨numbered, rfl⟩ := Lower.freshAlias_some given
  refine ⟨table, gives_put fresh table, .one numbered, ?_, fun settled => settled.put known numbered,
    ?_⟩
  · intro other old found
    simp only [Dict.get?_put] at found
    split at found
    · exact .inr (by simpa using found.symm)
    · exact .inl found
  · intro final keeps
    refine .cons (keeps ?_) .nil
    simp [Dict.get?_put]

theorem forM_renders {α : Type} {give : α → Lower Unit} {names : α → List String}
    (each : ∀ {a s u s'}, Fresh s.tables (names a) → give a s = some (u, s') → ∃ tables,
      Renders aliases s s' (names a) tables (Lookups · (names a) tables)) {items : List α}
    {u : Unit} (fresh : Fresh s.tables (items.flatMap names))
    (given : items.forM give s = some (u, s')) :
    ∃ tables, Renders aliases s s' (items.flatMap names) tables
      (Lookups · (items.flatMap names) tables) := by
  induction items generalizing s with
  | nil =>
    obtain ⟨-, rfl⟩ := Lower.pure_some.mp given
    exact ⟨[], .constant _ fun _ => .nil⟩
  | cons item rest ih =>
    obtain ⟨_, middle, first, later⟩ := Lower.bind_some.mp given
    rw [List.flatMap_cons] at fresh ⊢
    obtain ⟨tables, here⟩ := each fresh.left first
    obtain ⟨others, onward⟩ := ih (fresh.after here.toGives) later
    exact ⟨tables ++ others, (here.seq onward).imp fun both => both.1.append both.2⟩

theorem issueAliases_renders {u : Unit} {ranges : List (Range Expression)}
    (fresh : Fresh s.tables (ranges.flatMap Range.names))
    (issued : Lower.issueAliases aliases ranges s = some (u, s')) :
    ∃ tables, Renders aliases s s' (ranges.flatMap Range.names) tables
      (Lookups · (ranges.flatMap Range.names) tables) := by
  refine forM_renders (fun {range s u s'} fresh given => ?_) fresh issued
  obtain ⟨_, middle, first, joined⟩ := Lower.bind_some.mp given
  have parts : range.names = [range.aliasName] ++ range.joins.flatMap fun join =>
      [join.aliasName] := by
    rw [← List.map_eq_flatMap]
    rfl
  rw [parts] at fresh ⊢
  obtain ⟨table, here⟩ := issueAlias_renders fresh.left first
  have each {join : Join Expression} {s s' : Issued} {u : Unit}
      (fresh : Fresh s.tables [join.aliasName])
      (given : Lower.issueAlias aliases join.aliasName s = some (u, s')) :
      ∃ tables, Renders aliases s s' [join.aliasName] tables (Lookups · [join.aliasName] tables) := by
    obtain ⟨table, one⟩ := issueAlias_renders fresh given
    exact ⟨[table], one⟩
  obtain ⟨tables, onward⟩ := forM_renders each (fresh.after here.toGives) joined
  exact ⟨[table] ++ tables, (here.seq onward).imp fun both => both.1.append both.2⟩

def Route.links (route : Route) (link : String) : List String :=
  (route.linkTable?.map fun _ => link).toList

theorem Route.hops_aliases (route : Route) (owner target link targetTable : String) :
    (route.hops owner target link targetTable).map (·.aliasName) =
      route.links link ++ [target] := by
  cases route <;> rfl

theorem linkAlias_renders (aliases : Aliases) {route link}
    (given : Lower.linkAlias route s = some (link, s')) :
    Renders aliases s s' [] (route.links link) fun _ => True := by
  have unchanged := (Lower.linkAlias_some given).1
  rw [Lower.linkAlias] at given
  rw [Route.links]
  cases linked : route.linkTable? with
  | none =>
    simp only [linked, Lower.pure_some] at given
    obtain ⟨-, rfl⟩ := given
    exact .constant [] fun _ => trivial
  | some linkTable =>
    simp only [linked] at given
    obtain ⟨numbered, rfl⟩ := Lower.freshAlias_some given
    refine ⟨.same [] unchanged, .one numbered, .inl,
      fun settled => ⟨?_, settled.injective, settled.recorded⟩, fun _ => trivial⟩
    intro name table found
    obtain ⟨n, below, own⟩ := settled.numbered found
    exact ⟨n, Nat.lt_succ_of_lt below, own⟩

/-- Rendering a part that uses names as listed, where no name it declares has a table before. -/
def RendersFreshly (aliases : Aliases) (s s' : Issued) (uses : List NameUse)
    (listed : List String) (rendered : Dict String → Prop) : Prop :=
  Fresh s.tables (declared uses) → Renders aliases s s' (declared uses) listed rendered

namespace RendersFreshly

variable {s s' s'' : Issued} {uses uses' : List NameUse} {listed listed' : List String}
  {rendered rendered' : Dict String → Prop}

theorem constant (always : ∀ {final}, Keeps s.tables final → rendered final) :
    RendersFreshly aliases s s uses [] rendered :=
  fun _ => .constant _ always

theorem seq (first : RendersFreshly aliases s s' uses listed rendered)
    (second : RendersFreshly aliases s' s'' uses' listed' rendered') :
    RendersFreshly aliases s s'' (uses ++ uses') (listed ++ listed')
      (fun final => rendered final ∧ rendered' final) := by
  intro fresh
  rw [declared_append] at fresh ⊢
  have here := first fresh.left
  exact here.seq (second (fresh.after here.toGives))

theorem weaken (renders : RendersFreshly aliases s s' uses listed rendered)
    (more : ∀ name, (declared uses).count name ≤ (declared uses').count name)
    (follows : ∀ {final}, rendered final → rendered' final) :
    RendersFreshly aliases s s' uses' listed rendered' :=
  fun fresh => (renders (fresh.mono more)).mono more (.refl _) follows

theorem imp (renders : RendersFreshly aliases s s' uses listed rendered)
    (follows : ∀ {final}, rendered final → rendered' final) :
    RendersFreshly aliases s s' uses listed rendered' :=
  renders.weaken (fun _ => Nat.le_refl _) follows

end RendersFreshly

/-- Each part of a statement is rendered under the tables that are given out. The tables that ranges
    and joins list are `own` ones, which their aliases were given before, and `extra` ones. -/
def rendering : Judgement aliases where
  piece s p term s' := ∀ before after, RendersFreshly aliases s s' (pieceUses p before after)
    (Sql.termTables term) (PieceUnder · p term)
  pieces s part terms s' := ∀ before, RendersFreshly aliases s s' (piecesUses part before)
    (Sql.termsTables terms) (PiecesUnder · part terms)
  select _ s query sql s' := RendersFreshly aliases s s' (selectUses query) (Sql.selectTables sql)
    (SelectUnder · query sql)
  items _ s items entries s' := RendersFreshly aliases s s' (itemUses items) (Sql.itemTables entries)
    (ItemsUnder · items entries)
  ranges s ranges sql s' :=
    Fresh s.tables (ranges.flatMap fun range => conditionNames range.joins) →
    ∃ own extra, Lookups s'.tables (ranges.flatMap Range.names) own ∧
      (sql.flatMap Sql.Range.aliases ++ Sql.rangeTables sql).Perm (own ++ extra) ∧
      Renders aliases s s' (ranges.flatMap fun range => conditionNames range.joins) extra
        (fun final => List.Forall₂ (RangeUnder final) ranges sql)
  joins s joins sql s' := Fresh s.tables (conditionNames joins) →
    ∃ own extra, Lookups s'.tables (joins.map (·.aliasName)) own ∧
      (sql.flatMap Sql.Join.aliases ++ Sql.joinTables sql).Perm (own ++ extra) ∧
      Renders aliases s s' (conditionNames joins) extra
        (fun final => List.Forall₂ (JoinUnder final) joins sql)
  clause s clause found s' := RendersFreshly aliases s s' (optionalUses clause)
    (Sql.optionalTables found) fun final => Option.Rel (PiecesUnder final) clause found
  list s exprs entries s' := RendersFreshly aliases s s' (listedUses exprs) (Sql.listedTables entries)
    fun final => List.Forall₂ (PiecesUnder final) exprs entries
  orders s orders entries s' := RendersFreshly aliases s s' (orderUses orders) (Sql.orderTables entries)
    fun final => List.Forall₂ (fun (o : OrderItem Expression) (o' : Sql.OrderItem Sql.Expression) =>
      PiecesUnder final o.expr o'.expr) orders entries
  assignments _ s assignments assigned s' := RendersFreshly aliases s s'
    (assignments.flatMap Assignment.uses)
    (assigned.flatMap fun a : Sql.Assignment => Sql.termsTables a.value)
    fun final => List.Forall₂ (fun (a : Assignment) (a' : Sql.Assignment) =>
      PiecesUnder final a.value a'.value) assignments assigned
  statement s statement sql s' := statement.IsBare →
    RendersFreshly aliases s s' statement.uses sql.tables (statement.Under · sql)
  word _ _ _ := .constant fun _ => .word _
  text value _ _ := .constant fun _ => .text value
  parameter numbered _ _ _ := .same _ (Lower.parameter_some numbered).1 fun _ => .parameter _
  path _ _ found _ _ := .constant fun keeps => .path _ (keeps found)
  entity _ _ found _ _ := .constant fun keeps => .entity _ (keeps found)
  result _ _ _ := .constant fun _ => .label _
  subselect inner _ _ := inner.imp .subselect
  pieces_nil _ := .constant fun _ => .nil
  pieces_cons p rest first later before := by
    have dropped := p.onward_suffix rest
    obtain ⟨context, front, parts⟩ := piecesUses_suffix dropped (before ++ [p])
    refine ((first before rest).seq (later context)).weaken ?_ fun both =>
      .cons both.1 dropped both.2
    intro name
    simp only [piecesUses, ← parts, declared_append, List.count_append]
    omega
  select_mk issued listed ranged filtered grouped limited ordered fresh := by
    replace fresh := fresh.mono fun name => Nat.le_of_eq (count_declared_select name)
    obtain ⟨own, given⟩ := issueAliases_renders fresh.left issued
    replace fresh := fresh.after given.toGives
    have first := listed fresh.left
    replace fresh := fresh.after first.toGives
    obtain ⟨looked, extra, lookups, order, second⟩ := ranged fresh.left
    replace fresh := fresh.after second.toGives
    have third := filtered fresh.left
    replace fresh := fresh.after third.toGives
    have fourth := grouped fresh.left
    replace fresh := fresh.after fourth.toGives
    have fifth := limited fresh.left
    have sixth := ordered (fresh.after fifth.toGives)
    -- The tables that the ranges look up are the ones given out before the select list.
    obtain rfl : own = looked := by
      refine Lookups.unique (given.renders fun name table found => ?_) lookups
      exact second.kept (first.kept found)
    have whole := given.seq
      (first.seq (second.seq (third.seq (fourth.seq (fifth.seq sixth)))))
    refine whole.mono (fun name => Nat.le_of_eq (count_declared_select name)) ?_ ?_
    · refine List.perm_iff_count.mpr fun table => ?_
      have := order.count_eq table
      simp only [Sql.selectTables, List.count_append] at this ⊢
      omega
    · rintro final ⟨-, inItems, inRanges, inFilter, inGroups, inLimit, inOrders⟩
      exact ⟨inItems, inRanges, inFilter, inGroups, inLimit, inOrders⟩
  items_nil := .constant fun _ => .nil
  items_entity {_ name _ table _ _ _ _ _} known found spread later := by
    obtain ⟨unchanged, columns⟩ := Lower.columns_some spread
    have here : RendersFreshly aliases _ _ [] [] fun final => final.get? name = some table :=
      fun _ => .same [] unchanged.toSameTables fun keeps => keeps found
    intro fresh
    rw [(Sql.columns_inScope columns).1]
    refine (here.seq later).weaken ?_ (fun both => .entity both.1 columns both.2) fresh
    intro other
    simp only [itemUses, declared_append, List.count_append, List.nil_append]
    omega
  items_value valued labelled later := by
    have labels : RendersFreshly aliases _ _ [] [] fun _ => True :=
      fun _ => .same [] (Lower.entryLabel_onlyLabels labelled).toSameTables fun _ => trivial
    refine ((valued []).seq (labels.seq later)).weaken ?_ fun both => .value both.1 both.2.2
    intro name
    simp only [itemUses, declared_append, List.count_append, List.nil_append]
    omega
  ranges_nil _ := ⟨[], [], .nil, .refl _, .constant _ fun _ => .nil⟩
  ranges_cons {_ _ name _ _ _ table _ _ _ _ _} _ found joined later fresh := by
    rw [List.flatMap_cons] at fresh
    obtain ⟨ownJoined, extra, lookups, order, first⟩ := joined fresh.left
    obtain ⟨ownLater, extraLater, lookupsLater, orderLater, second⟩ :=
      later (fresh.after first.toGives)
    have here : Lookups _ [name] [table] := .cons (first.kept found) .nil
    refine ⟨[table] ++ ownJoined ++ ownLater, extra ++ extraLater,
      ((here.append lookups).kept fun _ _ known => second.kept known).append lookupsLater, ?_, ?_⟩
    · refine List.perm_iff_count.mpr fun name => ?_
      have := order.count_eq name
      have := orderLater.count_eq name
      simp only [List.flatMap_cons, Sql.Range.aliases, Sql.rangeTables, List.cons_append,
        List.nil_append, List.count_append, List.count_cons] at *
      omega
    · have lookup : Renders aliases _ _ [] [] fun final => final.get? name = some table :=
        .constant [] fun keeps => keeps found
      exact (lookup.seq (first.seq second)).imp fun parts => .cons ⟨parts.1, parts.2.1⟩ parts.2.2
  joins_nil _ := ⟨[], [], .nil, .refl _, .constant _ fun _ => .nil⟩
  joins_entity {_ _ _ name _ _ record table limit _ _ _ _} _ found limited later fresh := by
    simp only [conditionNames, List.flatMap_cons] at fresh
    have first := limited fresh.left
    obtain ⟨own, extra, lookups, order, second⟩ := later (fresh.after first.toGives)
    have lookup : Renders aliases _ _ [] [] fun final => final.get? name = some table :=
      .constant [] fun keeps => keeps found
    have whole := lookup.seq (first.seq second)
    refine ⟨table :: own, Sql.optionalTables limit ++ extra, .cons whole.now.1 lookups, ?_,
      whole.imp fun parts => .cons (.table record.table parts.1 parts.2.1) parts.2.2⟩
    refine List.perm_iff_count.mpr fun name => ?_
    have := order.count_eq name
    simp only [List.flatMap_cons, Sql.Join.aliases, Sql.joinTables, List.cons_append,
      List.nil_append, List.count_append, List.count_cons] at *
    omega
  joins_association {_ _ path name _ _ record table _ ownerTable _ route link _ limit _ _ _ _}
      _ found _ started _ _ linked limited later fresh := by
    simp only [conditionNames, List.flatMap_cons] at fresh
    rw [← (Lower.linkAlias_some linked).1] at fresh
    have linked := linkAlias_renders aliases linked
    have first := limited fresh.left
    obtain ⟨own, extra, lookups, order, second⟩ := later (fresh.after first.toGives)
    have lookup : Renders aliases _ _ [] [] fun final =>
        final.get? path.aliasName = some ownerTable ∧ final.get? name = some table :=
      .constant [] fun keeps => ⟨keeps started, keeps found⟩
    have whole := lookup.seq (linked.seq (first.seq second))
    refine ⟨table :: own, route.links link ++ (Sql.optionalTables limit ++ extra),
      .cons whole.now.1.2 lookups, ?_, whole.imp fun parts =>
        .cons (.hops route link record.table rfl parts.1.1 parts.1.2 parts.2.2.1) parts.2.2.2⟩
    refine List.perm_iff_count.mpr fun name => ?_
    have := order.count_eq name
    simp only [List.flatMap_cons, Sql.Join.aliases, Route.hops_aliases, Sql.joinTables,
      List.cons_append, List.count_append, List.count_cons, List.count_nil] at *
    omega
  clause_none := .constant fun _ => .none
  clause_some given := (given []).imp .some
  list_nil := .constant fun _ => .nil
  list_cons first later := ((first []).seq later).imp fun both => .cons both.1 both.2
  orders_nil := .constant fun _ => .nil
  orders_cons first later := ((first []).seq later).imp fun both => .cons both.1 both.2
  assignments_nil := .constant fun _ => .nil
  assignments_cons _ valued later :=
    ((valued []).seq later).weaken (fun _ => Nat.le_refl _) fun both => .cons both.1 both.2
  selected inner _ := inner.imp .select
  updated {_ range record table _ _ _ _ _ _ _} issued found _ assigns filtered bare fresh := by
    obtain ⟨className, aliasName, index, joins⟩ := range
    obtain rfl : joins = [] := bare
    simp only [Statement.uses, declared_append, declared_loneRange, List.append_assoc] at fresh ⊢
    obtain ⟨own, given⟩ := issueAliases_renders fresh.left issued
    obtain rfl : own = [table] := given.now.unique (.cons found .nil)
    replace fresh := fresh.after given.toGives
    have here := assigns fresh.left
    have onward := filtered (fresh.after here.toGives)
    refine (given.seq (here.seq onward)).imp ?_
    rintro final ⟨lookups, values, limited⟩
    obtain ⟨known, -⟩ := List.forall₂_cons.mp lookups
    exact .update record.table known values limited
  deleted {_ range record table _ _ _ _} issued found _ filtered bare fresh := by
    obtain ⟨className, aliasName, index, joins⟩ := range
    obtain rfl : joins = [] := bare
    simp only [Statement.uses, declared_append, declared_loneRange] at fresh ⊢
    obtain ⟨own, given⟩ := issueAliases_renders fresh.left issued
    obtain rfl : own = [table] := given.now.unique (.cons found .nil)
    refine (given.seq (filtered (fresh.after given.toGives))).imp ?_
    rintro final ⟨lookups, limited⟩
    obtain ⟨known, -⟩ := List.forall₂_cons.mp lookups
    exact .delete record.table known limited

end EntityAudit.Query
