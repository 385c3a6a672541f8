import EntityAudit.Proofs.Ty.Members
import EntityAudit.Proofs.Ty.Union
import EntityAudit.Rule.PropertyTypes

/-! # Widening the accepting side

A union takes an intersection on the right apart before it asks its members, so a widened type
accepts what the type accepts after the right side is taken apart: `spread (a.accepts table)`. An
intersection on the left may accept an intersection on the right as a whole and none of its members,
and then the widened type loses it.
-/

namespace EntityAudit

variable {a : Ty}
variable {association : Association}

namespace Ty

variable {table : ClassTable} {b : Ty} {ms : List Ty}

mutual
/-- Whether an intersection shows up when the unions of a type are taken apart. -/
def opensIntersection : Ty → Bool
  | .union ms => anyOpensIntersection ms
  | .intersection _ => true
  | _ => false

def anyOpensIntersection : List Ty → Bool
  | [] => false
  | t :: ts => opensIntersection t || anyOpensIntersection ts
end

theorem anyOpensIntersection_eq_false {ts} :
    anyOpensIntersection ts = false ↔ ∀ t ∈ ts, t.opensIntersection = false := by
  induction ts with
  | nil => simp [anyOpensIntersection]
  | cons t ts ih => simp [anyOpensIntersection, ih]

theorem opensIntersection_union :
    (union ms).opensIntersection = false ↔ ∀ m ∈ ms, m.opensIntersection = false := by
  rw [opensIntersection, anyOpensIntersection_eq_false]

theorem spread_of_accepts (unions : b.opensIntersection = false)
    (accepted : a.accepts table b = .yes) : spread (a.accepts table) b = .yes := by
  induction b using members_induction with
  | leaf b leaf => rwa [spread_of_isLeaf leaf]
  | union ms ih =>
    rw [opensIntersection_union] at unions
    have members := accepts_union_iff.mp accepted
    exact spread_union_eq_yes.mpr fun m inside =>
      ih m inside (unions m inside) (members m inside)
  | intersection ms => cases unions

theorem exists_member_accepts (leaf : b.isLeaf = true) (accepted : a.accepts table b = .yes) :
    ∃ m ∈ a.members, m.accepts table b = .yes := by
  cases single : a.isUnion with
  | false => exact ⟨a, by simp [single], accepted⟩
  | true =>
    cases a with
    | union ms => exact (accepts_union_eq_yes leaf).mp accepted
    | _ => cases single

theorem accepts_unite_of_mem {types m} (inside : m ∈ types.flatMap members) (leaf : b.isLeaf = true)
    (accepted : m.accepts table b = .yes) : (unite types).accepts table b = .yes := by
  rw [unite_eq]
  split
  · rfl
  · have kept : m ∈ joined (types.flatMap members) := mem_joined.mpr inside
    generalize joined (types.flatMap members) = flat at kept
    match flat, kept with
    | [only], kept => rwa [← List.mem_singleton.mp kept]
    | first :: second :: rest, kept => exact (accepts_union_eq_yes leaf).mpr ⟨m, kept, accepted⟩

theorem accepts_unite_of_spread (x : Ty) (accepted : spread (a.accepts table) b = .yes) :
    (unite [a, x]).accepts table b = .yes := by
  refine accepts_of_spread (spread_mono (fun t leaf single => ?_) accepted)
  obtain ⟨m, inside, member⟩ := exists_member_accepts leaf single
  exact accepts_unite_of_mem (by simp [inside]) leaf member

theorem unite_pair {x} (whole : a.isWhole = true) (known : a ≠ .mixed) (single : x.isUnion = false)
    (closed : x ≠ .mixed) (other : x ≠ a) : unite [a, x] = .union [a, x] := by
  have apart : a.isUnion = false := by
    cases a with
    | union => cases whole
    | _ => rfl
  have some : a ≠ .null := by rintro rfl; cases whole
  have flat : [a, x].flatMap members = [a, x] := by simp [apart, single]
  have closedFlat : ([a, x].contains .mixed) = false := by simp [known.symm, closed.symm]
  rw [unite_eq, flat, closedFlat, if_neg Bool.false_ne_true]
  by_cases null : x = .null
  · subst null
    simp [joined, some, pack, List.eraseDups_cons]
  · have keeps : joined [a, x] = [a, x] := by
      simp [joined, some, null, Ne.symm some, Ne.symm null, List.eraseDups_cons, other]
    rw [keeps]
    rfl

theorem accepts_unite_pair {x} (whole : a.isWhole = true) (known : a ≠ .mixed)
    (single : x.isUnion = false) (closed : x ≠ .mixed) (other : x ≠ a) :
    (unite [a, x]).accepts table b =
      spread (fun t => Verdict.any [a.accepts table t, x.accepts table t]) b := by
  rw [unite_pair whole known single closed other]
  rfl

theorem accepts_constArray_ne_yes (entries : List (Ty × Ty)) (leaf : b.isLeaf = true) :
    (constArray entries).accepts table b ≠ .yes := by
  intro accepted
  cases eq_yes_of_against leaf accepted

theorem spread_of_accepts_every_unite (known : a ≠ .mixed) (accepted : a.accepts table b = .yes)
    (every : ∀ x, (unite [a, x]).accepts table b = .yes) : spread (a.accepts table) b = .yes := by
  cases whole : a.isWhole with
  | false => rwa [spread_accepts whole]
  | true =>
    -- An added type that accepts nothing shows what the union makes of `a` alone.
    have other : constArray [] ≠ a := by rintro rfl; cases whole
    have widened := every (.constArray [])
    rw [accepts_unite_pair whole known rfl (by simp) other] at widened
    refine spread_mono (fun t leaf either => ?_) widened
    rw [Verdict.any_eq_yes] at either
    simp only [List.mem_cons, List.not_mem_nil, or_false] at either
    rcases either with own | added
    · exact own.symm
    · exact absurd added.symm (accepts_constArray_ne_yes [] leaf)

theorem opensIntersection_unite {types} (unions : ∀ t ∈ types, t.opensIntersection = false) :
    (unite types).opensIntersection = false := by
  have flat : ∀ m ∈ joined (types.flatMap members), m.opensIntersection = false := by
    intro m inside
    obtain ⟨t, among, member⟩ := List.mem_flatMap.mp (mem_joined.mp inside)
    have own := unions t among
    cases t with
    | union ms => exact opensIntersection_union.mp own m member
    | _ => rwa [List.mem_singleton.mp member]
  rw [unite_eq]
  split
  · rfl
  · generalize joined (types.flatMap members) = kept at flat
    match kept, flat with
    | [], _ => rfl
    | [only], flat => exact flat only (by simp)
    | first :: second :: rest, flat => exact opensIntersection_union.mpr flat

theorem opensIntersection_addNull {t : Ty} (unions : t.opensIntersection = false) :
    t.addNull.opensIntersection = false := by
  refine opensIntersection_unite fun u inside => ?_
  simp only [List.mem_cons, List.not_mem_nil, or_false] at inside
  rcases inside with rfl | rfl
  · exact unions
  · rfl

end Ty

theorem opensIntersection_columnBase {columnType base}
    (known : columnBase? columnType = some base) :
    base.opensIntersection = false := by
  unfold columnBase? at known
  split at known <;> cases known <;> rfl

theorem Field.opensIntersection_storedType {field : Field} {storage}
    (known : field.storedType? = some storage) : storage.opensIntersection = false := by
  obtain ⟨base, found, rfl⟩ := Option.map_eq_some_iff.mp known
  have single := opensIntersection_columnBase found
  split
  · exact Ty.opensIntersection_addNull single
  · exact single

theorem Association.opensIntersection_storedType (one : association.cardinality = .toOne) :
    association.storedType.opensIntersection = false := by
  simp only [storedType, one]
  split
  · exact Ty.opensIntersection_addNull rfl
  · rfl

theorem Association.storedType_toMany (many : association.cardinality = .toMany) :
    association.storedType = .intersection
      [.ofClass ClassName.collection, .iterable .mixed (.ofClass association.target)] := by
  simp [storedType, many, Ty.meet, Ty.factors, Ty.ofClass, Ty.pack, List.eraseDups_cons]

open Ty in
/-- A nullable property holds a collection if the property accepts one of the two things that a
    stored collection is, seen alone. -/
theorem accepts_addNull_toMany {table} (many : association.cardinality = .toMany)
    (accepted : a.accepts table association.storedType = .yes) :
    a.addNull.accepts table association.storedType = .yes ↔
      a.accepts table (.ofClass ClassName.collection) = .yes ∨
        a.accepts table (.iterable .mixed (.ofClass association.target)) = .yes := by
  rw [Association.storedType_toMany many] at accepted ⊢
  have apart : spread (a.accepts table) (.intersection
        [.ofClass ClassName.collection, .iterable .mixed (.ofClass association.target)]) = .yes ↔
      a.accepts table (.ofClass ClassName.collection) = .yes ∨
        a.accepts table (.iterable .mixed (.ofClass association.target)) = .yes := by
    rw [spread_intersection_eq_yes]
    simp only [List.mem_cons, List.not_mem_nil, or_false, exists_eq_or_imp, exists_eq_left]
    exact Iff.rfl
  rw [← apart]
  refine ⟨fun nullable => ?_, accepts_unite_of_spread .null⟩
  cases whole : a.isWhole with
  | false => rwa [spread_accepts whole]
  | true =>
    by_cases known : a = .mixed
    · subst known
      exact apart.mpr (.inl rfl)
    · have other : Ty.null ≠ a := by rintro rfl; cases whole
      rw [addNull, accepts_unite_pair whole known rfl (by simp) other,
        spread_intersection_eq_yes] at nullable
      obtain ⟨m, inside, either⟩ := nullable
      refine spread_intersection_eq_yes.mpr ⟨m, inside, ?_⟩
      simp only [List.mem_cons, List.not_mem_nil, or_false] at inside
      -- Null accepts neither objects nor iterables, so `a` is the one that accepts.
      rcases inside with rfl | rfl <;>
      · rw [spread_of_isLeaf rfl, Verdict.any_eq_yes] at either
        simp only [List.mem_cons, List.not_mem_nil, or_false] at either
        rcases either with own | null
        · exact own.symm
        · cases null

theorem forall_typeMismatches {table className name property storage} :
    (∀ complaint ∈ typeMismatches table className name property storage,
        complaint = .propertyWider className name storage property.readable) ↔
      property.writable.accepts table storage = .yes := by
  unfold typeMismatches
  by_cases written : property.writable.accepts table storage = .yes <;>
    by_cases read : storage.accepts table property.readable = .yes <;> simp [written, read]

open Ty in
/-- Widening a type that accepts `b` keeps acceptance whatever is added, exactly if the type is
    `mixed` or accepts `b` taken apart. That is so for every type that is not itself an intersection
    or a generic parameter, and for every `b` without intersections. So a property made nullable
    gets no new complaint about what the database holds for a column or a to-one association, and
    for a to-many association exactly if its type accepts a plain collection or a plain iterable. -/
theorem accepts_widened_iff (table : ClassTable) (a b : Ty) (accepted : a.accepts table b = .yes) :
    ((∀ x, (unite [a, x]).accepts table b = .yes) ↔
      a = .mixed ∨ spread (a.accepts table) b = .yes) ∧
    (a = .mixed ∨ a.isWhole = false ∨ b.opensIntersection = false →
      ∀ x, (unite [a, x]).accepts table b = .yes) ∧
    ∀ (className name : String) (property : PropertyInfo),
      ((∃ field : Field, field.storedType? = some b) ∨
          (∃ association : Association,
            association.cardinality = .toOne ∧ association.storedType = b) →
        a.addNull.accepts table b = .yes ∧
        ∀ complaint ∈ typeMismatches table className name
            { property with writable := a.addNull } b,
          complaint = .propertyWider className name b property.readable) ∧
      ∀ association : Association,
        association.cardinality = .toMany → association.storedType = b →
        ((∀ complaint ∈ typeMismatches table className name
              { property with writable := a.addNull } b,
            complaint = .propertyWider className name b property.readable) ↔
          a.accepts table (.ofClass ClassName.collection) = .yes ∨
            a.accepts table (.iterable .mixed (.ofClass association.target)) = .yes) := by
  have widens : a = .mixed ∨ spread (a.accepts table) b = .yes →
      ∀ x, (unite [a, x]).accepts table b = .yes := by
    rintro (rfl | apart) x
    · rfl
    · exact accepts_unite_of_spread x apart
  refine ⟨⟨fun every => ?_, widens⟩, fun shape => widens ?_, fun className name property =>
    ⟨fun stored => ?_, fun association many same => ?_⟩⟩
  · by_cases known : a = .mixed
    · exact .inl known
    · exact .inr (spread_of_accepts_every_unite known accepted every)
  · rcases shape with known | whole | unions
    · exact .inl known
    · exact .inr (by rwa [spread_accepts whole])
    · exact .inr (spread_of_accepts unions accepted)
  · have unions : b.opensIntersection = false := by
      rcases stored with ⟨field, known⟩ | ⟨association, one, rfl⟩
      · exact field.opensIntersection_storedType known
      · exact association.opensIntersection_storedType one
    have nullable := accepts_unite_of_spread .null (spread_of_accepts unions accepted)
    exact ⟨nullable, forall_typeMismatches.mpr nullable⟩
  · subst same
    exact forall_typeMismatches.trans (accepts_addNull_toMany many accepted)

theorem ClassTable.ancestor?_self (table : ClassTable) (c : ClassType) :
    table.ancestor? c c.name = some c := by
  simp [ancestor?, search_cons, Text.sameFold]

open Ty in
theorem accepts_ofClass_self (table : ClassTable) (name : String) :
    (ofClass name).accepts table (.ofClass name) = .yes := by
  change against _ (.object name []) = .yes
  simp only [against, spread, unlessOpen, ClassTable.acceptsClass,
    table.ancestor?_self ⟨name, []⟩]
  rfl

open Ty in
/-- A property that takes any collection still takes a stored one when it is made nullable. -/
theorem accepts_widened_iff_collection :
    let table : ClassTable := {}
    let storage := (Association.toMany "items" "App\\Item").storedType
    let a := ofClass ClassName.collection
    a.accepts table storage = .yes ∧ (∀ x, (unite [a, x]).accepts table storage = .yes) ∧
      ∀ complaint ∈ typeMismatches table "App\\Order" "items" ⟨storage, a.addNull⟩ storage,
        complaint = .propertyWider "App\\Order" "items" storage storage := by
  intro table storage a
  have parts : storage = .intersection [a, .iterable .mixed (.ofClass "App\\Item")] :=
    Association.storedType_toMany rfl
  have same := accepts_ofClass_self table ClassName.collection
  have accepted : a.accepts table storage = .yes := by
    rw [← spread_accepts rfl, parts, spread_intersection_eq_yes]
    exact ⟨a, List.mem_cons_self, same⟩
  obtain ⟨_, keeps, complaints⟩ := accepts_widened_iff table a storage accepted
  exact ⟨accepted, keeps (.inr (.inl rfl)),
    ((complaints "App\\Order" "items" ⟨storage, a⟩).2 _ rfl rfl).mpr (.inl same)⟩

open Ty in
/-- A property whose type is exactly that of a stored collection does not accept one any more when
    it is made nullable. -/
theorem typeMismatches_nullable_collection :
    let table : ClassTable := {}
    let storage := (Association.toMany "items" "App\\Item").storedType
    storage.accepts table storage = .yes ∧ storage.addNull.accepts table storage = .maybe ∧
      typeMismatches table "App\\Order" "items" ⟨storage, storage.addNull⟩ storage =
        [.databaseWider "App\\Order" "items" storage storage.addNull] := by
  intro table storage
  let collection := ofClass ClassName.collection
  let items := Ty.iterable .mixed (.ofClass "App\\Item")
  have parts : storage = .intersection [collection, items] := Association.storedType_toMany rfl
  have nullable : storage.addNull = .union [storage, .null] :=
    unite_pair (by rw [parts]; rfl) (by simp [parts]) rfl (by simp) (by simp [parts])
  have foreign : table.ancestor? ⟨ClassName.collection, []⟩ ClassName.traversable = none := by
    have apart : Text.sameFold ClassName.collection ClassName.traversable = false := by decide
    simp [table, ClassTable.ancestor?, ClassTable.search_cons, ClassTable.search, Dict.get?, apart]
  have same : collection.accepts table collection = .yes := accepts_ofClass_self table _
  have plain : items.accepts table collection = .maybe := by
    change against _ (.object ClassName.collection []) = .maybe
    simp only [against, spread, unlessOpen, foreign]
    rfl
  have loose : collection.accepts table items = .no := by
    change against _ (.iterable .mixed (.object "App\\Item" [])) = .no
    simp only [against, spread, unlessOpen, ClassTable.descends, foreign]
    rfl
  have held : items.accepts table items = .yes := by
    change (Verdict.yes).and (accepts table (.ofClass "App\\Item") (.ofClass "App\\Item")) = .yes
    rw [accepts_ofClass_self]
    rfl
  have whole : storage.accepts table storage = .yes :=
    calc storage.accepts table storage
      _ = Verdict.all
            [Verdict.any [collection.accepts table collection, collection.accepts table items],
            Verdict.any [items.accepts table collection, items.accepts table items]] := by
          rw [parts]; rfl
      _ = .yes := by rw [same, loose, plain, held]; rfl
  have lost : storage.addNull.accepts table storage = .maybe :=
    calc storage.addNull.accepts table storage
      _ = Verdict.any
            [Verdict.any [Verdict.all [collection.accepts table collection,
                items.accepts table collection], .no],
              Verdict.any [Verdict.all [collection.accepts table items,
                items.accepts table items], .no]] := by
          rw [nullable, parts]; rfl
      _ = .maybe := by rw [same, loose, plain, held]; rfl
  refine ⟨whole, lost, ?_⟩
  rw [typeMismatches, if_neg (by simp [lost]), if_pos whole, List.append_nil]

end EntityAudit
