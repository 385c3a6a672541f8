import EntityAudit.Proofs.Mapping.Loading
import EntityAudit.Proofs.Ty.Reflexive

/-! # Null in properties and in the database

Whether null may be stored is decided by the flag of a field, and for an association to one target
by its join columns, which must all refuse null, and of which there must be some. A property that
differs from what is stored in nothing but null is complained about exactly where one side may be
null and the other may not.
-/

namespace EntityAudit

namespace Ty

/-- A single type that accepts itself and refuses null. -/
structure IsSolid (table : ClassTable) (base : Ty) : Prop where
  leaf : base.isLeaf = true
  nullable : base.addNull = .union [base, .null]
  own : base.accepts table base = .yes
  null : base.accepts table .null = .no

namespace IsSolid

variable {table : ClassTable} {base : Ty}

theorem addNull_ne (solid : IsSolid table base) : base.addNull ≠ base := by
  intro same
  have leaf := solid.leaf
  rw [← same, solid.nullable] at leaf
  cases leaf

/-- Null makes the difference: only the type without it refuses the one with it. -/
theorem accepts_iff (solid : IsSolid table base) {left right} (a : left ∈ [base, base.addNull])
    (b : right ∈ [base, base.addNull]) :
    left.accepts table right = .yes ↔ ¬ (left = base ∧ right = base.addNull) := by
  have either : base.addNull.accepts table base = .yes := by
    rw [solid.nullable]
    exact (accepts_union_eq_yes solid.leaf).mpr ⟨base, List.mem_cons_self, solid.own⟩
  have both : base.addNull.accepts table base.addNull = .yes := by
    rw [solid.nullable] at either ⊢
    have null : (union [base, .null]).accepts table .null = .yes :=
      (accepts_union_eq_yes rfl).mpr ⟨.null, by simp, rfl⟩
    exact accepts_union_iff.mpr
      (List.forall_mem_cons.mpr ⟨either, List.forall_mem_singleton.mpr null⟩)
  have refused : base.accepts table base.addNull ≠ .yes := by
    rw [solid.nullable]
    intro accepted
    have null := accepts_union_iff.mp accepted .null (by simp)
    rw [solid.null] at null
    cases null
  have apart := solid.addNull_ne
  rcases List.mem_pair.mp a with rfl | rfl
  · rcases List.mem_pair.mp b with rfl | rfl
    · simp [solid.own, apart.symm]
    · simp [refused]
  · rcases List.mem_pair.mp b with rfl | rfl
    · simp [either, apart]
    · simp [both, apart]

end IsSolid

theorem isSolid_ofClass (table : ClassTable) (name : String) : IsSolid table (.ofClass name) where
  leaf := rfl
  nullable := rfl
  own := accepts_self_of_parts rfl
  null := rfl

end Ty

theorem isSolid_columnBase (table : ClassTable) {columnType base}
    (known : columnBase? columnType = some base) : base.IsSolid table := by
  have own : base.accepts table base = .yes :=
    Ty.accepts_self_of_parts (everyPart_columnBase known).1
  unfold columnBase? at known
  split at known <;> cases known <;> exact ⟨rfl, rfl, own, rfl⟩

/-- What is complained about where values of `base`, or null if `nullable`, are stored: a property
    that is written without null though it may be stored, and after that one that is read with null
    though it may not. -/
structure ComplainsOfNull (table : ClassTable) (className name : String) (base : Ty)
    (nullable : Bool) (storage : Ty) : Prop where
  storage_eq : storage = if nullable then base.addNull else base
  apart : base.addNull ≠ base
  complaints : ∀ writable ∈ [base, base.addNull], ∀ readable ∈ [base, base.addNull],
    typeMismatches table className name ⟨readable, writable⟩ storage =
      (if nullable = true ∧ writable = base then
        [.databaseWider className name base.addNull base] else []) ++
      (if nullable = false ∧ readable = base.addNull then
        [.propertyWider className name base base.addNull] else [])

theorem Ty.IsSolid.complainsOfNull {table base} (solid : base.IsSolid table)
    (className name : String) (nullable : Bool) :
    ComplainsOfNull table className name base nullable
      (if nullable then base.addNull else base) where
  storage_eq := rfl
  apart := solid.addNull_ne
  complaints := by
    intro writable written readable read
    have stored : (if nullable then base.addNull else base) ∈ [base, base.addNull] := by
      cases nullable <;> simp
    have apart := solid.addNull_ne
    rw [typeMismatches]
    simp only [solid.accepts_iff written stored, solid.accepts_iff stored read, ite_not]
    cases nullable with
    | true =>
      by_cases same : writable = base
      · simp [same, apart]
      · simp [same, apart]
    | false =>
      by_cases same : readable = base.addNull
      · simp [same, apart.symm]
      · simp [same, apart.symm]

/-- Whether a mapping leaves no room for null: there are join columns, and all of them refuse it. -/
def AssociationEntry.IsRequired (e : AssociationEntry) : Prop :=
  ∃ columns, e.JoinsOn columns ∧ columns ≠ [] ∧ ∀ c ∈ columns, c.nullable = some false

theorem AssociationEntry.isNullable_iff {e : AssociationEntry}
    (one : e.shape = .oneToOne ∨ e.shape = .manyToOne) :
    e.toAssociation.isNullable = false ↔ e.IsRequired := by
  have cardinality : e.toAssociation.cardinality = .toOne :=
    AssociationShape.cardinality_eq_toOne.mpr one
  have columns : e.toAssociation.joinColumns = e.columns := rfl
  have refuses (c : JoinColumn) : c.nullable.getD true = false ↔ c.nullable = some false := by
    cases c.nullable <;> simp
  simp [Association.isNullable, cardinality, columns, refuses, IsRequired, joinsOn_iff]

theorem AssociationEntry.storedType_toOne {e : AssociationEntry}
    (one : e.shape = .oneToOne ∨ e.shape = .manyToOne) :
    e.toAssociation.storedType =
      if e.toAssociation.isNullable then (Ty.ofClass e.target).addNull else .ofClass e.target := by
  have cardinality : e.toAssociation.cardinality = .toOne :=
    AssociationShape.cardinality_eq_toOne.mpr one
  simp only [Association.storedType, cardinality]
  rfl

/-- How null goes from the mapping into the complaints about a property, whatever classes are
    known. An association to one target may be null unless it has join columns, after those by
    convention are filled in, and all of them say that they may not; a field may be null if it says
    so. Of a property that has the stored type with null or without it, the only complaints are that
    null may be stored but not written, and then that null may be read but not stored. An
    association to many targets is stored as a collection whatever its mapping says, and a property
    of that type gets no complaint. -/
theorem complaints_follow_nullability (table : ClassTable) (className name : String) :
    (∀ e : AssociationEntry, e.shape = .oneToOne ∨ e.shape = .manyToOne →
      (e.toAssociation.isNullable = false ↔ e.IsRequired) ∧
        ComplainsOfNull table className name (.ofClass e.target) e.toAssociation.isNullable
          e.toAssociation.storedType) ∧
      (∀ (e : FieldEntry) (base : Ty), columnBase? e.columnType = some base →
        ∃ storage, e.toField.storedType? = some storage ∧
          ComplainsOfNull table className name base e.nullable storage) ∧
      ∀ e : AssociationEntry, e.shape = .oneToMany ∨ e.shape = .manyToMany →
        e.toAssociation.storedType = .intersection
          [.ofClass ClassName.collection, .iterable .mixed (.ofClass e.target)] ∧
        typeMismatches table className name
          ⟨e.toAssociation.storedType, e.toAssociation.storedType⟩
          e.toAssociation.storedType = [] := by
  refine ⟨fun e one => ⟨AssociationEntry.isNullable_iff one, ?_⟩, fun e base known => ?_,
    fun e many => ⟨?_, ?_⟩⟩
  · rw [AssociationEntry.storedType_toOne one]
    exact (Ty.isSolid_ofClass table e.target).complainsOfNull className name _
  · refine ⟨if e.nullable then base.addNull else base, ?_, ?_⟩
    · have columnType : e.toField.columnType = e.columnType := rfl
      rw [Field.storedType?, columnType, known]
      rfl
    · exact (isSolid_columnBase table known).complainsOfNull className name e.nullable
  · have cardinality : e.toAssociation.cardinality = .toMany := by
      rcases many with shape | shape <;> simp [AssociationEntry.toAssociation, shape,
        AssociationShape.cardinality]
    exact Association.storedType_toMany cardinality
  · exact typeMismatches_self.mpr (Ty.accepts_self_of_parts e.toAssociation.everyPart_storedType)

/-- A join column that refuses null, one by convention, which does not, and a field. -/
theorem complaints_follow_nullability_post :
    let owner : AssociationEntry :=
      { name := "owner", shape := .manyToOne, target := "User",
        joinColumns := some [⟨"owner_id", "id", some false⟩] }
    let editor : AssociationEntry := { name := "editor", shape := .manyToOne, target := "User" }
    let title : FieldEntry := { name := "title", nullable := true }
    let user := Ty.ofClass "User"
    typeMismatches {} "Post" "owner" ⟨user.addNull, user⟩ owner.toAssociation.storedType =
        [.propertyWider "Post" "owner" user user.addNull] ∧
      typeMismatches {} "Post" "editor" ⟨user.addNull, user⟩ editor.toAssociation.storedType =
        [.databaseWider "Post" "editor" user.addNull user] ∧
      ∃ storage, title.toField.storedType? = some storage ∧
        typeMismatches {} "Post" "title" ⟨.string, Ty.string.addNull⟩ storage = [] := by
  intro owner editor title user
  have first := ((complaints_follow_nullability {} "Post" "owner").1 owner (.inr rfl)).2
  have second := ((complaints_follow_nullability {} "Post" "editor").1 editor (.inr rfl)).2
  obtain ⟨storage, known, third⟩ :=
    (complaints_follow_nullability {} "Post" "title").2.1 title .string (by decide)
  refine ⟨?_, ?_, storage, known, ?_⟩
  · rw [first.complaints user List.mem_cons_self user.addNull (by simp [user, owner])]
    rfl
  · rw [second.complaints user List.mem_cons_self user.addNull (by simp [user, editor])]
    rfl
  · rw [third.complaints Ty.string.addNull (by simp) .string (by simp)]
    rfl

end EntityAudit
