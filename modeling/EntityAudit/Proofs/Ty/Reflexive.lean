import EntityAudit.Proofs.Ty.Lattice
import EntityAudit.Proofs.Ty.Normal

/-! # Types that accept themselves

Most types accept themselves, and so a property declared with the very type that is stored agrees
with the database. Two kinds do not: the type of an array with listed entries, and a union that
takes an intersection among its members apart, after which no member may accept what is left.
-/

namespace EntityAudit

namespace Ty

variable {table : ClassTable}

def isConstArray : Ty → Bool
  | .constArray _ => true
  | _ => false

theorem acceptsArgs_self (args : List Ty) :
    acceptsArgs table args args = args.map fun arg => arg.accepts table arg := by
  induction args with
  | nil => rfl
  | cons arg args ih => exact congrArg (arg.accepts table arg :: ·) ih

theorem accepts_object_self {name args} :
    (object name args).accepts table (.object name args) = .yes ↔
      ∀ arg ∈ args, arg.accepts table arg = .yes := by
  change against _ (.object name args) = .yes ↔ _
  simp only [against, spread, unlessOpen, ClassTable.acceptsClass,
    table.ancestor?_self ⟨name, args⟩]
  cases args with
  | nil => simp
  | cons arg args =>
    rw [if_neg (by simp), acceptsArgs_self, Verdict.all_eq_yes, List.forall_mem_map]

/-- A single type accepts itself exactly if it is not an array with listed entries and all it is made
    of does. -/
theorem accepts_self_of_isLeaf {t : Ty} (leaf : t.isLeaf = true) :
    t.accepts table t = .yes ↔
      t.isConstArray = false ∧ ∀ part ∈ t.parts, part.accepts table part = .yes := by
  have both : ∀ key value : Ty,
      (key.accepts table key).and (value.accepts table value) = .yes ↔
        ∀ part ∈ [key, value], part.accepts table part = .yes := by
    intro key value
    rw [Verdict.and_eq_yes]
    simp
  cases t with
  | union | intersection => cases leaf
  | constArray entries => exact ⟨fun accepted => (by cases accepted), fun plain => by cases plain.1⟩
  | object name args => exact accepts_object_self.trans (by simp [isConstArray, parts])
  | iterable key value => exact (both key value).trans (by simp [isConstArray, parts])
  | array key value => exact (both key value).trans (by simp [isConstArray, parts])
  | constBool | constInt | constString =>
    exact ⟨fun _ => ⟨rfl, by simp [parts]⟩, fun _ => accepts_self_of_isScalar rfl⟩
  | _ => exact ⟨fun _ => ⟨rfl, by simp [parts]⟩, fun _ => rfl⟩

variable {ms : List Ty}

theorem accepts_intersection_of_mem {a m : Ty} (inside : m ∈ ms)
    (accepted : a.accepts table m = .yes) : a.accepts table (.intersection ms) = .yes := by
  induction a using members_induction with
  | leaf a leaf =>
    cases whole : a.isWhole with
    | true => exact accepts_of_isOpen whole leaf _
    | false =>
      obtain ⟨f, same⟩ := accepts_eq_spread table whole
      rw [same] at accepted ⊢
      exact spread_intersection_eq_yes.mpr ⟨m, inside, accepted⟩
  | union us ih => exact spread_intersection_eq_yes.mpr ⟨m, inside, accepted⟩
  | intersection us ih =>
    rw [accepts_intersection_eq_yes] at accepted ⊢
    exact fun u among => ih u among (accepted u among)

theorem accepts_intersection_self (each : ∀ m ∈ ms, m.accepts table m = .yes) :
    (intersection ms).accepts table (.intersection ms) = .yes :=
  accepts_intersection_eq_yes.mpr fun m inside => accepts_intersection_of_mem inside (each m inside)

theorem accepts_of_mem_union {m} (inside : m ∈ ms) (unions : m.opensIntersection = false)
    (own : m.accepts table m = .yes) : (union ms).accepts table m = .yes := by
  refine accepts_of_spread (spread_mono (fun t leaf accepted => ?_) (spread_of_accepts unions own))
  exact (accepts_union_eq_yes leaf).mpr ⟨m, inside, accepted⟩

theorem accepts_union_intersection {ns} :
    (union ms).accepts table (.intersection ns) = .yes ↔
      ∃ n ∈ ns, (union ms).accepts table n = .yes :=
  spread_intersection_eq_yes

/-- A union of types that accept themselves accepts itself exactly if it accepts one member of each
    intersection in it. -/
theorem accepts_union_self (flat : ∀ m ∈ ms, m.isUnion = false)
    (each : ∀ m ∈ ms, m.accepts table m = .yes) :
    (union ms).accepts table (.union ms) = .yes ↔
      ∀ ns, .intersection ns ∈ ms → ∃ n ∈ ns, (union ms).accepts table n = .yes := by
  rw [accepts_union_iff]
  constructor
  · intro accepted ns inside
    exact accepts_union_intersection.mp (accepted _ inside)
  · intro apart m inside
    have single := flat m inside
    cases m with
    | union => cases single
    | intersection ns => exact accepts_union_intersection.mpr (apart ns inside)
    | _ => exact accepts_of_mem_union inside rfl (each _ inside)

/-- Whether acceptance has a case for the type against itself that does not fail by its shape. -/
def comparesWithItself : Ty → Bool
  | .constArray _ => false
  | .union ms => !anyOpensIntersection ms
  | _ => true

theorem accepts_self_of_parts {t : Ty} (plain : t.everyPart comparesWithItself = true) :
    t.accepts table t = .yes := by
  induction t using parts_induction with
  | step t ih =>
    obtain ⟨own, inner⟩ := everyPart_iff.mp plain
    have each : ∀ part ∈ t.parts, part.accepts table part = .yes :=
      fun part inside => ih part inside (inner part inside)
    cases t with
    | union ms =>
      have unions : ∀ m ∈ ms, m.opensIntersection = false :=
        anyOpensIntersection_eq_false.mp (by simpa [comparesWithItself] using own)
      exact accepts_union_iff.mpr fun m inside =>
        accepts_of_mem_union inside (unions m inside) (each m inside)
    | intersection ms => exact accepts_intersection_self each
    | constArray => cases own
    | _ => exact (accepts_self_of_isLeaf rfl).mpr ⟨rfl, each⟩

end Ty

open Ty

theorem everyPart_columnBase {columnType base} (known : columnBase? columnType = some base) :
    base.everyPart comparesWithItself = true ∧
      base.addNull.everyPart comparesWithItself = true := by
  unfold columnBase? at known
  split at known <;> cases known <;> exact ⟨rfl, rfl⟩

theorem Field.everyPart_storedType {field : Field} {storage}
    (known : field.storedType? = some storage) : storage.everyPart comparesWithItself = true := by
  obtain ⟨base, found, rfl⟩ := Option.map_eq_some_iff.mp known
  obtain ⟨plain, nullable⟩ := everyPart_columnBase found
  split
  · exact nullable
  · exact plain

theorem Association.everyPart_storedType (association : Association) :
    association.storedType.everyPart comparesWithItself = true := by
  cases kind : association.cardinality with
  | toOne =>
    simp only [storedType, kind]
    split
    · rfl
    · rfl
  | toMany =>
    rw [association.storedType_toMany kind]
    rfl

theorem typeMismatches_self {table className name t} :
    typeMismatches table className name ⟨t, t⟩ t = [] ↔ t.accepts table t = .yes := by
  rw [typeMismatches]
  by_cases own : t.accepts table t = .yes
  · simp [own]
  · simp [own]

/-- Which types accept themselves. All do in which no array has its entries listed and no union has
    an intersection in it. Step by step: a single type accepts itself exactly if it is not an array
    with listed entries and its generic arguments, keys and values accept themselves; an intersection
    does if its members do; a union of types that do accepts itself exactly if it accepts, alone, one
    member of each intersection in it. A property declared with the type that is stored gets no
    complaint exactly if that type accepts itself, which every type of a column or of an association
    does. -/
theorem accepts_self_iff (table : ClassTable) :
    (∀ t : Ty, t.everyPart comparesWithItself = true → t.accepts table t = .yes) ∧
    (∀ t : Ty, t.isLeaf = true →
      (t.accepts table t = .yes ↔
        t.isConstArray = false ∧ ∀ part ∈ t.parts, part.accepts table part = .yes)) ∧
    (∀ ms : List Ty, (∀ m ∈ ms, m.accepts table m = .yes) →
      (intersection ms).accepts table (.intersection ms) = .yes ∧
      ((∀ m ∈ ms, m.isUnion = false) →
        ((union ms).accepts table (.union ms) = .yes ↔
          ∀ ns, .intersection ns ∈ ms → ∃ n ∈ ns, (union ms).accepts table n = .yes))) ∧
    ∀ className name : String,
      (∀ t : Ty, typeMismatches table className name ⟨t, t⟩ t = [] ↔ t.accepts table t = .yes) ∧
      (∀ (field : Field) (storage : Ty), field.storedType? = some storage →
        typeMismatches table className name ⟨storage, storage⟩ storage = []) ∧
      ∀ association : Association,
        typeMismatches table className name ⟨association.storedType, association.storedType⟩
          association.storedType = [] := by
  refine ⟨fun t plain => accepts_self_of_parts plain, fun t leaf => accepts_self_of_isLeaf leaf,
    fun ms each => ⟨accepts_intersection_self each, fun flat => accepts_union_self flat each⟩,
    fun className name => ⟨fun t => typeMismatches_self, ?_, ?_⟩⟩
  · intro field storage known
    exact typeMismatches_self.mpr (accepts_self_of_parts (field.everyPart_storedType known))
  · intro association
    exact typeMismatches_self.mpr (accepts_self_of_parts association.everyPart_storedType)

/-- An array with one listed entry refuses itself, so a property of exactly that type would be
    complained about twice. A nullable array given as an intersection may not hold what it is. -/
theorem accepts_self_refused :
    let listed := Ty.constArray [(.constString "id", .constInt 1)]
    let numbers := (meet [.iterable .mixed .int, .array .int .mixed]).addNull
    listed.accepts {} listed = .no ∧
      typeMismatches {} "App\\Order" "data" ⟨listed, listed⟩ listed =
        [.databaseWider "App\\Order" "data" listed listed,
          .propertyWider "App\\Order" "data" listed listed] ∧
      numbers.accepts {} numbers = .maybe :=
  ⟨rfl, rfl, rfl⟩

end EntityAudit
