import EntityAudit.Proofs.Ty.Lattice
import EntityAudit.Proofs.Ty.Meaning

/-! # Acceptance is transitive

Single types accept each other by their shape, which `Covers` lists. The argument runs on the middle
type, where keys and values are smaller. Generic arguments break the chain, since an object type
without them stands for any, and so does a tracked query builder.
-/

namespace EntityAudit.Ty

variable {table : ClassTable}
variable {value key : Ty}

mutual
/-- Whether no tracked query builder is part of a type. -/
def isUntracked : Ty → Bool
  | .builder _ => false
  | .iterable key value | .array key value => isUntracked key && isUntracked value
  | .constArray entries => areUntrackedEntries entries
  | .object _ args => areUntracked args
  | .union members | .intersection members => areUntracked members
  | _ => true

def areUntracked : List Ty → Bool
  | [] => true
  | t :: ts => isUntracked t && areUntracked ts

def areUntrackedEntries : List (Ty × Ty) → Bool
  | [] => true
  | (key, value) :: entries =>
    isUntracked key && isUntracked value && areUntrackedEntries entries
end

/-- A type without generic arguments, without tracked builders and without empty unions or
    intersections. -/
structure IsBasic (t : Ty) : Prop where
  plain : t.isPlain = true
  filled : t.isFilled = true
  untracked : t.isUntracked = true

theorem isBasic_mem {ts} (plain : arePlain ts = true) (filled : areFilled ts = true)
    (untracked : areUntracked ts = true) {t} (inside : t ∈ ts) : t.IsBasic := by
  induction ts with
  | nil => simp at inside
  | cons first ts ih =>
    simp only [arePlain, areFilled, areUntracked, Bool.and_eq_true] at plain filled untracked
    rcases List.mem_cons.mp inside with rfl | later
    · exact ⟨plain.1, filled.1, untracked.1⟩
    · exact ih plain.2 filled.2 untracked.2 later

theorem isBasic_mem_entries {entries} (plain : arePlainEntries entries = true)
    (filled : areFilledEntries entries = true) (untracked : areUntrackedEntries entries = true) {e}
    (inside : e ∈ entries) : e.1.IsBasic ∧ e.2.IsBasic := by
  induction entries with
  | nil => simp at inside
  | cons first entries ih =>
    simp only [arePlainEntries, areFilledEntries, areUntrackedEntries, Bool.and_eq_true]
      at plain filled untracked
    rcases List.mem_cons.mp inside with rfl | later
    · exact ⟨⟨plain.1.1, filled.1.1, untracked.1.1⟩, plain.1.2, filled.1.2, untracked.1.2⟩
    · exact ih plain.2 filled.2 untracked.2 later

theorem IsBasic.of_mem_union {ms} (basic : (union ms).IsBasic) {m} (inside : m ∈ ms) :
    m.IsBasic := by
  obtain ⟨plain, filled, untracked⟩ := basic
  simp only [isFilled, Bool.and_eq_true] at filled
  exact isBasic_mem plain filled.2 untracked inside

theorem IsBasic.of_mem_intersection {ms} (basic : (intersection ms).IsBasic) {m} (inside : m ∈ ms) :
    m.IsBasic := by
  obtain ⟨plain, filled, untracked⟩ := basic
  simp only [isFilled, Bool.and_eq_true] at filled
  exact isBasic_mem plain filled.2 untracked inside

theorem IsBasic.args_eq_nil {name args} (basic : (object name args).IsBasic) : args = [] :=
  List.isEmpty_iff.mp basic.plain

/-- The keys and values that iterating over a type may give. -/
inductive Offers (table : ClassTable) : Ty → List (Ty × Ty) → Prop
  | array (key value : Ty) : Offers table (.array key value) [(key, value)]
  | iterable (key value : Ty) : Offers table (.iterable key value) [(key, value)]
  | constArray (entries : List (Ty × Ty)) : Offers table (.constArray entries) entries
  | object {name} (traversed : table.Descends name ClassName.traversable) :
      Offers table (.object name []) [(.mixed, .mixed)]

def isArray : Ty → Bool
  | .array _ _ | .constArray _ => true
  | _ => false

/-- Keys and values accept all that is offered. -/
def AcceptsOffer (table : ClassTable) (key value : Ty) (offered : List (Ty × Ty)) : Prop :=
  ∀ e ∈ offered, key.accepts table e.1 = .yes ∧ value.accepts table e.2 = .yes

/-- The pairs of single types of which the first certainly accepts the second. -/
inductive Covers (table : ClassTable) : Ty → Ty → Prop
  | scalar {t} (scalar : t.isScalar = true) : Covers table t t
  | bool (value : Bool) : Covers table .bool (.constBool value)
  | int (value : Int64) : Covers table .int (.constInt value)
  | string (value : String) : Covers table .string (.constString value)
  | object {name own} (descends : table.Descends own name) :
      Covers table (.object name []) (.object own [])
  | iterable {key value t offered} (offers : Offers table t offered)
      (each : AcceptsOffer table key value offered) : Covers table (.iterable key value) t
  | array {key value t offered} (arrays : t.isArray = true) (offers : Offers table t offered)
      (each : AcceptsOffer table key value offered) : Covers table (.array key value) t

theorem ScalarCovers.covers {a b} (own : a.ScalarCovers b) : Covers table a b := by
  cases own with
  | same scalar => exact .scalar scalar
  | bool value => exact .bool value
  | int value => exact .int value
  | string value => exact .string value

theorem acceptsOffer_singleton {k v} :
    AcceptsOffer table key value [(k, v)] ↔
      (key.accepts table k).and (value.accepts table v) = .yes := by
  rw [AcceptsOffer, List.forall_mem_singleton, Verdict.and_eq_yes]

theorem acceptsOffer_entries {entries} :
    AcceptsOffer table key value entries ↔
      Verdict.all (entries.map (fun e => accepts table key e.1) ++
        entries.map (fun e => accepts table value e.2)) = .yes := by
  rw [AcceptsOffer, Verdict.all_eq_yes, List.forall_mem_append, List.forall_mem_map,
    List.forall_mem_map]
  constructor
  · exact fun each => ⟨fun e inside => (each e inside).1, fun e inside => (each e inside).2⟩
  · rintro ⟨keys, values⟩ e inside
    exact ⟨keys e inside, values e inside⟩

section

variable (declared : table.hasPlainParents = true)

include declared

theorem accepts_object_iff {name own} :
    (object name []).accepts table (.object own []) = .yes ↔ table.Descends own name := by
  change table.acceptsClass name (fun actual =>
    if [].isEmpty || actual.isEmpty then .yes else Verdict.all (acceptsArgs table [] actual))
      ⟨own, []⟩ = .yes ↔ _
  refine ⟨ClassTable.descends_of_acceptsClass declared, fun descends => ?_⟩
  have found : table.descends ⟨own, []⟩ name = true := ClassTable.descends_iff.mpr descends
  obtain ⟨seen, found⟩ := Option.isSome_iff_exists.mp found
  rw [ClassTable.acceptsClass, found]
  rfl

theorem accepts_iterable_object {key value own} :
    (iterable key value).accepts table (.object own []) = .yes ↔
      table.Descends own ClassName.traversable ∧
        AcceptsOffer table key value [(.mixed, .mixed)] := by
  change against _ (.object own []) = .yes ↔ _
  simp only [against, spread, unlessOpen]
  cases found : table.ancestor? ⟨own, []⟩ ClassName.traversable with
  | none =>
    have apart : ¬ table.Descends own ClassName.traversable := fun descends => by
      have seen : table.descends ⟨own, []⟩ ClassName.traversable = true :=
        ClassTable.descends_iff.mpr descends
      simp [ClassTable.descends, found] at seen
    simp only [apart, false_and, iff_false]
    split <;> decide
  | some seen =>
    obtain ⟨descends, raw⟩ := ClassTable.ancestor?_eq_some declared found
    simp only [raw, descends, true_and, acceptsOffer_singleton]
    rfl

theorem covers_of_accepts {a b} (basic : a.IsBasic) (other : b.IsBasic) (leaf : a.isLeaf = true)
    (apart : a.isWhole = false) (single : b.isLeaf = true) (accepted : a.accepts table b = .yes) :
    Covers table a b := by
  cases a with
  | mixed | template | intersection => cases apart
  | union => cases leaf
  | builder => cases basic.untracked
  | constArray => cases eq_yes_of_against single accepted
  | null | bool | int | float | string | constBool | constInt | constString =>
    exact (scalarCovers_of_accepts rfl single accepted).covers
  | object name args =>
    obtain rfl := basic.args_eq_nil
    cases b with
    | object own args =>
      obtain rfl := other.args_eq_nil
      exact .object ((accepts_object_iff declared).mp accepted)
    | iterable =>
      change (if table.descends ⟨name, []⟩ ClassName.traversable then Verdict.maybe else .no) =
        .yes at accepted
      split at accepted <;> cases accepted
    | builder => cases other.untracked
    | _ => cases eq_yes_of_against single accepted
  | iterable key value =>
    cases b with
    | array k v => exact .iterable (.array k v) (acceptsOffer_singleton.mpr accepted)
    | iterable k v => exact .iterable (.iterable k v) (acceptsOffer_singleton.mpr accepted)
    | constArray entries =>
      exact .iterable (.constArray entries) (acceptsOffer_entries.mpr accepted)
    | object own args =>
      obtain rfl := other.args_eq_nil
      obtain ⟨traversed, each⟩ := (accepts_iterable_object declared).mp accepted
      exact .iterable (.object traversed) each
    | _ => cases eq_yes_of_against single accepted
  | array key value =>
    cases b with
    | array k v => exact .array rfl (.array k v) (acceptsOffer_singleton.mpr accepted)
    | constArray entries =>
      exact .array rfl (.constArray entries) (acceptsOffer_entries.mpr accepted)
    | _ => cases eq_yes_of_against single accepted

theorem accepts_of_covers {a b} (covers : Covers table a b) : a.accepts table b = .yes := by
  cases covers with
  | scalar scalar => exact accepts_self_of_isScalar scalar
  | bool | int | string => rfl
  | object descends => exact (accepts_object_iff declared).mpr descends
  | iterable offers each =>
    cases offers with
    | array | iterable => exact acceptsOffer_singleton.mp each
    | constArray => exact acceptsOffer_entries.mp each
    | object traversed => exact (accepts_iterable_object declared).mpr ⟨traversed, each⟩
  | array arrays offers each =>
    cases offers with
    | array => exact acceptsOffer_singleton.mp each
    | constArray => exact acceptsOffer_entries.mp each
    | iterable | object => cases arrays

end

/-- Whatever accepts the type accepts what the type accepts. -/
def Mediates (table : ClassTable) (b : Ty) : Prop :=
  ∀ ⦃a c : Ty⦄, a.IsBasic → c.IsBasic → a.accepts table b = .yes → b.accepts table c = .yes →
    a.accepts table c = .yes

theorem AcceptsOffer.trans {k v} (keys : k.Mediates table) (values : v.Mediates table)
    (basic : key.IsBasic ∧ value.IsBasic) (outer : AcceptsOffer table key value [(k, v)]) {offered}
    (parts : ∀ e ∈ offered, e.1.IsBasic ∧ e.2.IsBasic) (inner : AcceptsOffer table k v offered) :
    AcceptsOffer table key value offered := by
  obtain ⟨keyYes, valueYes⟩ := List.forall_mem_singleton.mp outer
  intro e inside
  obtain ⟨first, second⟩ := inner e inside
  exact ⟨keys basic.1 (parts e inside).1 keyYes first,
    values basic.2 (parts e inside).2 valueYes second⟩

theorem IsBasic.of_iterable (basic : (iterable key value).IsBasic) :
    key.IsBasic ∧ value.IsBasic := by
  obtain ⟨plain, filled, untracked⟩ := basic
  simp only [isPlain, isFilled, isUntracked, Bool.and_eq_true] at plain filled untracked
  exact ⟨⟨plain.1, filled.1, untracked.1⟩, plain.2, filled.2, untracked.2⟩

theorem IsBasic.of_array (basic : (array key value).IsBasic) : key.IsBasic ∧ value.IsBasic :=
  of_iterable ⟨basic.plain, basic.filled, basic.untracked⟩

theorem IsBasic.of_offers {t} (basic : t.IsBasic) {offered} (offers : Offers table t offered) :
    ∀ e ∈ offered, e.1.IsBasic ∧ e.2.IsBasic := by
  cases offers with
  | array => exact List.forall_mem_singleton.mpr basic.of_array
  | iterable => exact List.forall_mem_singleton.mpr basic.of_iterable
  | constArray =>
    exact fun e inside => isBasic_mem_entries basic.plain basic.filled basic.untracked inside
  | object => exact List.forall_mem_singleton.mpr ⟨⟨rfl, rfl, rfl⟩, rfl, rfl, rfl⟩

/-- Two single types in a row; what the middle one offers is itself the middle of a chain. -/
theorem Covers.trans {a b c} (outer : Covers table a b) (inner : Covers table b c)
    (first : a.IsBasic) (last : c.IsBasic)
    (within : ∀ offered, Offers table b offered →
      ∀ e ∈ offered, e.1.Mediates table ∧ e.2.Mediates table) : Covers table a c := by
  cases outer with
  | scalar => exact inner
  | bool value =>
    cases inner with
    | scalar => exact .bool value
  | int value =>
    cases inner with
    | scalar => exact .int value
  | string value =>
    cases inner with
    | scalar => exact .string value
  | object descends =>
    cases inner with
    | object further => exact .object (further.trans descends)
    | scalar scalar => cases scalar
  | iterable offers each =>
    cases offers with
    | array k v =>
      obtain ⟨keys, values⟩ := List.forall_mem_singleton.mp (within _ (.array k v))
      cases inner with
      | array _ others inner =>
        exact .iterable others
          (each.trans keys values first.of_iterable (last.of_offers others) inner)
      | scalar scalar => cases scalar
    | iterable k v =>
      obtain ⟨keys, values⟩ := List.forall_mem_singleton.mp (within _ (.iterable k v))
      cases inner with
      | iterable others inner =>
        exact .iterable others
          (each.trans keys values first.of_iterable (last.of_offers others) inner)
      | scalar scalar => cases scalar
    | constArray =>
      cases inner with
      | scalar scalar => cases scalar
    | object traversed =>
      cases inner with
      | object descends => exact .iterable (.object (descends.trans traversed)) each
      | scalar scalar => cases scalar
  | array arrays offers each =>
    cases offers with
    | array k v =>
      obtain ⟨keys, values⟩ := List.forall_mem_singleton.mp (within _ (.array k v))
      cases inner with
      | array still others inner =>
        exact .array still others
          (each.trans keys values first.of_array (last.of_offers others) inner)
      | scalar scalar => cases scalar
    | constArray =>
      cases inner with
      | scalar scalar => cases scalar
    | iterable | object => cases arrays

theorem mediates_of_leaves {b} (apart : b.isWhole = false)
    (single : ∀ ⦃a c : Ty⦄, a.IsBasic → c.IsBasic → c.isLeaf = true → a.accepts table b = .yes →
      b.accepts table c = .yes → a.accepts table c = .yes) : b.Mediates table := by
  intro a c basic other outer inner
  rw [← spread_accepts apart] at inner
  apply accepts_of_spread
  exact spread_mono_of (P := IsBasic) (fun _ own _ => own.of_mem_union)
    (fun _ own _ => own.of_mem_intersection)
    (fun t leaf own yes => single basic own leaf outer yes) other inner

theorem mediates_open {b : Ty} (open_ : b.isWhole = true) (leaf : b.isLeaf = true) :
    b.Mediates table := by
  intro a c _ other outer _
  exact accepts_of_accepts_open open_ leaf outer other.filled

theorem mediates_union {ms} (each : ∀ m ∈ ms, m.Mediates table) : (union ms).Mediates table := by
  apply mediates_of_leaves rfl
  intro a c basic other leaf outer inner
  obtain ⟨m, inside, own⟩ := (accepts_union_eq_yes leaf).mp inner
  exact each m inside basic other (accepts_union_iff.mp outer m inside) own

theorem mediates_intersection {ms} (each : ∀ m ∈ ms, m.Mediates table) :
    (intersection ms).Mediates table := by
  intro a c basic other outer inner
  rw [accepts_intersection_eq_yes] at inner
  have through {a : Ty} (basic : a.IsBasic) (apart : a.isWhole = false)
      (outer : a.accepts table (.intersection ms) = .yes) : a.accepts table c = .yes := by
    rw [← spread_accepts apart, spread_intersection_eq_yes] at outer
    obtain ⟨m, inside, member⟩ := outer
    rw [spread_accepts apart] at member
    exact each m inside basic other member (inner m inside)
  induction a using members_induction with
  | leaf a leaf =>
    cases whole : a.isWhole with
    | true => exact accepts_of_isOpen whole leaf c
    | false => exact through basic whole outer
  | union us => exact through basic rfl outer
  | intersection us ih =>
    rw [accepts_intersection_eq_yes] at outer ⊢
    exact fun u among => ih u among (basic.of_mem_intersection among) (outer u among)

theorem mediates_leaf (declared : table.hasPlainParents = true) {b} (middle : b.IsBasic)
    (single : b.isLeaf = true) (apart : b.isWhole = false)
    (within : ∀ offered, Offers table b offered →
      ∀ e ∈ offered, e.1.Mediates table ∧ e.2.Mediates table) : b.Mediates table := by
  apply mediates_of_leaves apart
  intro a c basic other last outer inner
  have covered := covers_of_accepts declared middle other single apart last inner
  induction a using members_induction with
  | leaf a leaf =>
    cases whole : a.isWhole with
    | true => exact accepts_of_isOpen whole leaf c
    | false =>
      have covers := covers_of_accepts declared basic middle leaf whole single outer
      exact accepts_of_covers declared (covers.trans covered basic other within)
  | union us ih =>
    rw [accepts_union_eq_yes single] at outer
    obtain ⟨u, among, own⟩ := outer
    exact (accepts_union_eq_yes last).mpr
      ⟨u, among, ih u among (basic.of_mem_union among) own⟩
  | intersection us ih =>
    rw [accepts_intersection_eq_yes] at outer ⊢
    exact fun u among => ih u among (basic.of_mem_intersection among) (outer u among)

/-- Every basic type may stand in the middle. Keys and values of arrays and the members of unions
    and intersections are smaller; the offer of an object is `mixed`. -/
theorem mediates_of_isBasic (declared : table.hasPlainParents = true) (b : Ty)
    (basic : b.IsBasic) : b.Mediates table := by
  cases b with
  | mixed | template => exact mediates_open rfl rfl
  | union ms =>
    apply mediates_union
    intro m inside
    have smaller := List.sizeOf_lt_of_mem inside
    exact mediates_of_isBasic declared m (basic.of_mem_union inside)
  | intersection ms =>
    apply mediates_intersection
    intro m inside
    have smaller := List.sizeOf_lt_of_mem inside
    exact mediates_of_isBasic declared m (basic.of_mem_intersection inside)
  | array key value | iterable key value =>
    refine mediates_leaf declared basic rfl rfl fun offered offers => ?_
    have parts := basic.of_offers offers
    cases offers
    obtain ⟨first, second⟩ := List.forall_mem_singleton.mp parts
    exact List.forall_mem_singleton.mpr
      ⟨mediates_of_isBasic declared key first, mediates_of_isBasic declared value second⟩
  | constArray entries =>
    refine mediates_leaf declared basic rfl rfl fun offered offers e inside => ?_
    obtain ⟨first, second⟩ := basic.of_offers offers e inside
    cases offers
    have smaller := List.sizeOf_lt_of_mem inside
    exact ⟨mediates_of_isBasic declared e.1 first, mediates_of_isBasic declared e.2 second⟩
  | object name args =>
    refine mediates_leaf declared basic rfl rfl fun offered offers => ?_
    cases offers
    exact List.forall_mem_singleton.mpr ⟨mediates_open rfl rfl, mediates_open rfl rfl⟩
  | _ =>
    refine mediates_leaf declared basic rfl rfl fun offered offers => ?_
    cases offers
termination_by sizeOf b
decreasing_by
  all_goals grind [cases Prod]

/-- Acceptance is transitive on basic types, whatever cycles and unknown classes the hierarchy
    has. -/
theorem accepts_trans (table : ClassTable) (declared : table.hasPlainParents = true) (a b c : Ty)
    (first : a.IsBasic) (middle : b.IsBasic) (last : c.IsBasic)
    (outer : a.accepts table b = .yes) (inner : b.accepts table c = .yes) :
    a.accepts table c = .yes :=
  mediates_of_isBasic declared b middle first last outer inner

/-- A ring of two classes, one of which is traversable and has a parent that is not known. -/
theorem accepts_trans_ring :
    let table : ClassTable :=
      ⟨[("node", { name := "Node", parents := [.raw "Ghost", .raw "Ring"] }),
        ("ring", { name := "Ring", parents := [.raw "Node", .raw "Traversable"] })]⟩
    let a : Ty := .union [.null, .iterable .mixed .mixed]
    let b : Ty := .union [.array .int .string, .object "RING" []]
    let c : Ty := .intersection [.object "Other" [], .object "node" []]
    table.hasPlainParents = true ∧ a.IsBasic ∧ b.IsBasic ∧ c.IsBasic ∧
      a.accepts table b = .yes ∧ b.accepts table c = .yes ∧ a.accepts table c = .yes := by
  intro table a b c
  have declared : table.hasPlainParents = true := by decide
  have traversed : table.Descends "RING" ClassName.traversable := by
    have known : table.find? "RING" =
        some { name := "Ring", parents := [.raw "Node", .raw "Traversable"] } := rfl
    exact .parent known (List.mem_cons_of_mem _ List.mem_cons_self) (.same (by decide))
  have ring : table.Descends "node" "RING" := by
    have known : table.find? "node" =
        some { name := "Node", parents := [.raw "Ghost", .raw "Ring"] } := rfl
    exact .parent known (List.mem_cons_of_mem _ List.mem_cons_self) (.same (by decide))
  have outer : a.accepts table b = .yes := by
    refine accepts_union_iff.mpr (List.forall_mem_cons.mpr ⟨rfl, List.forall_mem_singleton.mpr ?_⟩)
    refine (accepts_union_eq_yes rfl).mpr ⟨_, List.mem_cons_of_mem _ List.mem_cons_self, ?_⟩
    exact (accepts_iterable_object declared).mpr ⟨traversed, acceptsOffer_singleton.mpr rfl⟩
  have inner : b.accepts table c = .yes := by
    apply accepts_of_spread
    refine spread_intersection_eq_yes.mpr ⟨_, List.mem_cons_of_mem _ List.mem_cons_self, ?_⟩
    refine (accepts_union_eq_yes rfl).mpr ⟨_, List.mem_cons_of_mem _ List.mem_cons_self, ?_⟩
    exact (accepts_object_iff declared).mpr ring
  have first : a.IsBasic := ⟨rfl, rfl, rfl⟩
  have middle : b.IsBasic := ⟨rfl, rfl, rfl⟩
  have last : c.IsBasic := ⟨rfl, rfl, rfl⟩
  exact ⟨declared, first, middle, last, outer, inner,
    accepts_trans table declared a b c first middle last outer inner⟩

end EntityAudit.Ty
