import EntityAudit.Proofs.Ty.Members
import EntityAudit.Proofs.Ty.Union
import EntityAudit.Ty.Substitute

/-! # Types in normal form

A type is normal when each union in it is in merged form, and factored when each intersection is;
the types recorded in a tracked query builder are not parts of it. `unite`, `meet` and binding lead
from such types to such types, and the types that are both are those that can be built by `unite`
and `meet`.
-/

namespace EntityAudit.Ty

variable {t : Ty} {ts ms : List Ty}

mutual
/-- Whether `ok` holds of a type and of all its parts. -/
def everyPart (ok : Ty → Bool) : Ty → Bool
  | .object name args => ok (.object name args) && everyPartOf ok args
  | .iterable key value => ok (.iterable key value) && everyPart ok key && everyPart ok value
  | .array key value => ok (.array key value) && everyPart ok key && everyPart ok value
  | .constArray entries => ok (.constArray entries) && everyPartOfEntries ok entries
  | .union ms => ok (.union ms) && everyPartOf ok ms
  | .intersection ms => ok (.intersection ms) && everyPartOf ok ms
  | t => ok t

def everyPartOf (ok : Ty → Bool) : List Ty → Bool
  | [] => true
  | t :: ts => everyPart ok t && everyPartOf ok ts

def everyPartOfEntries (ok : Ty → Bool) : List (Ty × Ty) → Bool
  | [] => true
  | (key, value) :: entries =>
    everyPart ok key && everyPart ok value && everyPartOfEntries ok entries
end

section EveryPart

variable {ok : Ty → Bool}

theorem everyPartOf_iff : everyPartOf ok ts = true ↔ ∀ t ∈ ts, t.everyPart ok = true := by
  induction ts with
  | nil => simp [everyPartOf]
  | cons t ts ih => simp [everyPartOf, ih]

theorem everyPartOfEntries_iff {entries} :
    everyPartOfEntries ok entries = true ↔
      ∀ part ∈ (constArray entries).parts, part.everyPart ok = true := by
  induction entries with
  | nil => simp [everyPartOfEntries, parts]
  | cons entry entries ih =>
    obtain ⟨key, value⟩ := entry
    simp only [parts] at ih
    simp only [everyPartOfEntries, Bool.and_eq_true, ih, parts, List.flatMap_cons,
      List.forall_mem_append, List.forall_mem_cons, List.not_mem_nil, false_implies,
      implies_true, and_true]

theorem everyPart_iff :
    t.everyPart ok = true ↔ ok t = true ∧ ∀ part ∈ t.parts, part.everyPart ok = true := by
  cases t with
  | object name args => simp [everyPart, everyPartOf_iff, parts]
  | iterable key value => simp [everyPart, parts, and_assoc]
  | array key value => simp [everyPart, parts, and_assoc]
  | constArray entries => simp [everyPart, everyPartOfEntries_iff]
  | union ms => simp [everyPart, everyPartOf_iff, parts]
  | intersection ms => simp [everyPart, everyPartOf_iff, parts]
  | _ => simp [everyPart, parts]

theorem everyPart_members {m} (all : t.everyPart ok = true) (inside : m ∈ t.members) :
    m.everyPart ok = true := by
  cases t with
  | union ms => exact (everyPart_iff.mp all).2 m inside
  | _ => exact List.mem_singleton.mp inside ▸ all

theorem everyPart_factors {m} (all : t.everyPart ok = true) (inside : m ∈ t.factors) :
    m.everyPart ok = true := by
  cases t with
  | intersection ms => exact (everyPart_iff.mp all).2 m inside
  | mixed => cases inside
  | _ => exact List.mem_singleton.mp inside ▸ all

theorem everyPart_pack {combine} (made : ∀ ts, (combine ts).parts = ts) (mixed : ok .mixed = true)
    (own : 2 ≤ ts.length → ok (combine ts) = true) (all : ∀ t ∈ ts, t.everyPart ok = true) :
    (pack combine ts).everyPart ok = true := by
  cases ts with
  | nil => exact mixed
  | cons t rest =>
    cases rest with
    | nil => exact all t (by simp)
    | cons u us =>
      apply everyPart_iff.mpr
      refine ⟨own (by simp), ?_⟩
      change ∀ part ∈ (combine (t :: u :: us)).parts, _
      rw [made]
      exact all

end EveryPart

/-- What the members of a union in normal form are like. -/
structure NormalMembers (ms : List Ty) : Prop where
  several : 2 ≤ ms.length
  single : ∀ m ∈ ms, m.isUnion = false
  known : .mixed ∉ ms
  distinct : ms.Nodup
  nullLast : .null ∉ ms.dropLast

instance (ms : List Ty) : Decidable (NormalMembers ms) :=
  decidable_of_iff
    (2 ≤ ms.length ∧ (∀ m ∈ ms, m.isUnion = false) ∧ .mixed ∉ ms ∧ ms.Nodup ∧ .null ∉ ms.dropLast)
    ⟨fun all => ⟨all.1, all.2.1, all.2.2.1, all.2.2.2.1, all.2.2.2.2⟩,
      fun normal => ⟨normal.several, normal.single, normal.known, normal.distinct, normal.nullLast⟩⟩

def hasNormalMembers : Ty → Bool
  | .union ms => decide (NormalMembers ms)
  | _ => true

/-- Whether every union in a type has at least two members, all different, none of them a union or
    `mixed`, and null at most as the last one. -/
def isNormal (t : Ty) : Bool :=
  t.everyPart hasNormalMembers

theorem isNormal_union :
    (union ms).isNormal = true ↔ NormalMembers ms ∧ ∀ m ∈ ms, m.isNormal = true := by
  rw [isNormal, everyPart_iff]
  simp [hasNormalMembers, parts, isNormal]

theorem nodup_joined (flat : List Ty) : (joined flat).Nodup := by
  have others := Distinct.nodup_eraseDups (flat.filter (· != .null))
  rw [joined]
  split
  · refine List.nodup_append.mpr ⟨others, by simp, ?_⟩
    rintro t inside _ last rfl
    rw [List.mem_singleton.mp last, List.mem_eraseDups] at inside
    simp at inside
  · exact others

theorem null_not_mem_dropLast_joined (flat : List Ty) : .null ∉ (joined flat).dropLast := by
  by_cases null : Ty.null ∈ flat
  · simp [joined, null, List.mem_eraseDups]
  · intro inside
    exact null (mem_joined.mp ((List.dropLast_sublist _).subset inside))

theorem normalMembers_joined {flat} (single : ∀ m ∈ flat, m.isUnion = false) (known : .mixed ∉ flat)
    (several : 2 ≤ (joined flat).length) :
    NormalMembers (joined flat) where
  several := several
  single m inside := single m (mem_joined.mp inside)
  known inside := known (mem_joined.mp inside)
  distinct := nodup_joined flat
  nullLast := null_not_mem_dropLast_joined flat

theorem joined_of_normal (normal : NormalMembers ms) : joined ms = ms := by
  have others {ts : List Ty} (distinct : ts.Nodup) (absent : Ty.null ∉ ts) :
      (ts.filter (· != .null)).eraseDups = ts := by
    have all : ts.filter (· != .null) = ts := by
      apply List.filter_eq_self.mpr
      intro t inside
      have other : t ≠ .null := by
        rintro rfl
        exact absent inside
      simpa using other
    rw [all, Distinct.eraseDups_of_nodup distinct]
  have distinct := normal.distinct
  have nullLast := normal.nullLast
  by_cases null : Ty.null ∈ ms
  · rcases List.eq_nil_or_concat ms with rfl | ⟨init, last, rfl⟩
    · cases null
    · rw [List.concat_eq_append] at null distinct nullLast ⊢
      rw [List.dropLast_concat] at nullLast
      obtain rfl : .null = last := by simpa [nullLast] using null
      rw [joined, List.filter_append]
      simp [others (List.nodup_append.mp distinct).1 nullLast]
  · simp [joined, null, others distinct null]

theorem unite_of_normal (normal : NormalMembers ms) : unite ms = .union ms := by
  rw [unite_eq, flatMap_members normal.single, if_neg (by simpa using normal.known),
    joined_of_normal normal]
  have several := normal.several
  cases ms with
  | nil => contradiction
  | cons m rest =>
    cases rest with
    | nil => contradiction
    | cons n more => rfl

theorem hasNormalMembers_of_isNormal (normal : t.isNormal = true) : t.hasNormalMembers = true :=
  (everyPart_iff.mp normal).1

theorem isUnion_of_mem_members {m} (normal : t.hasNormalMembers = true) (inside : m ∈ t.members) :
    m.isUnion = false := by
  cases t with
  | union ms => exact (of_decide_eq_true normal).single m inside
  | _ =>
    rw [List.mem_singleton.mp inside]
    rfl

theorem isUnion_of_mem_flatMap (normal : ∀ t ∈ ts, t.hasNormalMembers = true) :
    ∀ m ∈ ts.flatMap members, m.isUnion = false := by
  intro m inside
  obtain ⟨t, among, here⟩ := List.mem_flatMap.mp inside
  exact isUnion_of_mem_members (normal t among) here

section

variable (normal : ∀ t ∈ ts, t.isNormal = true)

include normal

theorem isNormal_unite : (unite ts).isNormal = true := by
  rw [unite_eq]
  split
  · rfl
  · rename_i known
    rw [List.contains_iff_mem] at known
    apply everyPart_pack (fun _ => rfl) rfl
    · intro several
      have single := isUnion_of_mem_flatMap fun t among =>
        hasNormalMembers_of_isNormal (normal t among)
      exact decide_eq_true (normalMembers_joined single known several)
    · intro m inside
      obtain ⟨t, among, here⟩ := List.mem_flatMap.mp (mem_joined.mp inside)
      exact everyPart_members (normal t among) here

theorem isNormal_meet : (meet ts).isNormal = true := by
  apply everyPart_pack (fun _ => rfl) rfl fun _ => rfl
  intro m inside
  obtain ⟨t, among, here⟩ := List.mem_flatMap.mp (List.mem_eraseDups.mp inside)
  exact everyPart_factors (normal t among) here

end

def isIntersection : Ty → Bool
  | .intersection _ => true
  | _ => false

/-- What the members of an intersection in merged form are like. -/
structure FactoredMembers (ms : List Ty) : Prop where
  several : 2 ≤ ms.length
  single : ∀ m ∈ ms, m.isIntersection = false
  known : .mixed ∉ ms
  distinct : ms.Nodup

instance (ms : List Ty) : Decidable (FactoredMembers ms) :=
  decidable_of_iff
    (2 ≤ ms.length ∧ (∀ m ∈ ms, m.isIntersection = false) ∧ .mixed ∉ ms ∧ ms.Nodup)
    ⟨fun all => ⟨all.1, all.2.1, all.2.2.1, all.2.2.2⟩,
      fun factored => ⟨factored.several, factored.single, factored.known, factored.distinct⟩⟩

def hasFactoredMembers : Ty → Bool
  | .intersection ms => decide (FactoredMembers ms)
  | _ => true

/-- Whether every intersection in a type has at least two members, all different, none of them an
    intersection or `mixed`. -/
def isFactored (t : Ty) : Bool :=
  t.everyPart hasFactoredMembers

theorem isFactored_intersection :
    (intersection ms).isFactored = true ↔ FactoredMembers ms ∧ ∀ m ∈ ms, m.isFactored = true := by
  rw [isFactored, everyPart_iff]
  simp [hasFactoredMembers, parts, isFactored]

theorem flatMap_factors (simple : ∀ t ∈ ts, t.isIntersection = false ∧ t ≠ .mixed) :
    ts.flatMap factors = ts := by
  have alone : ∀ t ∈ ts, t.factors = [t] := by
    intro t inside
    obtain ⟨single, known⟩ := simple t inside
    cases t with
    | intersection => cases single
    | mixed => contradiction
    | _ => rfl
  rw [List.flatMap_def, List.map_congr_left alone, ← List.flatMap_def, List.flatMap_singleton']

theorem mem_factors_of_isFactored {m} (factored : t.isFactored = true) (inside : m ∈ t.factors) :
    m.isIntersection = false ∧ m ≠ .mixed := by
  cases t with
  | intersection ms =>
    have members := (isFactored_intersection.mp factored).1
    refine ⟨members.single m inside, ?_⟩
    rintro rfl
    exact members.known inside
  | mixed => cases inside
  | _ =>
    rw [List.mem_singleton.mp inside]
    exact ⟨rfl, Ty.noConfusion⟩

theorem isFactored_unite (factored : ∀ t ∈ ts, t.isFactored = true) :
    (unite ts).isFactored = true := by
  rw [unite_eq]
  split
  · rfl
  · apply everyPart_pack (fun _ => rfl) rfl fun _ => rfl
    intro m inside
    obtain ⟨t, among, here⟩ := List.mem_flatMap.mp (mem_joined.mp inside)
    exact everyPart_members (factored t among) here

theorem isFactored_meet (factored : ∀ t ∈ ts, t.isFactored = true) :
    (meet ts).isFactored = true := by
  have simple : ∀ m ∈ (ts.flatMap factors).eraseDups,
      m.isFactored = true ∧ m.isIntersection = false ∧ m ≠ .mixed := by
    intro m inside
    obtain ⟨t, among, here⟩ := List.mem_flatMap.mp (List.mem_eraseDups.mp inside)
    exact ⟨everyPart_factors (factored t among) here,
      mem_factors_of_isFactored (factored t among) here⟩
  apply everyPart_pack (fun _ => rfl) rfl
  · intro several
    apply decide_eq_true
    refine ⟨several, fun m inside => (simple m inside).2.1, ?_, Distinct.nodup_eraseDups _⟩
    intro inside
    exact (simple .mixed inside).2.2 rfl
  · intro m inside
    exact (simple m inside).1

theorem FactoredMembers.flatMap (factored : FactoredMembers ms) : ms.flatMap factors = ms := by
  apply flatMap_factors
  intro m inside
  refine ⟨factored.single m inside, ?_⟩
  rintro rfl
  exact factored.known inside

theorem meet_of_factored (factored : FactoredMembers ms) : meet ms = .intersection ms := by
  rw [meet, factored.flatMap, Distinct.eraseDups_of_nodup factored.distinct]
  have several := factored.several
  cases ms with
  | nil => contradiction
  | cons m rest =>
    cases rest with
    | nil => contradiction
    | cons n more => rfl

/-- A property of types that merging does not lose and that only unions and intersections may
    lack. -/
structure KeptByMerging (ok : Ty → Bool) : Prop where
  plain : ∀ t : Ty, t.isUnion = false → t.isIntersection = false → ok t = true
  unite : ∀ ts : List Ty, (∀ t ∈ ts, t.everyPart ok = true) → (unite ts).everyPart ok = true
  meet : ∀ ts : List Ty, (∀ t ∈ ts, t.everyPart ok = true) → (meet ts).everyPart ok = true

theorem keptByMerging_normal : KeptByMerging hasNormalMembers where
  plain t single _ := by
    cases t with
    | union ms => cases single
    | _ => rfl
  unite _ := isNormal_unite
  meet _ := isNormal_meet

theorem keptByMerging_factored : KeptByMerging hasFactoredMembers where
  plain t _ single := by
    cases t with
    | intersection ms => cases single
    | _ => rfl
  unite _ := isFactored_unite
  meet _ := isFactored_meet

theorem KeptByMerging.substitute {ok} (kept : KeptByMerging ok) {binding}
    (bound : ∀ entry ∈ binding, entry.2.everyPart ok = true) (all : t.everyPart ok = true) :
    (t.substitute binding).everyPart ok = true := by
  induction t using parts_induction with
  | step t ih =>
    have inner := (everyPart_iff.mp all).2
    have each (ts : List Ty) (within : ts ⊆ t.parts) :
        ∀ u ∈ ts.map (Ty.substitute binding), u.everyPart ok = true := by
      intro u inside
      obtain ⟨part, among, rfl⟩ := List.mem_map.mp inside
      exact ih part (within among) (inner part (within among))
    cases t with
    | object name args =>
      rw [Ty.substitute, substituteAll_eq_map]
      exact everyPart_iff.mpr ⟨kept.plain _ rfl rfl, each args (List.Subset.refl _)⟩
    | iterable key value =>
      exact everyPart_iff.mpr ⟨kept.plain _ rfl rfl, each [key, value] (List.Subset.refl _)⟩
    | array key value =>
      exact everyPart_iff.mpr ⟨kept.plain _ rfl rfl, each [key, value] (List.Subset.refl _)⟩
    | union ms =>
      rw [Ty.substitute, substituteAll_eq_map]
      exact kept.unite _ (each ms (List.Subset.refl _))
    | intersection ms =>
      rw [Ty.substitute, substituteAll_eq_map]
      exact kept.meet _ (each ms (List.Subset.refl _))
    | template name =>
      rw [Ty.substitute]
      cases found : binding.get? name with
      | none => exact kept.plain _ rfl rfl
      | some t => exact bound _ (Dict.mem_of_get? found)
    | _ => exact all

theorem isNormal_substitute {binding} (bound : ∀ entry ∈ binding, entry.2.isNormal = true)
    (normal : t.isNormal = true) : (t.substitute binding).isNormal = true :=
  keptByMerging_normal.substitute bound normal

/-- The types that are built without writing down a union or an intersection other than by `unite`
    and `meet`. -/
inductive IsBuilt : Ty → Prop
  | mixed : IsBuilt .mixed
  | null : IsBuilt .null
  | bool : IsBuilt .bool
  | int : IsBuilt .int
  | float : IsBuilt .float
  | string : IsBuilt .string
  | constBool (value : Bool) : IsBuilt (.constBool value)
  | constInt (value : Int64) : IsBuilt (.constInt value)
  | constString (value : String) : IsBuilt (.constString value)
  | template (name : String) : IsBuilt (.template name)
  | builder (calls : List (BuilderCall Ty)) : IsBuilt (.builder calls)
  | object (name : String) {args} (each : ∀ t ∈ args, IsBuilt t) : IsBuilt (.object name args)
  | iterable {key value} (first : IsBuilt key) (second : IsBuilt value) :
      IsBuilt (.iterable key value)
  | array {key value} (first : IsBuilt key) (second : IsBuilt value) : IsBuilt (.array key value)
  | constArray {entries} (keys : ∀ entry ∈ entries, IsBuilt entry.1)
      (values : ∀ entry ∈ entries, IsBuilt entry.2) : IsBuilt (.constArray entries)
  | unite {ts : List Ty} (each : ∀ t ∈ ts, IsBuilt t) : IsBuilt (Ty.unite ts)
  | meet {ts : List Ty} (each : ∀ t ∈ ts, IsBuilt t) : IsBuilt (Ty.meet ts)

theorem IsBuilt.everyPart {ok} (kept : KeptByMerging ok) (built : t.IsBuilt) :
    t.everyPart ok = true := by
  induction built with
  | object name each ih => exact everyPart_iff.mpr ⟨kept.plain _ rfl rfl, ih⟩
  | iterable _ _ key value =>
    exact everyPart_iff.mpr ⟨kept.plain _ rfl rfl, by simp [parts, key, value]⟩
  | array _ _ key value =>
    exact everyPart_iff.mpr ⟨kept.plain _ rfl rfl, by simp [parts, key, value]⟩
  | @constArray entries _ _ keys values =>
    refine everyPart_iff.mpr ⟨kept.plain _ rfl rfl, ?_⟩
    intro part inside
    obtain ⟨entry, among, here⟩ := List.mem_flatMap.mp inside
    simp only [List.mem_cons, List.not_mem_nil, or_false] at here
    rcases here with rfl | rfl
    · exact keys entry among
    · exact values entry among
  | unite each ih => exact kept.unite _ ih
  | meet each ih => exact kept.meet _ ih
  | _ => exact kept.plain _ rfl rfl

theorem isBuilt_iff : t.IsBuilt ↔ t.isNormal = true ∧ t.isFactored = true := by
  constructor
  · intro built
    exact ⟨built.everyPart keptByMerging_normal, built.everyPart keptByMerging_factored⟩
  · rintro ⟨normal, factored⟩
    induction t using parts_induction with
    | step t ih =>
      have each : ∀ part ∈ t.parts, part.IsBuilt := fun part inside =>
        ih part inside ((everyPart_iff.mp normal).2 part inside)
          ((everyPart_iff.mp factored).2 part inside)
      cases t with
      | object name args => exact .object name each
      | iterable key value =>
        exact .iterable (each key (by simp [parts])) (each value (by simp [parts]))
      | array key value =>
        exact .array (each key (by simp [parts])) (each value (by simp [parts]))
      | constArray entries =>
        exact .constArray
          (fun entry among => each _ (List.mem_flatMap.mpr ⟨entry, among, by simp⟩))
          (fun entry among => each _ (List.mem_flatMap.mpr ⟨entry, among, by simp⟩))
      | union ms =>
        rw [← unite_of_normal (isNormal_union.mp normal).1]
        exact .unite each
      | intersection ms =>
        rw [← meet_of_factored (isFactored_intersection.mp factored).1]
        exact .meet each
      | mixed => exact .mixed
      | null => exact .null
      | bool => exact .bool
      | int => exact .int
      | float => exact .float
      | string => exact .string
      | constBool value => exact .constBool value
      | constInt value => exact .constInt value
      | constString value => exact .constString value
      | template name => exact .template name
      | builder calls => exact .builder calls

theorem IsBuilt.of_mem_parts {part} (built : t.IsBuilt) (inside : part ∈ t.parts) :
    part.IsBuilt := by
  obtain ⟨normal, factored⟩ := isBuilt_iff.mp built
  exact isBuilt_iff.mpr
    ⟨(everyPart_iff.mp normal).2 part inside, (everyPart_iff.mp factored).2 part inside⟩

instance (t : Ty) : Decidable t.IsBuilt :=
  decidable_of_iff _ isBuilt_iff.symm

end EntityAudit.Ty
