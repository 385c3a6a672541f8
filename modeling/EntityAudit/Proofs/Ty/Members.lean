import EntityAudit.Ty.Accepts

/-! # Acceptance, member by member

A type on the right is taken apart into its members: all members of a union count, and the best one
of an intersection. A union on the left asks whether one of its members accepts, an intersection
whether all of them do.
-/

namespace EntityAudit

namespace Verdict

variable {vs : List Verdict}

theorem and_eq_yes {a b : Verdict} : a.and b = .yes ↔ a = .yes ∧ b = .yes := by
  cases a <;> cases b <;> decide

theorem or_eq_yes {a b : Verdict} : a.or b = .yes ↔ a = .yes ∨ b = .yes := by
  cases a <;> cases b <;> decide

theorem all_eq_yes : all vs = .yes ↔ ∀ v ∈ vs, v = .yes := by
  have fold : ∀ start, vs.foldl and start = .yes ↔ start = .yes ∧ ∀ v ∈ vs, v = .yes := by
    induction vs with
    | nil => simp
    | cons v vs ih => simp [ih, and_eq_yes, and_assoc]
  simp [all, fold]

theorem any_eq_yes : any vs = .yes ↔ .yes ∈ vs := by
  have fold : ∀ start, vs.foldl or start = .yes ↔ start = .yes ∨ .yes ∈ vs := by
    induction vs with
    | nil => simp
    | cons v vs ih =>
      intro start
      rw [List.foldl_cons, ih, or_eq_yes, or_assoc, List.mem_cons, @eq_comm _ .yes v]
  simp [any, fold]

theorem ofBool_eq_yes {b} : ofBool b = .yes ↔ b = true := by
  cases b <;> decide

theorem agree_eq_yes : agree vs = .yes ↔ ∀ v ∈ vs, v = .yes := by
  cases vs with
  | nil => simp [agree]
  | cons first rest =>
    rw [agree, List.forall_mem_cons]
    split
    · rename_i same
      simp only [List.all_eq_true, beq_iff_eq] at same
      exact ⟨fun own => ⟨own, fun v inside => (same v inside).trans own⟩, And.left⟩
    · rename_i apart
      refine ⟨fun no => (by cases no), fun every => absurd ?_ apart⟩
      simp only [List.all_eq_true, beq_iff_eq]
      exact fun v inside => (every.2 v inside).trans every.1.symm

end Verdict

namespace Ty

variable {a b : Ty} {ms : List Ty}

/-- The types that a type is directly made of. -/
def parts : Ty → List Ty
  | .object _ args => args
  | .iterable key value | .array key value => [key, value]
  | .constArray entries => entries.flatMap fun entry => [entry.1, entry.2]
  | .union ms | .intersection ms => ms
  | _ => []

theorem sizeOf_part {t part : Ty} (inside : part ∈ t.parts) : sizeOf part < sizeOf t := by
  cases t with
  | object name args =>
    have smaller : sizeOf part < sizeOf args := List.sizeOf_lt_of_mem inside
    simp only [object.sizeOf_spec]
    omega
  | union ms =>
    have smaller : sizeOf part < sizeOf ms := List.sizeOf_lt_of_mem inside
    simp only [union.sizeOf_spec]
    omega
  | intersection ms =>
    have smaller : sizeOf part < sizeOf ms := List.sizeOf_lt_of_mem inside
    simp only [intersection.sizeOf_spec]
    omega
  | iterable key value =>
    simp only [parts, List.mem_cons, List.not_mem_nil, or_false] at inside
    simp only [iterable.sizeOf_spec]
    rcases inside with rfl | rfl <;> omega
  | array key value =>
    simp only [parts, List.mem_cons, List.not_mem_nil, or_false] at inside
    simp only [array.sizeOf_spec]
    rcases inside with rfl | rfl <;> omega
  | constArray entries =>
    obtain ⟨entry, among, here⟩ := List.mem_flatMap.mp inside
    have smaller := List.sizeOf_lt_of_mem among
    obtain ⟨key, value⟩ := entry
    simp only [List.mem_cons, List.not_mem_nil, or_false] at here
    simp only [Prod.mk.sizeOf_spec] at smaller
    simp only [constArray.sizeOf_spec]
    rcases here with rfl | rfl <;> omega
  | _ => cases inside

theorem parts_induction {motive : Ty → Prop}
    (step : ∀ t, (∀ part ∈ t.parts, motive part) → motive t) (t : Ty) : motive t :=
  step t fun part _ => parts_induction step part
termination_by sizeOf t
decreasing_by exact sizeOf_part ‹_›

/-- Whether a type is compared as it is, not member by member. -/
def isLeaf : Ty → Bool
  | .union _ | .intersection _ => false
  | _ => true

theorem members_induction {motive : Ty → Prop} (leaf : ∀ t, t.isLeaf = true → motive t)
    (union : ∀ ms, (∀ m ∈ ms, motive m) → motive (.union ms))
    (intersection : ∀ ms, (∀ m ∈ ms, motive m) → motive (.intersection ms)) (t : Ty) :
    motive t := by
  induction t using parts_induction with
  | step t ih =>
    cases t with
    | union ms => exact union ms ih
    | intersection ms => exact intersection ms ih
    | _ => exact leaf _ rfl

section Spread

variable {f g : Ty → Verdict}

theorem spread_of_isLeaf {t} (leaf : t.isLeaf = true) : spread f t = f t := by
  cases t with
  | union | intersection => cases leaf
  | _ => rfl

theorem spreadAll_eq_map (f : Ty → Verdict) (ts : List Ty) :
    spreadAll f ts = ts.map (spread f) := by
  induction ts with
  | nil => rfl
  | cons t ts ih => rw [spreadAll, ih, List.map_cons]

theorem spread_union_eq_yes : spread f (.union ms) = .yes ↔ ∀ m ∈ ms, spread f m = .yes := by
  rw [spread, Verdict.agree_eq_yes, spreadAll_eq_map, List.forall_mem_map]

theorem spread_intersection_eq_yes :
    spread f (.intersection ms) = .yes ↔ ∃ m ∈ ms, spread f m = .yes := by
  rw [spread, Verdict.any_eq_yes, spreadAll_eq_map, List.mem_map]

theorem spread_mono_of {P : Ty → Prop} (unions : ∀ ms, P (.union ms) → ∀ m ∈ ms, P m)
    (intersections : ∀ ms, P (.intersection ms) → ∀ m ∈ ms, P m)
    (le : ∀ t, t.isLeaf = true → P t → f t = .yes → g t = .yes) {t} (own : P t)
    (accepted : spread f t = .yes) : spread g t = .yes := by
  induction t using members_induction with
  | leaf t leaf =>
    rw [spread_of_isLeaf leaf] at accepted ⊢
    exact le t leaf own accepted
  | union ms ih =>
    rw [spread_union_eq_yes] at accepted ⊢
    exact fun m inside => ih m inside (unions ms own m inside) (accepted m inside)
  | intersection ms ih =>
    rw [spread_intersection_eq_yes] at accepted ⊢
    obtain ⟨m, inside, member⟩ := accepted
    exact ⟨m, inside, ih m inside (intersections ms own m inside) member⟩

theorem spread_mono (le : ∀ t, t.isLeaf = true → f t = .yes → g t = .yes) {t : Ty}
    (accepted : spread f t = .yes) : spread g t = .yes :=
  spread_mono_of (P := fun _ => True) (fun _ _ _ _ => trivial) (fun _ _ _ _ => trivial)
    (fun t leaf _ => le t leaf) trivial accepted

theorem spread_spread (t : Ty) : spread (spread f) t = spread f t := by
  induction t using members_induction with
  | leaf t leaf => exact spread_of_isLeaf leaf
  | union ms ih => rw [spread, spread, spreadAll_eq_map, spreadAll_eq_map, List.map_congr_left ih]
  | intersection ms ih =>
    rw [spread, spread, spreadAll_eq_map, spreadAll_eq_map, List.map_congr_left ih]

end Spread

variable {table : ClassTable}

/-- Whether the type looks at the right side as a whole, even where that is an intersection. -/
def isWhole : Ty → Bool
  | .mixed | .template _ | .intersection _ => true
  | _ => false

theorem accepts_eq_spread (table : ClassTable) (apart : a.isWhole = false) :
    ∃ f, ∀ b, a.accepts table b = spread f b := by
  cases a with
  | mixed | template | intersection => cases apart
  | _ => exact ⟨_, fun _ => rfl⟩

theorem spread_accepts (apart : a.isWhole = false) (b : Ty) :
    spread (a.accepts table) b = a.accepts table b := by
  obtain ⟨f, same⟩ := accepts_eq_spread table apart
  rw [funext same, spread_spread]

theorem acceptsEach_eq_map (ms : List Ty) (t : Ty) :
    acceptsEach table ms t = ms.map (accepts table · t) := by
  induction ms with
  | nil => rfl
  | cons m ms ih => exact congrArg (accepts table m t :: ·) ih

theorem accepts_intersection_eq_yes :
    accepts table (.intersection ms) b = .yes ↔ ∀ m ∈ ms, accepts table m b = .yes := by
  change Verdict.all (acceptsEach table ms b) = .yes ↔ _
  rw [Verdict.all_eq_yes, acceptsEach_eq_map, List.forall_mem_map]

theorem accepts_union_eq_yes (leaf : b.isLeaf = true) :
    accepts table (.union ms) b = .yes ↔ ∃ m ∈ ms, accepts table m b = .yes := by
  change spread (fun t => Verdict.any (acceptsEach table ms t)) b = .yes ↔ _
  rw [spread_of_isLeaf leaf, Verdict.any_eq_yes, acceptsEach_eq_map, List.mem_map]

theorem accepts_of_isOpen (whole : a.isWhole = true) (leaf : a.isLeaf = true) (b : Ty) :
    a.accepts table b = .yes := by
  cases a with
  | mixed | template => rfl
  | intersection => cases leaf
  | _ => cases whole

theorem accepts_of_spread (accepted : spread (a.accepts table) b = .yes) :
    a.accepts table b = .yes := by
  induction a using members_induction with
  | leaf a leaf =>
    cases whole : a.isWhole with
    | true => exact accepts_of_isOpen whole leaf b
    | false => rwa [spread_accepts whole] at accepted
  | union ms ih => rwa [spread_accepts rfl] at accepted
  | intersection ms ih =>
    refine accepts_intersection_eq_yes.mpr fun m inside => ih m inside (spread_mono ?_ accepted)
    exact fun t leaf every => accepts_intersection_eq_yes.mp every m inside

theorem accepts_union_iff :
    a.accepts table (.union ms) = .yes ↔ ∀ m ∈ ms, a.accepts table m = .yes := by
  induction a using members_induction with
  | leaf a leaf =>
    cases whole : a.isWhole with
    | true =>
      have every : ∀ b, a.accepts table b = .yes := accepts_of_isOpen whole leaf
      exact ⟨fun _ m _ => every m, fun _ => every _⟩
    | false =>
      obtain ⟨f, same⟩ := accepts_eq_spread table whole
      simp only [same]
      exact spread_union_eq_yes
  | union us ih => exact spread_union_eq_yes
  | intersection us ih =>
    simp only [accepts_intersection_eq_yes]
    rw [forall₂_congr ih]
    exact ⟨fun every m inside u among => every u among m inside,
      fun every u among m inside => every m inside u among⟩

theorem eq_yes_of_against {decide} (leaf : b.isLeaf = true) (accepted : against decide b = .yes) :
    decide b = .yes := by
  cases b with
  | union | intersection => cases leaf
  | mixed | template => cases accepted
  | _ => exact accepted

def isScalar : Ty → Bool
  | .null | .bool | .int | .float | .string | .constBool _ | .constInt _ | .constString _ => true
  | _ => false

/-- The pairs of a scalar and a single type that it certainly accepts: itself or a literal of it. -/
inductive ScalarCovers : Ty → Ty → Prop
  | same {t} (scalar : t.isScalar = true) : ScalarCovers t t
  | bool (value : Bool) : ScalarCovers .bool (.constBool value)
  | int (value : Int64) : ScalarCovers .int (.constInt value)
  | string (value : String) : ScalarCovers .string (.constString value)

theorem isWhole_of_isScalar (scalar : a.isScalar = true) : a.isWhole = false := by
  cases a with
  | mixed | template | intersection => cases scalar
  | _ => rfl

theorem accepts_self_of_isScalar (scalar : a.isScalar = true) : a.accepts table a = .yes := by
  cases a with
  | null | bool | int | float | string => rfl
  | constBool value => exact Verdict.ofBool_eq_yes.mpr (beq_self_eq_true value)
  | constInt value => exact Verdict.ofBool_eq_yes.mpr (beq_self_eq_true value)
  | constString value => exact Verdict.ofBool_eq_yes.mpr (beq_self_eq_true value)
  | _ => cases scalar

theorem scalarCovers_of_accepts (scalar : a.isScalar = true) (leaf : b.isLeaf = true)
    (accepted : a.accepts table b = .yes) : a.ScalarCovers b := by
  cases a with
  | null =>
    cases b with
    | null => exact .same rfl
    | _ => cases eq_yes_of_against leaf accepted
  | float =>
    cases b with
    | float => exact .same rfl
    | _ => cases eq_yes_of_against leaf accepted
  | bool =>
    cases b with
    | bool => exact .same rfl
    | constBool value => exact .bool value
    | _ => cases eq_yes_of_against leaf accepted
  | int =>
    cases b with
    | int => exact .same rfl
    | constInt value => exact .int value
    | _ => cases eq_yes_of_against leaf accepted
  | string =>
    cases b with
    | string => exact .same rfl
    | constString value => exact .string value
    | _ => cases eq_yes_of_against leaf accepted
  | constBool =>
    cases b with
    | constBool =>
      obtain rfl := eq_of_beq (Verdict.ofBool_eq_yes.mp accepted)
      exact .same rfl
    | _ => cases eq_yes_of_against leaf accepted
  | constInt =>
    cases b with
    | constInt =>
      obtain rfl := eq_of_beq (Verdict.ofBool_eq_yes.mp accepted)
      exact .same rfl
    | _ => cases eq_yes_of_against leaf accepted
  | constString =>
    cases b with
    | constString =>
      obtain rfl := eq_of_beq (Verdict.ofBool_eq_yes.mp accepted)
      exact .same rfl
    | _ => cases eq_yes_of_against leaf accepted
  | _ => cases scalar

end Ty

end EntityAudit
