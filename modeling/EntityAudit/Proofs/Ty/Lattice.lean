import EntityAudit.Proofs.Ty.Widening

/-! # Unions and intersections as bounds

A union is the least type above its members and an intersection the greatest below them, as far as
certain acceptance goes. An empty union or intersection on the right is the exception: the first is
accepted by every type, the second by none that takes it apart.
-/

namespace EntityAudit.Ty

variable {table : ClassTable}
variable {b : Ty}

mutual
/-- Whether no union and no intersection that a type is made of is empty. Generic arguments and
    recorded calls are not looked at. -/
def isFilled : Ty → Bool
  | .iterable key value | .array key value => isFilled key && isFilled value
  | .constArray entries => areFilledEntries entries
  | .union members | .intersection members => !members.isEmpty && areFilled members
  | _ => true

def areFilled : List Ty → Bool
  | [] => true
  | t :: ts => isFilled t && areFilled ts

def areFilledEntries : List (Ty × Ty) → Bool
  | [] => true
  | (key, value) :: entries => isFilled key && isFilled value && areFilledEntries entries
end

theorem areFilled_iff {ts} : areFilled ts = true ↔ ∀ t ∈ ts, t.isFilled = true := by
  induction ts with
  | nil => simp [areFilled]
  | cons t ts ih => simp [areFilled, ih]

theorem isFilled_union {ms} :
    (union ms).isFilled = true ↔ ms ≠ [] ∧ ∀ m ∈ ms, m.isFilled = true := by
  simp [isFilled, areFilled_iff]

theorem isFilled_intersection {ms} :
    (intersection ms).isFilled = true ↔ ms ≠ [] ∧ ∀ m ∈ ms, m.isFilled = true := by
  simp [isFilled, areFilled_iff]

theorem accepts_members_iff {a : Ty} :
    (∀ m ∈ b.members, a.accepts table m = .yes) ↔ a.accepts table b = .yes := by
  cases b with
  | union ms => exact accepts_union_iff.symm
  | _ => exact List.forall_mem_singleton

/-- A type that compares single types only by `f` accepts what is made of types that `f` approves
    of. -/
theorem spread_of_isFilled {f} (every : ∀ t, t.isLeaf = true → t.isFilled = true → f t = .yes)
    (filled : b.isFilled = true) : spread f b = .yes := by
  induction b using members_induction with
  | leaf b leaf =>
    rw [spread_of_isLeaf leaf]
    exact every b leaf filled
  | union ms ih =>
    obtain ⟨-, each⟩ := isFilled_union.mp filled
    exact spread_union_eq_yes.mpr fun m inside => ih m inside (each m inside)
  | intersection ms ih =>
    obtain ⟨some, each⟩ := isFilled_intersection.mp filled
    obtain ⟨m, inside⟩ := List.exists_mem_of_ne_nil ms some
    exact spread_intersection_eq_yes.mpr ⟨m, inside, ih m inside (each m inside)⟩

/-- A single type that is not open itself is not certain to hold any value whatever. -/
theorem accepts_open_ne_yes {a : Ty} (leaf : a.isLeaf = true) (apart : a.isWhole = false)
    (open_ : b.isWhole = true) (single : b.isLeaf = true) : a.accepts table b ≠ .yes := by
  intro accepted
  cases b with
  | mixed | template =>
    cases a with
    | mixed | template | intersection => cases apart
    | union => cases leaf
    | _ => cases accepted
  | intersection => cases single
  | _ => cases open_

theorem accepts_of_accepts_open {a t : Ty} (open_ : t.isWhole = true) (single : t.isLeaf = true)
    (accepted : a.accepts table t = .yes) (filled : b.isFilled = true) :
    a.accepts table b = .yes := by
  induction a using members_induction generalizing b with
  | leaf a leaf =>
    cases whole : a.isWhole with
    | true => exact accepts_of_isOpen whole leaf b
    | false => exact absurd accepted (accepts_open_ne_yes leaf whole open_ single)
  | union us ih =>
    obtain ⟨u, among, own⟩ := (accepts_union_eq_yes single).mp accepted
    rw [← spread_accepts rfl]
    refine spread_of_isFilled (fun t leaf filled => ?_) filled
    exact (accepts_union_eq_yes leaf).mpr ⟨u, among, ih u among own filled⟩
  | intersection us ih =>
    rw [accepts_intersection_eq_yes] at accepted ⊢
    exact fun u among => ih u among (accepted u among) filled

theorem accepts_unite_iff {a : Ty} {bs} (some : bs ≠ []) (filled : ∀ b ∈ bs, b.isFilled = true) :
    a.accepts table (unite bs) = .yes ↔ ∀ b ∈ bs, a.accepts table b = .yes := by
  have flat : (∀ b ∈ bs, a.accepts table b = .yes) ↔
      ∀ m ∈ bs.flatMap members, a.accepts table m = .yes := by
    rw [List.forall_mem_flatMap]
    exact forall₂_congr fun b _ => accepts_members_iff.symm
  rw [unite_eq]
  split
  · rename_i known
    rw [List.contains_iff_mem] at known
    constructor
    · exact fun accepted b inside => accepts_of_accepts_open rfl rfl accepted (filled b inside)
    · exact fun each => flat.mp each .mixed known
  · -- Every type brings at least one member, so what is packed is not the empty list.
    have nonempty : joined (bs.flatMap members) ≠ [] := by
      obtain ⟨b, inside⟩ := List.exists_mem_of_ne_nil bs some
      have own : b.members ≠ [] := by
        cases b with
        | union ms => exact (isFilled_union.mp (filled _ inside)).1
        | _ => exact List.cons_ne_nil _ _
      obtain ⟨m, among⟩ := List.exists_mem_of_ne_nil _ own
      exact List.ne_nil_of_mem (mem_joined.mpr (List.mem_flatMap.mpr ⟨b, inside, among⟩))
    have same : (∀ m ∈ joined (bs.flatMap members), a.accepts table m = .yes) ↔
        ∀ b ∈ bs, a.accepts table b = .yes := by
      simp only [flat, mem_joined]
    rw [← same]
    generalize joined (bs.flatMap members) = kept at nonempty
    cases kept with
    | nil => contradiction
    | cons first rest =>
      cases rest with
      | nil => simp [pack]
      | cons second rest => exact accepts_union_iff

theorem factors_accept_iff {a : Ty} :
    (∀ m ∈ a.factors, m.accepts table b = .yes) ↔ a.accepts table b = .yes := by
  cases a with
  | mixed => exact ⟨fun _ => rfl, fun _ _ none => (List.not_mem_nil none).elim⟩
  | intersection ms => exact accepts_intersection_eq_yes.symm
  | _ => exact List.forall_mem_singleton

theorem accepts_meet_iff {as} :
    (meet as).accepts table b = .yes ↔ ∀ a ∈ as, a.accepts table b = .yes := by
  have same : (∀ m ∈ (as.flatMap factors).eraseDups, m.accepts table b = .yes) ↔
      ∀ a ∈ as, a.accepts table b = .yes := by
    simp only [List.mem_eraseDups, List.forall_mem_flatMap]
    exact forall₂_congr fun a _ => factors_accept_iff
  rw [← same, meet]
  generalize (as.flatMap factors).eraseDups = kept
  cases kept with
  | nil => exact ⟨fun _ _ none => (List.not_mem_nil none).elim, fun _ => rfl⟩
  | cons first rest =>
    cases rest with
    | nil => simp [pack]
    | cons second rest => exact accepts_intersection_eq_yes

/-- `unite` gives the least upper bound on the right of certain acceptance and `meet` the greatest
    lower bound on the left, however the types are nested and whatever classes are known. -/
theorem accepts_unite_and_meet (table : ClassTable) :
    (∀ (a : Ty) (bs : List Ty), bs ≠ [] → (∀ b ∈ bs, b.isFilled = true) →
      (a.accepts table (unite bs) = .yes ↔ ∀ b ∈ bs, a.accepts table b = .yes)) ∧
    ∀ (as : List Ty) (b : Ty),
      (meet as).accepts table b = .yes ↔ ∀ a ∈ as, a.accepts table b = .yes :=
  ⟨fun _ _ some filled => accepts_unite_iff some filled, fun _ _ => accepts_meet_iff⟩

/-- A nullable box of integers accepts boxes of one integer each, with null among them twice. -/
theorem accepts_unite_and_meet_boxes :
    let table : ClassTable := {}
    let one (n : Int64) : Ty := .object "Box" [.constInt n]
    let bs : List Ty := [.union [one 1, .null], .null, .intersection [one 2, .string]]
    let as : List Ty := [.object "Box" [.int], .mixed, .union [.null, .object "Box" [.int]]]
    bs ≠ [] ∧ (∀ b ∈ bs, b.isFilled = true) ∧
      accepts table (.union [.null, .object "Box" [.int]]) (unite bs) = .yes ∧
      accepts table (meet as) (one 1) = .yes := by
  intro table one bs as
  have boxed (n : Int64) : accepts table (.object "Box" [.int]) (one n) = .yes := by
    change against _ (.object "Box" [.constInt n]) = .yes
    simp only [against, spread, unlessOpen, ClassTable.acceptsClass,
      table.ancestor?_self ⟨"Box", [.constInt n]⟩]
    rfl
  have either (n : Int64) : accepts table (.union [.null, .object "Box" [.int]]) (one n) = .yes :=
    (accepts_union_eq_yes rfl).mpr ⟨_, by simp, boxed n⟩
  have filled : ∀ b ∈ bs, b.isFilled = true := by simp [bs, one, isFilled, areFilled]
  obtain ⟨right, left⟩ := accepts_unite_and_meet table
  refine ⟨by simp [bs], filled, (right _ bs (by simp [bs]) filled).mpr ?_, (left as _).mpr ?_⟩
  · simp only [bs, List.forall_mem_cons, List.not_mem_nil, false_implies, implies_true, and_true]
    refine ⟨accepts_union_iff.mpr ?_, rfl, ?_⟩
    · exact List.forall_mem_cons.mpr ⟨either 1, List.forall_mem_singleton.mpr rfl⟩
    · exact spread_intersection_eq_yes.mpr ⟨one 2, List.mem_cons_self, either 2⟩
  · simp only [as, List.forall_mem_cons, List.not_mem_nil, false_implies, implies_true, and_true]
    exact ⟨boxed 1, rfl, either 1⟩

end EntityAudit.Ty
