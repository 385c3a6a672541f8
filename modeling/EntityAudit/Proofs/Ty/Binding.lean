import EntityAudit.Proofs.Class.Bindings
import EntityAudit.Proofs.Ty.Normal

/-! # Binding generic parameters twice

To bind the parameters of a type and then those of what they were bound to is to bind once. Unions
and intersections are merged after each replacement; that this makes no difference comes down to
binding commuting with `unite` and with `meet`, on types that are built.
-/

namespace EntityAudit

namespace Ty

variable {ts : List Ty} {binding : Dict Ty}
variable {t : Ty}

theorem filter_joined (flat : List Ty) :
    (joined flat).filter (· != .null) = (flat.filter (· != .null)).eraseDups := by
  have others : ((flat.filter (· != .null)).eraseDups).filter (· != .null) =
      (flat.filter (· != .null)).eraseDups := by
    rw [← Distinct.eraseDups_filter, List.filter_filter]
    simp
  rw [joined]
  split
  · rw [List.filter_append, others]
    simp
  · exact others

theorem joined_congr {flat flat'}
    (others : (flat.filter (· != .null)).eraseDups = (flat'.filter (· != .null)).eraseDups)
    (null : .null ∈ flat ↔ .null ∈ flat') : joined flat = joined flat' := by
  have alike : flat.contains .null = flat'.contains .null := by
    rw [Bool.eq_iff_iff, List.contains_iff_mem, List.contains_iff_mem, null]
  rw [joined, joined, others, alike]

theorem unite_congr {us} (known : .mixed ∈ ts.flatMap members ↔ .mixed ∈ us.flatMap members)
    (same : .mixed ∉ ts.flatMap members → joined (ts.flatMap members) =
      joined (us.flatMap members)) :
    unite ts = unite us := by
  have alike : (ts.flatMap members).contains .mixed = (us.flatMap members).contains .mixed := by
    rw [Bool.eq_iff_iff, List.contains_iff_mem, List.contains_iff_mem, known]
  rw [unite_eq, unite_eq, ← alike]
  split
  · rfl
  · rename_i absent
    rw [same (by simpa using absent)]

theorem flatMap_filter_null {f : Ty → List Ty} (nothing : f .null = []) (flat : List Ty) :
    (flat.filter (· != .null)).flatMap f = flat.flatMap f := by
  induction flat with
  | nil => rfl
  | cons t flat ih =>
    by_cases null : t = .null
    · rw [List.filter_cons_of_neg (by simpa using null), ih, List.flatMap_cons, null, nothing,
        List.nil_append]
    · rw [List.filter_cons_of_pos (by simpa using null), List.flatMap_cons, List.flatMap_cons, ih]

/-- Members that were left out as repeated, or moved to the end as null, make no difference to the
    union of what they are replaced by. -/
theorem unite_map_joined {f} (null : f .null = .null) (flat : List Ty) :
    unite ((joined flat).map f) = unite (flat.map f) := by
  have nothing : (f .null).members.filter (· != .null) = [] := by rw [null]; rfl
  apply unite_congr
  · simp
  · intro _
    rw [List.flatMap_map, List.flatMap_map]
    apply joined_congr
    · rw [List.filter_flatMap, List.filter_flatMap, ← flatMap_filter_null nothing (joined flat),
        filter_joined, Distinct.eraseDups_flatMap_eraseDups, flatMap_filter_null nothing]
    · simp

theorem members_ne_nil (normal : t.hasNormalMembers = true) : t.members ≠ [] := by
  cases t with
  | union ms =>
    rintro rfl
    cases normal
  | _ => exact List.cons_ne_nil _ _

theorem members_unite (normal : ∀ t ∈ ts, t.hasNormalMembers = true) (some : ts ≠ []) :
    (unite ts).members =
      if .mixed ∈ ts.flatMap members then [.mixed] else joined (ts.flatMap members) := by
  rw [unite_eq]
  split
  · rename_i known
    rw [if_pos (by simpa using known)]
    rfl
  · rename_i known
    rw [if_neg (by simpa using known)]
    apply members_pack
    · obtain ⟨t, inside⟩ := List.exists_mem_of_ne_nil ts some
      obtain ⟨m, member⟩ := List.exists_mem_of_ne_nil _ (members_ne_nil (normal t inside))
      exact List.ne_nil_of_mem (mem_joined.mpr (List.mem_flatMap.mpr ⟨t, inside, member⟩))
    · intro m inside
      exact isUnion_of_mem_flatMap normal m (mem_joined.mp inside)

theorem unite_map_unite {α : Type} {xs : List α} {g}
    (normal : ∀ x ∈ xs, ∀ t ∈ g x, t.hasNormalMembers = true) (some : ∀ x ∈ xs, g x ≠ []) :
    unite (xs.map fun x => unite (g x)) = unite (xs.flatMap g) := by
  have inner (x : α) (inside : x ∈ xs) := members_unite (normal x inside) (some x inside)
  have known : ∀ x ∈ xs, .mixed ∈ (unite (g x)).members ↔ .mixed ∈ (g x).flatMap members := by
    intro x inside
    rw [inner x inside]
    split <;> simp [*]
  apply unite_congr
  · rw [List.flatMap_map, List.flatMap_assoc, List.mem_flatMap, List.mem_flatMap]
    exact exists_congr fun x => and_congr_right (known x)
  · intro absent
    rw [List.flatMap_map, List.mem_flatMap] at absent
    have opened : ∀ x ∈ xs, (unite (g x)).members = joined ((g x).flatMap members) := by
      intro x inside
      rw [inner x inside, if_neg]
      intro mixed
      exact absent ⟨x, inside, (known x inside).mpr mixed⟩
    rw [List.flatMap_map, List.flatMap_assoc, List.flatMap_def, List.map_congr_left opened,
      ← List.flatMap_def]
    apply joined_congr
    · rw [List.filter_flatMap, List.filter_flatMap]
      apply Distinct.eraseDups_flatMap_congr
      intro x inside
      rw [filter_joined, Distinct.eraseDups_of_nodup (Distinct.nodup_eraseDups _)]
    · simp

theorem unite_singleton (normal : t.hasNormalMembers = true) : unite [t] = t := by
  cases t with
  | union ms =>
    have members := of_decide_eq_true normal
    have same : [union ms].flatMap Ty.members = ms.flatMap Ty.members := by
      rw [flatMap_members members.single, List.flatMap_singleton]
      rfl
    rw [unite_eq, same, ← unite_eq, unite_of_normal members]
  | mixed => rfl
  | null => rfl
  | _ => rfl

theorem unite_map_members (bound : ∀ entry ∈ binding, entry.2.isNormal = true)
    (normal : t.isNormal = true) :
    unite (t.members.map (substitute binding)) = t.substitute binding := by
  cases t with
  | union ms => rw [substitute, substituteAll_eq_map, members]
  | _ => exact unite_singleton (hasNormalMembers_of_isNormal (isNormal_substitute bound normal))

theorem substitute_unite (bound : ∀ entry ∈ binding, entry.2.isNormal = true)
    (normal : ∀ t ∈ ts, t.isNormal = true) :
    (unite ts).substitute binding = unite (ts.map (substitute binding)) := by
  by_cases some : ts = []
  · subst some
    rfl
  have whole : ∀ t ∈ ts, t.hasNormalMembers = true := fun t inside =>
    hasNormalMembers_of_isNormal (normal t inside)
  have merged : unite ((unite ts).members.map (substitute binding)) =
      unite ((ts.flatMap members).map (substitute binding)) := by
    rw [members_unite whole some]
    split
    · rename_i mixed
      have absorbs : .mixed ∈ ((ts.flatMap members).map (substitute binding)).flatMap members :=
        List.mem_flatMap.mpr
          ⟨.mixed, List.mem_map.mpr ⟨.mixed, mixed, rfl⟩, List.mem_singleton_self _⟩
      apply unite_congr
      · simp only [absorbs, iff_true]
        exact List.mem_singleton_self _
      · intro absent
        exact absurd (List.mem_singleton_self _) absent
    · exact unite_map_joined rfl _
  have parts : ∀ t ∈ ts, ∀ u ∈ t.members.map (substitute binding), u.hasNormalMembers = true := by
    intro t inside u replaced
    obtain ⟨m, member, rfl⟩ := List.mem_map.mp replaced
    exact hasNormalMembers_of_isNormal
      (isNormal_substitute bound (everyPart_members (normal t inside) member))
  have nonempty : ∀ t ∈ ts, t.members.map (substitute binding) ≠ [] := by
    intro t inside empty
    exact members_ne_nil (whole t inside) (List.map_eq_nil_iff.mp empty)
  calc (unite ts).substitute binding
    _ = unite ((unite ts).members.map (substitute binding)) :=
        (unite_map_members bound (isNormal_unite normal)).symm
    _ = unite ((ts.flatMap members).map (substitute binding)) := merged
    _ = unite (ts.flatMap fun t => t.members.map (substitute binding)) := by rw [List.map_flatMap]
    _ = unite (ts.map fun t => unite (t.members.map (substitute binding))) :=
        (unite_map_unite parts nonempty).symm
    _ = unite (ts.map (substitute binding)) := by
        rw [List.map_congr_left fun t inside => unite_map_members bound (normal t inside)]

theorem factors_meet (factored : ∀ t ∈ ts, t.isFactored = true) :
    (meet ts).factors = (ts.flatMap factors).eraseDups := by
  have simple : ∀ m ∈ (ts.flatMap factors).eraseDups, m.isIntersection = false ∧ m ≠ .mixed := by
    intro m inside
    obtain ⟨t, among, here⟩ := List.mem_flatMap.mp (List.mem_eraseDups.mp inside)
    exact mem_factors_of_isFactored (factored t among) here
  rw [meet]
  generalize (ts.flatMap factors).eraseDups = ms at simple
  cases ms with
  | nil => rfl
  | cons m rest =>
    cases rest with
    | nil =>
      have flat := flatMap_factors simple
      rwa [List.flatMap_singleton] at flat
    | cons n more => rfl

theorem meet_map_meet {α : Type} {xs : List α} {g}
    (factored : ∀ x ∈ xs, ∀ t ∈ g x, t.isFactored = true) :
    meet (xs.map fun x => meet (g x)) = meet (xs.flatMap g) := by
  rw [meet, meet, List.flatMap_map, List.flatMap_assoc]
  congr 1
  apply Distinct.eraseDups_flatMap_congr
  intro x inside
  rw [factors_meet (factored x inside), Distinct.eraseDups_of_nodup (Distinct.nodup_eraseDups _)]

theorem meet_singleton (factored : t.isFactored = true) : meet [t] = t := by
  cases t with
  | intersection ms =>
    have members := (isFactored_intersection.mp factored).1
    have flat : [intersection ms].flatMap factors = ms.flatMap factors := by
      rw [members.flatMap, List.flatMap_singleton]
      rfl
    rw [meet, flat, ← meet, meet_of_factored members]
  | _ => rfl

theorem meet_map_factors (bound : ∀ entry ∈ binding, entry.2.isFactored = true)
    (factored : t.isFactored = true) :
    meet (t.factors.map (substitute binding)) = t.substitute binding := by
  cases t with
  | intersection ms => rw [substitute, substituteAll_eq_map, factors]
  | mixed => rfl
  | _ => exact meet_singleton (keptByMerging_factored.substitute bound factored)

theorem substitute_meet (bound : ∀ entry ∈ binding, entry.2.isFactored = true)
    (factored : ∀ t ∈ ts, t.isFactored = true) :
    (meet ts).substitute binding = meet (ts.map (substitute binding)) := by
  have parts : ∀ t ∈ ts, ∀ u ∈ t.factors.map (substitute binding), u.isFactored = true := by
    intro t inside u replaced
    obtain ⟨m, member, rfl⟩ := List.mem_map.mp replaced
    exact keptByMerging_factored.substitute bound (everyPart_factors (factored t inside) member)
  calc (meet ts).substitute binding
    _ = meet ((meet ts).factors.map (substitute binding)) :=
        (meet_map_factors bound (isFactored_meet factored)).symm
    _ = meet ((ts.flatMap factors).map (substitute binding)) := by
        rw [factors_meet factored, meet, meet, List.flatMap_map, List.flatMap_map,
          Distinct.eraseDups_flatMap_eraseDups]
    _ = meet (ts.flatMap fun t => t.factors.map (substitute binding)) := by rw [List.map_flatMap]
    _ = meet (ts.map fun t => meet (t.factors.map (substitute binding))) :=
        (meet_map_meet parts).symm
    _ = meet (ts.map (substitute binding)) := by
        rw [List.map_congr_left fun t inside => meet_map_factors bound (factored t inside)]

def AreBuilt (binding : Dict Ty) : Prop :=
  ∀ entry ∈ binding, entry.2.IsBuilt

theorem IsBuilt.substitute (built : t.IsBuilt) (bound : AreBuilt binding) :
    (t.substitute binding).IsBuilt := by
  obtain ⟨normal, factored⟩ := isBuilt_iff.mp built
  exact isBuilt_iff.mpr
    ⟨isNormal_substitute (fun entry inside => (isBuilt_iff.mp (bound entry inside)).1) normal,
      keptByMerging_factored.substitute
        (fun entry inside => (isBuilt_iff.mp (bound entry inside)).2) factored⟩

theorem substitute_substitute {first second} (bound : AreBuilt first) (boundAgain : AreBuilt second)
    (built : t.IsBuilt) :
    (t.substitute first).substitute second =
      t.substitute (first.mapValues (Ty.substitute second)) := by
  induction t using parts_induction with
  | step t ih =>
    have each (ts : List Ty) (within : ts ⊆ t.parts) :
        (ts.map (Ty.substitute first)).map (Ty.substitute second) =
          ts.map (Ty.substitute (first.mapValues (Ty.substitute second))) := by
      rw [List.map_map]
      apply List.map_congr_left
      intro part inside
      exact ih part (within inside) (built.of_mem_parts (within inside))
    have once : ∀ part ∈ t.parts.map (Ty.substitute first), part.IsBuilt := by
      intro u inside
      obtain ⟨part, among, rfl⟩ := List.mem_map.mp inside
      exact (built.of_mem_parts among).substitute bound
    cases t with
    | object name args =>
      simp only [Ty.substitute, substituteAll_eq_map, each args (List.Subset.refl _)]
    | iterable key value =>
      have both := each [key, value] (List.Subset.refl _)
      simp only [List.map_cons, List.map_nil, List.cons.injEq, and_true] at both
      simp only [Ty.substitute, both]
    | array key value =>
      have both := each [key, value] (List.Subset.refl _)
      simp only [List.map_cons, List.map_nil, List.cons.injEq, and_true] at both
      simp only [Ty.substitute, both]
    | union ms =>
      rw [Ty.substitute, substituteAll_eq_map, Ty.substitute, substituteAll_eq_map,
        ← each ms (List.Subset.refl _)]
      exact substitute_unite (fun entry inside => (isBuilt_iff.mp (boundAgain entry inside)).1)
        fun u inside => (isBuilt_iff.mp (once u inside)).1
    | intersection ms =>
      rw [Ty.substitute, substituteAll_eq_map, Ty.substitute, substituteAll_eq_map,
        ← each ms (List.Subset.refl _)]
      exact substitute_meet (fun entry inside => (isBuilt_iff.mp (boundAgain entry inside)).2)
        fun u inside => (isBuilt_iff.mp (once u inside)).2
    | template name =>
      rw [Ty.substitute, Ty.substitute, Dict.get?_mapValues]
      cases first.get? name <;> rfl
    | _ => rfl

end Ty

end EntityAudit
