import EntityAudit.Proofs.Code.Scopes
import EntityAudit.Proofs.Ty.Binding

/-! # Unions as joins

On types whose unions are in merged form, `unite` is a join: associative, idempotent and, but for
the order of the members, commutative. So it does not matter in which order branches are merged.
-/

namespace EntityAudit

namespace Ty

variable {t : Ty} {ts us : List Ty}

theorem hasNormalMembers_of_not_union (single : t.isUnion = false) :
    t.hasNormalMembers = true := by
  cases t with
  | union ms => cases single
  | _ => rfl

theorem hasNormalMembers_unite (normal : ∀ t ∈ ts, t.hasNormalMembers = true) :
    (unite ts).hasNormalMembers = true := by
  have single := isUnion_of_mem_flatMap normal
  rw [unite_eq]
  split
  · rfl
  · rename_i known
    have members := normalMembers_joined single (by simpa using known)
    have plain : ∀ m ∈ joined (ts.flatMap Ty.members), m.isUnion = false :=
      fun m inside => single m (mem_joined.mp inside)
    generalize joined (ts.flatMap Ty.members) = ms at members plain
    rcases ms with _ | ⟨m, _ | ⟨n, more⟩⟩
    · rfl
    · exact hasNormalMembers_of_not_union (plain m (by simp))
    · exact decide_eq_true (members (by simp))

theorem unite_unite_pair (first : ∀ t ∈ ts, t.hasNormalMembers = true)
    (second : ∀ t ∈ us, t.hasNormalMembers = true) (some : ts ≠ []) (others : us ≠ []) :
    unite [unite ts, unite us] = unite (ts ++ us) := by
  have both : unite ([ts, us].map fun x => unite x) = unite ([ts, us].flatMap id) :=
    unite_map_unite (by simpa using ⟨first, second⟩) (by simpa using ⟨some, others⟩)
  simpa using both

theorem perm_members_unite (normal : ∀ t ∈ ts, t.hasNormalMembers = true) (perm : ts.Perm us) :
    (unite ts).members.Perm (unite us).members := by
  by_cases some : ts = []
  · subst some
    rw [perm.nil_eq]
  · have others : us ≠ [] := fun none => some (none ▸ perm).eq_nil
    have flat := perm.flatMap_right members
    rw [members_unite normal some,
      members_unite (fun t inside => normal t (perm.mem_iff.mpr inside)) others]
    simp only [flat.mem_iff]
    split
    · rfl
    · exact (List.perm_ext_iff_of_nodup (nodup_joined _) (nodup_joined _)).mpr fun m => by
        simp only [mem_joined, flat.mem_iff]

theorem unite_pair_self (normal : t.hasNormalMembers = true) : unite [t, t] = t := by
  have twice : unite [t, t] = unite [t] := by
    apply unite_congr
    · simp
    · intro _
      simp [joined_append_self]
  rw [twice, unite_singleton normal]

theorem anyNullable_iff : anyNullable ts = true ↔ ∃ m ∈ ts, m.isNullable = true := by
  induction ts with
  | nil => simp [anyNullable]
  | cons t ts ih => simp [anyNullable, ih]

theorem isNullable_iff : t.isNullable = true ↔ ∃ m ∈ t.members, m.isNullable = true := by
  cases t with
  | union ms => rw [isNullable, anyNullable_iff, members]
  | _ => simp [members]

theorem eq_of_isNullable (single : t.isUnion = false) (nullable : t.isNullable = true) :
    t = .null ∨ t = .mixed := by
  cases t with
  | null => exact .inl rfl
  | mixed => exact .inr rfl
  | union ms => cases single
  | _ => cases nullable

theorem isNullable_addNull (normal : t.hasNormalMembers = true) : t.addNull.isNullable = true := by
  rw [addNull, isNullable_iff, members_unite (by simpa using ⟨normal, rfl⟩) (by simp)]
  split
  · exact ⟨.mixed, by simp, rfl⟩
  · exact ⟨.null, by simp [members], rfl⟩

theorem addNull_addNull (normal : t.hasNormalMembers = true) : t.addNull.addNull = t.addNull := by
  have again : unite [unite [t, .null], unite [.null]] = unite ([t, .null] ++ [.null]) :=
    unite_unite_pair (by simpa using ⟨normal, rfl⟩) (List.forall_mem_singleton.mpr rfl)
      (by simp) (by simp)
  change unite [unite [t, .null], unite [.null]] = _
  rw [again]
  apply unite_congr
  · simp [members]
  · intro _
    apply joined_congr
    · simp [members]
    · simp [members]

theorem removeNull_eq (normal : t.hasNormalMembers = true) (other : t ≠ .null) :
    t.removeNull = unite (t.members.filter (· != .null)) := by
  have whole (same : t.removeNull = t) (alone : t.members = [t]) :
      t.removeNull = unite (t.members.filter (· != .null)) := by
    rw [alone, List.filter_cons_of_pos (by simpa using other), List.filter_nil,
      unite_singleton normal, same]
  cases t with
  | union ms => rfl
  | _ => exact whole rfl rfl

theorem exists_member (normal : t.hasNormalMembers = true) (other : t ≠ .null) :
    ∃ m ∈ t.members, m ≠ .null := by
  cases t with
  | union ms =>
    have members := of_decide_eq_true normal
    have several := members.several
    obtain ⟨m, inside⟩ := List.exists_mem_of_length_pos (l := ms.dropLast) (by simp; omega)
    exact ⟨m, (List.dropLast_sublist ms).subset inside,
      fun null => members.nullLast (null ▸ inside)⟩
  | _ => exact ⟨_, List.mem_singleton_self _, other⟩

theorem eq_mixed_of_mem (normal : t.hasNormalMembers = true) (inside : .mixed ∈ t.members) :
    t = .mixed := by
  cases t with
  | union ms => exact ((of_decide_eq_true normal).known inside).elim
  | _ => exact (List.mem_singleton.mp inside).symm

theorem nodup_members (normal : t.hasNormalMembers = true) : t.members.Nodup := by
  cases t with
  | union ms => exact (of_decide_eq_true normal).distinct
  | _ => exact List.pairwise_singleton _ _

theorem members_addNull (normal : t.hasNormalMembers = true) (known : t ≠ .mixed) :
    t.addNull.members = joined (t.members ++ [.null]) := by
  have flat : [t, .null].flatMap members = t.members ++ [.null] := by simp [members]
  rw [addNull, members_unite (by simpa using ⟨normal, rfl⟩) (by simp), flat, if_neg]
  simpa using fun inside => known (eq_mixed_of_mem normal inside)

theorem removeNull_addNull (normal : t.hasNormalMembers = true) :
    t.addNull.removeNull = t.removeNull := by
  by_cases other : t = .null
  · subst other
    rfl
  by_cases known : t = .mixed
  · subst known
    rfl
  have members := members_addNull normal known
  have more : t.addNull ≠ .null := by
    intro null
    obtain ⟨m, inside, apart⟩ := exists_member normal other
    have among : m ∈ t.addNull.members := by simp [members, inside]
    rw [null] at among
    exact apart (List.mem_singleton.mp among)
  have still : t.addNull.hasNormalMembers = true :=
    hasNormalMembers_unite (by simpa using ⟨normal, rfl⟩)
  rw [removeNull_eq still more,
    removeNull_eq normal other, members, filter_joined, List.filter_append]
  simp [Distinct.eraseDups_of_nodup ((nodup_members normal).filter _)]

theorem eq_of_isNullable_removeNull (normal : t.hasNormalMembers = true)
    (nullable : t.removeNull.isNullable = true) : t = .null ∨ t = .mixed := by
  by_cases other : t = .null
  · exact .inl other
  refine .inr (eq_mixed_of_mem normal ?_)
  have single : ∀ m ∈ t.members.filter (· != .null), m.isUnion = false := fun m inside =>
    isUnion_of_mem_members normal (List.mem_filter.mp inside).1
  obtain ⟨some, inside, apart⟩ := exists_member normal other
  have filled : t.members.filter (· != .null) ≠ [] :=
    List.ne_nil_of_mem (List.mem_filter.mpr ⟨inside, by simpa using apart⟩)
  rw [removeNull_eq normal other, isNullable_iff, members_unite
    (fun m inside => hasNormalMembers_of_not_union (single m inside)) filled,
    flatMap_members single] at nullable
  split at nullable
  · rename_i mixed
    exact (List.mem_filter.mp mixed).1
  · obtain ⟨m, inside, nullable⟩ := nullable
    rw [mem_joined] at inside
    obtain ⟨member, apart⟩ := List.mem_filter.mp inside
    rcases eq_of_isNullable (single m inside) nullable with rfl | rfl
    · simp at apart
    · exact member

end Ty

namespace Scope

/-- Each variable has one type, and its union is in merged form. -/
structure IsNormal (s : Scope) : Prop where
  distinct : s.locals.keys.Nodup
  types : ∀ name t, s.varType? name = some t → t.hasNormalMembers = true

variable {a b c : Option Ty}

theorem meetTypes_self (first : ∀ t, a = some t → t.hasNormalMembers = true) :
    meetTypes a a = a := by
  cases a with
  | none => rfl
  | some t => exact congrArg some (Ty.unite_pair_self (first t rfl))

theorem meetTypes_comm (first : ∀ t, a = some t → t.hasNormalMembers = true)
    (second : ∀ t, b = some t → t.hasNormalMembers = true) :
    Option.Rel (fun t u : Ty => t.members.Perm u.members) (meetTypes a b) (meetTypes b a) := by
  cases a with
  | none =>
    cases b with
    | none => exact .none
    | some u => exact .some (List.Perm.refl _)
  | some t =>
    cases b with
    | none => exact .some (List.Perm.refl _)
    | some u =>
      have normal : ∀ m ∈ [t, u], m.hasNormalMembers = true := by
        simpa using ⟨first t rfl, second u rfl⟩
      exact .some (Ty.perm_members_unite normal (.swap _ _ _))

theorem meetTypes_assoc (first : ∀ t, a = some t → t.hasNormalMembers = true)
    (second : ∀ t, b = some t → t.hasNormalMembers = true)
    (third : ∀ t, c = some t → t.hasNormalMembers = true) :
    meetTypes (meetTypes a b) c = meetTypes a (meetTypes b c) := by
  cases a with
  | none => rfl
  | some t =>
    cases b with
    | none => cases c <;> rfl
    | some u =>
      cases c with
      | none => rfl
      | some v =>
        have alone {x : Ty} (normal : x.hasNormalMembers = true) :
            ∀ m ∈ [x], m.hasNormalMembers = true := by simpa using normal
        have pair {x y : Ty} (one : x.hasNormalMembers = true) (other : y.hasNormalMembers = true) :
            ∀ m ∈ [x, y], m.hasNormalMembers = true := by simpa using ⟨one, other⟩
        have left := Ty.unite_unite_pair (pair (first t rfl) (second u rfl)) (alone (third v rfl))
          (by simp) (by simp)
        have right := Ty.unite_unite_pair (alone (first t rfl)) (pair (second u rfl) (third v rfl))
          (by simp) (by simp)
        rw [Ty.unite_singleton (third v rfl)] at left
        rw [Ty.unite_singleton (first t rfl)] at right
        exact congrArg some (left.trans right.symm)

theorem IsNormal.merge {s other : Scope} (normal : s.IsNormal) (others : other.IsNormal) :
    (s.merge other).IsNormal where
  distinct := keys_foldl_join normal.distinct
  types name t found := by
    rw [varType?_merge s others.distinct] at found
    cases known : s.varType? name with
    | none => exact others.types name t (by rwa [known] at found)
    | some first =>
      rw [known] at found
      cases also : other.varType? name with
      | none =>
        rw [also] at found
        exact normal.types name t (known.trans found)
      | some second =>
        rw [also] at found
        cases found
        apply Ty.hasNormalMembers_unite
        simpa using ⟨normal.types name first known, others.types name second also⟩

end Scope

/-- Uniting types in merged form is a join with a null flag, and so is merging branches. -/
theorem unite_join :
    (∀ ts : List Ty, (∀ t ∈ ts, t.hasNormalMembers = true) →
      (Ty.unite ts).hasNormalMembers = true ∧
      ((∀ t ∈ ts, t.isNormal = true) → (Ty.unite ts).isNormal = true) ∧
      (∀ us : List Ty, ts.Perm us → (Ty.unite ts).members.Perm (Ty.unite us).members) ∧
      ∀ us : List Ty, (∀ t ∈ us, t.hasNormalMembers = true) → ts ≠ [] → us ≠ [] →
        Ty.unite [Ty.unite ts, Ty.unite us] = Ty.unite (ts ++ us)) ∧
    (∀ t : Ty, t.hasNormalMembers = true →
      Ty.unite [t, t] = t ∧ t.addNull.addNull = t.addNull ∧ t.addNull.isNullable = true ∧
      t.addNull.removeNull = t.removeNull ∧
      (t.removeNull.isNullable = true → t = .null ∨ t = .mixed)) ∧
    ∀ (r s u : Scope) (name : String), r.IsNormal → s.IsNormal → u.IsNormal →
      (r.merge s).IsNormal ∧
      (r.merge r).varType? name = r.varType? name ∧
      ((r.merge s).merge u).varType? name = (r.merge (s.merge u)).varType? name ∧
      Option.Rel (fun t u : Ty => t.members.Perm u.members) ((r.merge s).varType? name)
        ((s.merge r).varType? name) := by
  refine ⟨fun ts normal => ⟨Ty.hasNormalMembers_unite normal, Ty.isNormal_unite,
      fun us => Ty.perm_members_unite normal, fun us others => Ty.unite_unite_pair normal others⟩,
    fun t normal => ⟨Ty.unite_pair_self normal, Ty.addNull_addNull normal,
      Ty.isNullable_addNull normal, Ty.removeNull_addNull normal,
      Ty.eq_of_isNullable_removeNull normal⟩, fun r s u name first second third => ?_⟩
  rw [Scope.varType?_merge r first.distinct, Scope.varType?_merge _ third.distinct,
    Scope.varType?_merge r second.distinct, Scope.varType?_merge r (second.merge third).distinct,
    Scope.varType?_merge s third.distinct, Scope.varType?_merge s first.distinct]
  exact ⟨first.merge second, Scope.meetTypes_self (first.types name),
    Scope.meetTypes_assoc (first.types name) (second.types name) (third.types name),
    Scope.meetTypes_comm (first.types name) (second.types name)⟩

end EntityAudit
