import EntityAudit.Proofs.Distinct
import EntityAudit.Ty.Merge

/-! # Members of unions

What `unite` does to the members of the types it is given, and which types it leaves as they are.
-/

namespace EntityAudit.Ty

variable {ts : List Ty}

def isUnion : Ty → Bool
  | .union _ => true
  | _ => false

/-- Whether a type is in merged form: what its members unite to, none of them a union itself. -/
def isMerged (t : Ty) : Bool :=
  t.members.all (!·.isUnion) && unite t.members == t

@[simp] theorem members_of_not_union {t : Ty} (single : t.isUnion = false) : t.members = [t] := by
  cases t <;> simp_all [isUnion, members]

theorem flatMap_members (flat : ∀ t ∈ ts, t.isUnion = false) : ts.flatMap members = ts := by
  induction ts with
  | nil => rfl
  | cons t ts ih =>
    rw [List.flatMap_cons, members_of_not_union (flat t (by simp)),
      ih fun u inside => flat u (by simp [inside]), List.singleton_append]

/-- The members of a union with repetitions left out and null last. -/
def joined (flat : List Ty) : List Ty :=
  let others := (flat.filter (· != .null)).eraseDups
  if flat.contains .null then others ++ [.null] else others

theorem unite_eq (types : List Ty) :
    unite types =
      if types.flatMap members |>.contains .mixed then .mixed
      else pack .union (joined (types.flatMap members)) := rfl

@[simp] theorem mem_joined {flat t} : t ∈ joined flat ↔ t ∈ flat := by
  by_cases null : Ty.null ∈ flat
  · by_cases same : t = .null
    · simp [joined, null, same]
    · simp [joined, null, same, List.mem_eraseDups]
  · have other : t ∈ flat → t ≠ .null := fun inside same => null (same ▸ inside)
    simp only [joined, List.contains_iff_mem, null, if_false, List.mem_eraseDups, List.mem_filter,
      bne_iff_ne, ne_eq]
    exact ⟨fun both => both.1, fun inside => ⟨inside, other inside⟩⟩

theorem joined_append_self (flat : List Ty) : joined (flat ++ flat) = joined flat := by
  simp [joined, Distinct.eraseDups_append_self]

theorem members_pack (some : ts ≠ []) (flat : ∀ t ∈ ts, t.isUnion = false) :
    (pack .union ts).members = ts := by
  cases ts with
  | nil => contradiction
  | cons t rest =>
    cases rest with
    | nil => simp [pack, flat t (by simp)]
    | cons u us => rfl

theorem mem_members_unite {types t} (some : types.flatMap members ≠ [])
    (known : Ty.mixed ∉ types.flatMap members)
    (flat : ∀ m ∈ types.flatMap members, m.isUnion = false) :
    t ∈ (unite types).members ↔ t ∈ types.flatMap members := by
  have nonempty : joined (types.flatMap members) ≠ [] := by
    obtain ⟨m, inside⟩ := List.exists_mem_of_ne_nil _ some
    exact List.ne_nil_of_mem (mem_joined.mpr inside)
  have packed := members_pack nonempty fun m inside => flat m (mem_joined.mp inside)
  rw [unite_eq, if_neg (by simpa using known), packed, mem_joined]

theorem unite_self {t} (merged : t.isMerged = true) : unite [t, t] = t := by
  simp only [isMerged, Bool.and_eq_true, List.all_eq_true, Bool.not_eq_true', beq_iff_eq] at merged
  obtain ⟨flat, same⟩ := merged
  rw [unite_eq, flatMap_members flat] at same
  have twice : [t, t].flatMap members = t.members ++ t.members := by simp
  rw [unite_eq, twice, joined_append_self]
  simpa using same

theorem texts_eq (t : Ty) : t.texts = (t.members.mapM text?).getD [] := by
  cases t <;> simp [texts, members, text?]

@[simp] theorem text?_eq_some {t : Ty} {text} : t.text? = some text ↔ t = .constString text := by
  cases t <;> simp [text?]

theorem mapM_text?_eq_some {texts : List String} :
    ts.mapM text? = some texts ↔ ts = texts.map .constString := by
  induction ts generalizing texts with
  | nil => cases texts <;> simp
  | cons t ts ih =>
    cases texts with
    | nil => simp [Option.bind_eq_some_iff]
    | cons text texts => simp [Option.bind_eq_some_iff, ih]

theorem eq_map_constString (all : ∀ t ∈ ts, t.text?.isSome) :
    ∃ texts : List String, ts = texts.map .constString := by
  induction ts with
  | nil => exact ⟨[], rfl⟩
  | cons t ts ih =>
    obtain ⟨text, same⟩ := Option.isSome_iff_exists.mp (all t (by simp))
    obtain ⟨texts, rest⟩ := ih fun u inside => all u (by simp [inside])
    exact ⟨text :: texts, by rw [List.map_cons, ← rest, text?_eq_some.mp same]⟩

theorem mem_mapM_text? {text} :
    text ∈ (ts.mapM text?).getD [] ↔
      (∀ t ∈ ts, t.text?.isSome) ∧ .constString text ∈ ts := by
  by_cases all : ∀ t ∈ ts, t.text?.isSome
  · obtain ⟨texts, rfl⟩ := eq_map_constString all
    rw [mapM_text?_eq_some.mpr rfl]
    simp [text?]
  · cases found : ts.mapM text? with
    | none => simp [all]
    | some texts =>
      rw [mapM_text?_eq_some.mp found] at all
      simp [text?] at all

theorem mem_texts_unite {types text} (flat : ∀ m ∈ types.flatMap members, m.isUnion = false) :
    text ∈ (unite types).texts ↔
      (∀ m ∈ types.flatMap members, m.text?.isSome) ∧
        .constString text ∈ types.flatMap members := by
  by_cases known : Ty.mixed ∈ types.flatMap members
  · rw [unite_eq, if_pos (by simpa using known)]
    simp only [texts, List.not_mem_nil, false_iff, not_and]
    intro all
    exact absurd (all .mixed known) (by simp [text?])
  · by_cases some : types.flatMap members = []
    · simp [unite_eq, some, joined, pack, texts]
    · simp only [texts_eq, mem_mapM_text?, mem_members_unite some known flat]

end EntityAudit.Ty
