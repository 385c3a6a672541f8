import EntityAudit.Proofs.Ty.Normal
import EntityAudit.Proofs.Ty.Widening

/-! # Merged types and the spelling of class names

Where members that differ in spelling meet, merging keeps them both, and where they are spelled
alike it keeps one. An accepting type asks the members one by one, so what it answers about a merged
type is settled by what it answers about the types that were merged, unless one is empty or a union
lists `mixed`.
-/

namespace EntityAudit

namespace Verdict

variable {vs : List Verdict}

theorem eq_of_iff {a b : Verdict} (yes : a = .yes ↔ b = .yes) (no : a = .no ↔ b = .no) : a = b := by
  cases a <;> cases b <;> simp_all

theorem agree_eq_no : agree vs = .no ↔ vs ≠ [] ∧ ∀ v ∈ vs, v = .no := by
  cases vs with
  | nil => simp [agree]
  | cons v rest =>
    rw [agree]
    by_cases same : rest.all (· == v) = true
    · have each : ∀ u ∈ rest, u = v := by simpa using same
      rw [if_pos same]
      refine ⟨?_, fun all => all.2 v (by simp)⟩
      rintro rfl
      exact ⟨by simp, List.forall_mem_cons.mpr ⟨rfl, each⟩⟩
    · rw [if_neg same]
      refine ⟨fun no => (by cases no), fun all => absurd ?_ same⟩
      obtain ⟨first, later⟩ := List.forall_mem_cons.mp all.2
      exact List.all_eq_true.mpr fun u inside => by simp [first, later u inside]

theorem any_eq_no : any vs = .no ↔ ∀ v ∈ vs, v = .no := by
  have fold (start : Verdict) : vs.foldl or start = .no ↔ start = .no ∧ ∀ v ∈ vs, v = .no := by
    induction vs generalizing start with
    | nil => simp
    | cons v vs ih =>
      rw [List.foldl_cons, ih, List.forall_mem_cons, ← and_assoc]
      cases start <;> cases v <;> simp [or]
  rw [any, fold]
  simp

theorem agree_congr {us : List Verdict} (same : ∀ v, v ∈ vs ↔ v ∈ us) : agree vs = agree us := by
  refine eq_of_iff ?_ ?_
  · simp only [agree_eq_yes, same]
  · simp only [agree_eq_no, ne_eq, List.eq_nil_iff_forall_not_mem, same]

theorem any_congr {us} (same : ∀ v, v ∈ vs ↔ v ∈ us) : any vs = any us := by
  refine eq_of_iff ?_ ?_
  · simp only [any_eq_yes, same]
  · simp only [any_eq_no, same]

theorem agree_flatten {vss : List (List Verdict)} (some : ∀ vs ∈ vss, vs ≠ []) :
    agree vss.flatten = agree (vss.map agree) := by
  refine eq_of_iff ?_ ?_
  · simp only [agree_eq_yes, List.forall_mem_map, List.forall_mem_flatten]
  · have flat : vss.flatten ≠ [] ↔ vss ≠ [] := by
      refine not_congr ⟨fun empty => ?_, fun empty => empty ▸ rfl⟩
      refine List.eq_nil_iff_forall_not_mem.mpr fun vs inside => ?_
      exact some vs inside (List.flatten_eq_nil_iff.mp empty vs inside)
    have each : ∀ vs ∈ vss, (agree vs = .no ↔ ∀ v ∈ vs, v = .no) := by
      intro vs inside
      rw [agree_eq_no, and_iff_right (some vs inside)]
    rw [agree_eq_no, agree_eq_no, flat, List.forall_mem_flatten, List.forall_mem_map, ne_eq, ne_eq,
      List.map_eq_nil_iff]
    exact and_congr_right fun _ => forall₂_congr fun vs inside => (each vs inside).symm

theorem any_flatten (vss : List (List Verdict)) : any vss.flatten = any (vss.map any) := by
  refine eq_of_iff ?_ ?_
  · simp [any_eq_yes]
  · simp only [any_eq_no, List.forall_mem_map, List.forall_mem_flatten]

end Verdict

namespace Ty

/-- Whether the values of a type are objects of one class. -/
def namesClass : Ty → Bool
  | .object _ _ | .builder _ => true
  | _ => false

/-- Whether no class occurs in a type. -/
def isNameless (t : Ty) : Bool :=
  t.everyPart fun part => !part.namesClass

theorem isNameless_eq_false {t : Ty} :
    t.isNameless = false ↔ t.namesClass = true ∨ ∃ part ∈ t.parts, part.isNameless = false := by
  have whole : t.isNameless = true ↔ _ := everyPart_iff
  rw [← Bool.not_eq_true, whole, Classical.not_and_iff_not_or_not]
  simp [isNameless]

mutual
def foldNames : Ty → Ty
  | .object name args => .object (Text.foldCase name) (foldNamesAll args)
  | .iterable key value => .iterable (foldNames key) (foldNames value)
  | .array key value => .array (foldNames key) (foldNames value)
  | .constArray entries => .constArray (foldNamesEntries entries)
  | .union ms => .union (foldNamesAll ms)
  | .intersection ms => .intersection (foldNamesAll ms)
  | .builder calls => .builder (foldNamesCalls calls)
  | t => t

def foldNamesAll : List Ty → List Ty
  | [] => []
  | t :: ts => foldNames t :: foldNamesAll ts

def foldNamesEntries : List (Ty × Ty) → List (Ty × Ty)
  | [] => []
  | (key, value) :: entries => (foldNames key, foldNames value) :: foldNamesEntries entries

def foldNamesCalls : List (BuilderCall Ty) → List (BuilderCall Ty)
  | [] => []
  | ⟨method, args⟩ :: calls => ⟨method, foldNamesAll args⟩ :: foldNamesCalls calls
end

theorem foldNamesAll_eq_map (ts : List Ty) : foldNamesAll ts = ts.map foldNames := by
  induction ts with
  | nil => rfl
  | cons t ts ih => rw [foldNamesAll, ih, List.map_cons]

theorem foldNamesEntries_eq_map (entries : List (Ty × Ty)) :
    foldNamesEntries entries = entries.map fun e => (e.1.foldNames, e.2.foldNames) := by
  induction entries with
  | nil => rfl
  | cons entry entries ih => rw [foldNamesEntries, ih, List.map_cons]

theorem parts_foldNames (t : Ty) : t.foldNames.parts = t.parts.map foldNames := by
  cases t with
  | object | union | intersection => exact foldNamesAll_eq_map _
  | constArray entries =>
    rw [foldNames, foldNamesEntries_eq_map, parts, parts, List.flatMap_map, List.map_flatMap]
    rfl
  | _ => rfl

theorem everyPart_foldNames {ok} (same : ∀ t : Ty, ok t.foldNames = ok t) (t : Ty) :
    t.foldNames.everyPart ok = t.everyPart ok := by
  induction t using parts_induction with
  | step t ih =>
    rw [Bool.eq_iff_iff, everyPart_iff, everyPart_iff, same, parts_foldNames,
      List.forall_mem_map]
    exact and_congr_right fun _ => forall₂_congr fun part inside => by rw [ih part inside]

/-- Whether the type is not written as a union with `mixed` among its members. -/
def keepsMixedApart : Ty → Bool
  | .union ms => !ms.contains .mixed
  | _ => true

theorem foldNames_eq_mixed {t : Ty} : t.foldNames = .mixed ↔ t = .mixed := by
  cases t <;> simp [foldNames]

theorem keepsMixedApart_foldNames (t : Ty) : t.foldNames.keepsMixedApart = t.keepsMixedApart := by
  cases t with
  | union ms =>
    have listed : .mixed ∈ foldNamesAll ms ↔ .mixed ∈ ms := by
      simp [foldNamesAll_eq_map, foldNames_eq_mixed]
    change (!(foldNamesAll ms).contains .mixed) = !ms.contains .mixed
    rw [Bool.eq_iff_iff]
    simp [listed]
  | _ => rfl

theorem mixed_mem_members {t : Ty} (apart : t.keepsMixedApart = true) :
    .mixed ∈ t.members ↔ t = .mixed := by
  cases t with
  | union ms =>
    have absent : .mixed ∉ ms := by simpa [keepsMixedApart] using apart
    exact ⟨fun inside => absurd inside absent, fun same => by cases same⟩
  | _ => simp [members]

theorem mixed_mem_flatMap {ts : List Ty} (apart : ∀ t ∈ ts, t.everyPart keepsMixedApart = true) :
    .mixed ∈ ts.flatMap members ↔ .mixed ∈ ts := by
  rw [List.mem_flatMap]
  constructor
  · rintro ⟨t, inside, member⟩
    exact (mixed_mem_members (everyPart_iff.mp (apart t inside)).1).mp member ▸ inside
  · intro inside
    exact ⟨.mixed, inside, List.mem_singleton.mpr rfl⟩

theorem keptByMerging_apart : KeptByMerging keepsMixedApart where
  plain t single _ := by
    cases t with
    | union ms => cases single
    | _ => rfl
  unite ts apart := by
    rw [unite_eq]
    split
    · rfl
    · rename_i known
      apply everyPart_pack (fun _ => rfl) rfl
      · intro _
        simpa [keepsMixedApart] using known
      · intro m inside
        obtain ⟨t, among, here⟩ := List.mem_flatMap.mp (mem_joined.mp inside)
        exact everyPart_members (apart t among) here
  meet ts apart := by
    apply everyPart_pack (fun _ => rfl) rfl fun _ => rfl
    intro m inside
    obtain ⟨t, among, here⟩ := List.mem_flatMap.mp (List.mem_eraseDups.mp inside)
    exact everyPart_factors (apart t among) here

/-- How types are merged: each is opened into members, these are combined, and an answer about the
    whole is what `judge` makes of the answers about them. -/
structure Merges (combine : List Ty → Ty) (opened : Ty → List Ty)
    (judge : List Verdict → Verdict) : Prop where
  nameless : ∀ ts, (combine ts).namesClass = false
  parts : ∀ ts, (combine ts).parts = ts
  opens : ∀ t, t = combine (opened t) ∨ opened t = [t] ∨ opened t = [] ∧ t = .mixed
  spread : ∀ f ts, spread f (combine ts) = judge (ts.map (spread f))
  single : ∀ v, judge [v] = v
  congr : ∀ {vs us : List Verdict}, (∀ v, v ∈ vs ↔ v ∈ us) → judge vs = judge us
  flatten : ∀ {vss : List (List Verdict)}, (∀ vs ∈ vss, vs ≠ []) →
    judge vss.flatten = judge (vss.map judge)

theorem merges_union : Merges .union members Verdict.agree where
  nameless _ := rfl
  parts _ := rfl
  opens t := by
    cases t with
    | union ms => exact .inl rfl
    | _ => exact .inr (.inl rfl)
  spread f ts := by rw [Ty.spread, spreadAll_eq_map]
  single _ := rfl
  congr := Verdict.agree_congr
  flatten := Verdict.agree_flatten

theorem merges_intersection : Merges .intersection factors Verdict.any where
  nameless _ := rfl
  parts _ := rfl
  opens t := by
    cases t with
    | intersection ms => exact .inl rfl
    | mixed => exact .inr (.inr ⟨rfl, rfl⟩)
    | _ => exact .inr (.inl rfl)
  spread f ts := by rw [Ty.spread, spreadAll_eq_map]
  single v := by cases v <;> rfl
  congr := Verdict.any_congr
  flatten _ := Verdict.any_flatten _

namespace Merges

variable {combine : List Ty → Ty} {opened : Ty → List Ty} {judge : List Verdict → Verdict}
  (merges : Merges combine opened judge)
include merges
variable {ts : List Ty}

theorem isNameless_combine : (combine ts).isNameless = false ↔ ∃ t ∈ ts, t.isNameless = false := by
  rw [isNameless_eq_false, merges.nameless, merges.parts]
  simp

theorem isNameless_opened {t} (named : t.isNameless = false) :
    ∃ m ∈ opened t, m.isNameless = false := by
  rcases merges.opens t with whole | single | ⟨-, rfl⟩
  · rw [whole] at named
    exact merges.isNameless_combine.mp named
  · rw [single]
    exact ⟨t, by simp, named⟩
  · cases named

theorem isNameless_pack {m} (inside : m ∈ ts) (named : m.isNameless = false) :
    (pack combine ts).isNameless = false := by
  cases ts with
  | nil => cases inside
  | cons first rest =>
    cases rest with
    | nil => rwa [List.mem_singleton.mp inside] at named
    | cons second rest => exact merges.isNameless_combine.mpr ⟨m, inside, named⟩

theorem spread_pack (f : Ty → Verdict) (some : ts ≠ []) :
    Ty.spread f (pack combine ts) = judge (ts.map (Ty.spread f)) := by
  cases ts with
  | nil => contradiction
  | cons first rest =>
    cases rest with
    | nil => exact (merges.single _).symm
    | cons second rest => exact merges.spread f _

theorem spread_opened (f : Ty → Verdict) {t} (some : opened t ≠ []) :
    judge ((opened t).map (Ty.spread f)) = Ty.spread f t := by
  rcases merges.opens t with whole | single | ⟨empty, -⟩
  · rw [← merges.spread, ← whole]
  · rw [single]
    exact merges.single _
  · exact absurd empty some

/-- The answer about merged types is settled by the answers about those that have members. -/
theorem spread_pack_of_mem (f : Ty → Verdict) {kept} (some : kept ≠ [])
    (same : ∀ m, m ∈ kept ↔ m ∈ ts.flatMap opened) :
    Ty.spread f (pack combine kept) =
      judge ((ts.filter fun t => !(opened t).isEmpty).map (Ty.spread f)) := by
  have filled : ∀ t ∈ ts.filter fun t => !(opened t).isEmpty, opened t ≠ [] := by simp
  have answers : ∀ v, v ∈ kept.map (Ty.spread f) ↔
      v ∈ ((ts.filter fun t => !(opened t).isEmpty).map
        fun t => (opened t).map (Ty.spread f)).flatten := by
    intro v
    rw [← List.flatMap_def, List.mem_map, List.mem_flatMap]
    constructor
    · rintro ⟨m, inside, rfl⟩
      obtain ⟨t, among, member⟩ := List.mem_flatMap.mp ((same m).mp inside)
      have some : (opened t).isEmpty = false := by simpa using List.ne_nil_of_mem member
      exact ⟨t, List.mem_filter.mpr ⟨among, by simp [some]⟩, List.mem_map_of_mem member⟩
    · rintro ⟨t, among, answer⟩
      obtain ⟨m, member, rfl⟩ := List.mem_map.mp answer
      exact ⟨m, (same m).mpr (List.mem_flatMap_of_mem (List.mem_filter.mp among).1 member), rfl⟩
  rw [merges.spread_pack f some, merges.congr answers, merges.flatten, List.map_map]
  · exact congrArg judge (List.map_congr_left fun t among =>
      merges.spread_opened f (filled t among))
  · refine List.forall_mem_map.mpr fun t among => ?_
    simpa using filled t among

end Merges

end Ty

end EntityAudit
