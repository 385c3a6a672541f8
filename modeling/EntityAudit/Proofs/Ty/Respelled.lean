import EntityAudit.Proofs.Class.Spelling

/-! # Acceptance and the spelling of class names

No answer about two types depends on the case of the class names in them or in the declared parents,
as long as no union lists `mixed`. Structural equality does depend on it, so types with generic
arguments are merged differently when names are spelled in another way. What stays is that no
accepting type can tell them apart: types are called indistinct up to a bound on the size of the
types that judge them, every way to make types keeps them so, and for classes this goes by induction
on the bound.
-/

namespace EntityAudit

namespace Ty

/-- Whether the types are equal or classes occur in both. -/
def SameOrNamed (t t' : Ty) : Prop :=
  t = t' ∨ t.isNameless = false ∧ t'.isNameless = false

theorem SameOrNamed.eq_of_nameless {t t' : Ty} (both : t.SameOrNamed t')
    (nameless : t.isNameless = true ∨ t'.isNameless = true) : t = t' := by
  rcases both with same | ⟨named, named'⟩
  · exact same
  · simp [named, named'] at nameless

theorem sameOrNamed_all {ts ts'} (each : List.Forall₂ SameOrNamed ts ts') :
    ts = ts' ∨ (∃ t ∈ ts, t.isNameless = false) ∧ ∃ t' ∈ ts', t'.isNameless = false := by
  induction each with
  | nil => exact .inl rfl
  | cons first later ih =>
    rcases first with rfl | ⟨named, named'⟩
    · rcases ih with rfl | ⟨⟨t, inside, named⟩, t', inside', named'⟩
      · exact .inl rfl
      · exact .inr ⟨⟨t, .tail _ inside, named⟩, t', .tail _ inside', named'⟩
    · exact .inr ⟨⟨_, .head _, named⟩, _, .head _, named'⟩

variable {table : ClassTable} {bound : Nat}

/-- Whether a type is made of no others and names no class. -/
def isAtom : Ty → Bool
  | .object _ _ | .builder _ | .iterable _ _ | .array _ _ | .constArray _ | .union _
  | .intersection _ => false
  | _ => true

/-- Types of a size below `bound` answer alike about `b` in the table and about `b'` in the table
    with names in lower case. No union in `b` or `b'` lists `mixed`, and they are equal unless a
    class occurs in them. -/
structure Indistinct (table : ClassTable) (bound : Nat) (b b' : Ty) : Prop where
  apart : b.everyPart keepsMixedApart = true
  apart' : b'.everyPart keepsMixedApart = true
  same : b.SameOrNamed b'
  judged : ∀ a : Ty, sizeOf a < bound → a.accepts table b = a.foldNames.accepts table.foldNames b'

theorem isWhole_foldNames (a : Ty) : a.foldNames.isWhole = a.isWhole := by
  cases a <;> rfl

theorem against_congr_of_no {decide decide' b} (leaf : b.isLeaf = true) (no : decide b = .no)
    (no' : decide' b = .no) : against decide b = against decide' b := by
  rw [against, against, spread_of_isLeaf leaf, spread_of_isLeaf leaf]
  cases b with
  | mixed | template => rfl
  | _ => exact no.trans no'.symm

/-- It is enough to compare the answers of types that look at the right side as it is. -/
theorem judged_of_leaf {b b'}
    (leaf : ∀ a : Ty, a.isLeaf = true → sizeOf a < bound →
      a.accepts table b = a.foldNames.accepts table.foldNames b')
    (union : ∀ ms, sizeOf (union ms) < bound →
      (∀ m ∈ ms, m.accepts table b = m.foldNames.accepts table.foldNames b') →
      (Ty.union ms).accepts table b = (Ty.union ms).foldNames.accepts table.foldNames b') (a : Ty)
    (small : sizeOf a < bound) : a.accepts table b = a.foldNames.accepts table.foldNames b' := by
  induction a using members_induction with
  | leaf a own => exact leaf a own small
  | union ms ih =>
    refine union ms small fun m inside => ih m inside (Nat.lt_trans ?_ small)
    have part : m ∈ (Ty.union ms).parts := inside
    exact sizeOf_part part
  | intersection ms ih =>
    change Verdict.all (acceptsEach table ms b) =
      Verdict.all (acceptsEach table.foldNames (foldNamesAll ms) b')
    rw [acceptsEach_eq_map, acceptsEach_eq_map, foldNamesAll_eq_map, List.map_map]
    refine congrArg Verdict.all (List.map_congr_left fun m inside => ?_)
    have part : m ∈ (Ty.intersection ms).parts := inside
    exact ih m inside (Nat.lt_trans (sizeOf_part part) small)

theorem judged_of_apart {b b'}
    (each : ∀ a : Ty, a.isWhole = false → sizeOf a < bound →
      a.accepts table b = a.foldNames.accepts table.foldNames b') :
    ∀ a : Ty, sizeOf a < bound → a.accepts table b = a.foldNames.accepts table.foldNames b' := by
  refine judged_of_leaf (fun a leaf small => ?_) fun ms small _ => each _ rfl small
  cases whole : a.isWhole with
  | false => exact each a whole small
  | true =>
    cases a with
    | mixed | template => rfl
    | intersection => cases leaf
    | _ => cases whole

theorem judged_of_isLeaf {b b'} (single : b.isLeaf = true) (single' : b'.isLeaf = true)
    (leaf : ∀ a : Ty, a.isLeaf = true → sizeOf a < bound →
      a.accepts table b = a.foldNames.accepts table.foldNames b') :
    ∀ a : Ty, sizeOf a < bound → a.accepts table b = a.foldNames.accepts table.foldNames b' := by
  refine judged_of_leaf leaf fun ms _ each => ?_
  change spread (fun t => Verdict.any (acceptsEach table ms t)) b =
    spread (fun t => Verdict.any (acceptsEach table.foldNames (foldNamesAll ms) t)) b'
  rw [spread_of_isLeaf single, spread_of_isLeaf single', acceptsEach_eq_map, acceptsEach_eq_map,
    foldNamesAll_eq_map, List.map_map]
  exact congrArg Verdict.any (List.map_congr_left each)

namespace Indistinct

variable {b b' : Ty}

theorem mono {less} (le : less ≤ bound) (alike : Indistinct table bound b b') :
    Indistinct table less b b' :=
  { alike with judged := fun a small => alike.judged a (Nat.lt_of_lt_of_le small le) }

theorem atom (simple : b.isAtom = true) : Indistinct table bound b b := by
  have leaf : b.isLeaf = true := by
    cases b with
    | union | intersection => cases simple
    | _ => rfl
  have apart : b.everyPart keepsMixedApart = true := by
    cases b with
    | object | iterable | array | constArray | union | intersection => cases simple
    | _ => rfl
  refine ⟨apart, apart, .inl rfl, judged_of_isLeaf leaf leaf fun a own _ => ?_⟩
  cases a with
  | union | intersection => cases own
  | object | builder | iterable | array =>
    refine against_congr_of_no leaf ?_ ?_ <;> cases b with
    | object | builder | iterable | array | constArray => cases simple
    | _ => rfl
  | _ => rfl

theorem mixed : Indistinct table bound .mixed .mixed :=
  atom rfl

theorem apart_all {ts ts'} (each : List.Forall₂ (Indistinct table bound) ts ts') :
    (∀ t ∈ ts, t.everyPart keepsMixedApart = true) ∧
      ∀ t' ∈ ts', t'.everyPart keepsMixedApart = true :=
  ⟨((List.forall₂_and_left _ _).mp (each.imp fun _ _ alike => ⟨alike.apart, alike⟩)).1,
    ((List.forall₂_and_left _ _).mp (each.flip.imp fun _ _ alike => ⟨alike.apart', alike⟩)).1⟩

theorem of_parts (own : b.keepsMixedApart = true) (own' : b'.keepsMixedApart = true)
    (parts : List.Forall₂ (Indistinct table bound) b.parts b'.parts)
    (same : b.parts = b'.parts → b.SameOrNamed b')
    (judged : ∀ a : Ty, sizeOf a < bound →
      a.accepts table b = a.foldNames.accepts table.foldNames b') :
    Indistinct table bound b b' where
  apart := everyPart_iff.mpr ⟨own, (apart_all parts).1⟩
  apart' := everyPart_iff.mpr ⟨own', (apart_all parts).2⟩
  same := by
    rcases sameOrNamed_all (parts.imp fun _ _ alike => alike.same) with equal | ⟨named, named'⟩
    · exact same equal
    · exact .inr ⟨isNameless_eq_false.mpr (.inr named), isNameless_eq_false.mpr (.inr named')⟩
  judged := judged

section Pairs

variable {key key' value value' : Ty} (keys : Indistinct table bound key key')
  (values : Indistinct table bound value value')

include keys values

theorem judged_and {k v : Ty} (small : sizeOf k + sizeOf v < bound) :
    (k.accepts table key).and (v.accepts table value) =
      (k.foldNames.accepts table.foldNames key').and
        (v.foldNames.accepts table.foldNames value') := by
  rw [keys.judged k (by omega), values.judged v (by omega)]

theorem iterable (apart : table.KeepsMixedApart) :
    Indistinct table bound (.iterable key value) (.iterable key' value') := by
  refine of_parts rfl rfl (.cons keys (.cons values .nil)) (fun same => ?_)
    (judged_of_isLeaf rfl rfl fun a own small => ?_)
  · cases same
    exact .inl rfl
  · cases a with
    | union | intersection => cases own
    | iterable k v =>
      simp only [iterable.sizeOf_spec] at small
      exact keys.judged_and values (k := k) (v := v) (by omega)
    | object name args =>
      change (if table.descends ⟨name, args⟩ ClassName.traversable then Verdict.maybe else .no) =
        if table.foldNames.descends ⟨Text.foldCase name, foldNamesAll args⟩ ClassName.traversable
          then .maybe else .no
      have folded : ClassType.Matches (fun _ _ => True) ⟨name, args⟩
          ⟨Text.foldCase name, foldNamesAll args⟩ := by
        refine ⟨(Text.foldCase_foldCase name).symm, ?_⟩
        rw [foldNamesAll_eq_map, List.forall₂_map_right_iff]
        exact List.forall₂_same.mpr fun _ _ => trivial
      rw [ClassTable.descends_foldNames apart folded rfl]
    | _ => rfl

theorem array :
    Indistinct table bound (.array key value) (.array key' value') := by
  refine of_parts rfl rfl (.cons keys (.cons values .nil)) (fun same => ?_)
    (judged_of_isLeaf rfl rfl fun a own small => ?_)
  · cases same
    exact .inl rfl
  · cases a with
    | union | intersection => cases own
    | iterable k v | array k v =>
      simp only [iterable.sizeOf_spec, array.sizeOf_spec] at small
      exact keys.judged_and values (k := k) (v := v) (by omega)
    -- Plain `rfl` would look for a proof that both sides ask the same of the two tables.
    | object => exact Eq.trans (b := Verdict.no) rfl rfl
    | _ => rfl

end Pairs

theorem constArray {entries}
    (each : ∀ part ∈ (constArray entries).parts, Indistinct table bound part part.foldNames) :
    Indistinct table bound (.constArray entries) (Ty.constArray entries).foldNames := by
  have parts : List.Forall₂ (Indistinct table bound) (Ty.constArray entries).parts
      (Ty.constArray entries).foldNames.parts := by
    rw [parts_foldNames, List.forall₂_map_right_iff]
    exact List.forall₂_same.mpr each
  have inside : ∀ e ∈ entries, e.1 ∈ (Ty.constArray entries).parts ∧
      e.2 ∈ (Ty.constArray entries).parts := fun e among =>
    ⟨List.mem_flatMap_of_mem among (by simp), List.mem_flatMap_of_mem among (by simp)⟩
  have listed (k v : Ty) (small : sizeOf k < bound ∧ sizeOf v < bound) :
      Verdict.all (entries.map (fun e => k.accepts table e.1) ++
          entries.map (fun e => v.accepts table e.2)) =
        Verdict.all ((foldNamesEntries entries).map
            (fun e => k.foldNames.accepts table.foldNames e.1) ++
          (foldNamesEntries entries).map (fun e => v.foldNames.accepts table.foldNames e.2)) := by
    rw [foldNamesEntries_eq_map, List.map_map, List.map_map]
    refine congrArg Verdict.all (congrArg₂ (· ++ ·) ?_ ?_) <;>
      refine List.map_congr_left fun e among => ?_
    · exact (each _ (inside e among).1).judged k small.1
    · exact (each _ (inside e among).2).judged v small.2
  refine of_parts rfl rfl parts (fun same => .inl ?_)
    (judged_of_isLeaf rfl rfl fun a own small => ?_)
  · rw [parts_foldNames] at same
    have kept : ∀ part ∈ (Ty.constArray entries).parts, part.foldNames = part :=
      List.map_inj_left.mp (same.symm.trans (List.map_id _).symm)
    have folded : entries.map (fun e => (e.1.foldNames, e.2.foldNames)) = entries.map id :=
      List.map_congr_left fun e among =>
        Prod.ext (kept _ (inside e among).1) (kept _ (inside e among).2)
    rw [foldNames, foldNamesEntries_eq_map, folded, List.map_id]
  · cases a with
    | union | intersection => cases own
    | iterable k v | array k v =>
      have smaller : sizeOf k < bound ∧ sizeOf v < bound := by
        simp only [iterable.sizeOf_spec, array.sizeOf_spec] at small
        omega
      exact listed k v smaller
    | object => exact Eq.trans (b := Verdict.no) rfl rfl
    | _ => rfl

theorem map_spread {ts ts'} (each : List.Forall₂ (Indistinct table bound) ts ts') {a : Ty}
    (whole : a.isWhole = false) (small : sizeOf a < bound) :
    ts.map (spread (a.accepts table)) =
      ts'.map (spread (a.foldNames.accepts table.foldNames)) := by
  rw [← List.forall₂_eq_eq_eq, List.forall₂_map_left_iff, List.forall₂_map_right_iff]
  refine each.imp fun t t' alike => ?_
  rw [spread_accepts whole, spread_accepts ((isWhole_foldNames a).trans whole)]
  exact alike.judged a small

section

variable {combine : List Ty → Ty} {opened : Ty → List Ty} {judge : List Verdict → Verdict}
  (merges : Merges combine opened judge) {ts ts' : List Ty}
  (each : List.Forall₂ (Indistinct table bound) ts ts')
include merges each

theorem merged (own : (combine ts).keepsMixedApart = true)
    (own' : (combine ts').keepsMixedApart = true) :
    Indistinct table bound (combine ts) (combine ts') := by
  refine of_parts own own' (by rwa [merges.parts, merges.parts]) (fun same => ?_)
    (judged_of_apart fun a whole small => ?_)
  · rw [merges.parts, merges.parts] at same
    exact .inl (congrArg combine same)
  · rw [← spread_accepts whole, ← spread_accepts ((isWhole_foldNames a).trans whole),
      merges.spread, merges.spread, map_spread each whole small]

theorem map_filter_opened {a : Ty} (whole : a.isWhole = false) (small : sizeOf a < bound) :
    (ts.filter fun t => !(opened t).isEmpty).map (spread (a.accepts table)) =
      (ts'.filter fun t => !(opened t).isEmpty).map
        (spread (a.foldNames.accepts table.foldNames)) := by
  refine map_spread (List.rel_filter (fun t t' alike => ?_) each) whole small
  rcases alike.same with rfl | ⟨named, named'⟩
  · exact Iff.rfl
  · obtain ⟨m, inside, -⟩ := merges.isNameless_opened named
    obtain ⟨m', inside', -⟩ := merges.isNameless_opened named'
    simp [List.ne_nil_of_mem inside, List.ne_nil_of_mem inside']

/-- Merging by any choice `keep` of the members that leaves none out. -/
theorem packed {keep : List Ty → List Ty} (mem_keep : ∀ flat m, m ∈ keep flat ↔ m ∈ flat)
    (apart : (Ty.pack combine (keep (ts.flatMap opened))).everyPart keepsMixedApart = true)
    (apart' : (Ty.pack combine (keep (ts'.flatMap opened))).everyPart keepsMixedApart = true) :
    Indistinct table bound (Ty.pack combine (keep (ts.flatMap opened)))
      (Ty.pack combine (keep (ts'.flatMap opened))) := by
  have filled {flat : List Ty} (some : flat ≠ []) : keep flat ≠ [] := by
    obtain ⟨m, inside⟩ := List.exists_mem_of_ne_nil flat some
    exact List.ne_nil_of_mem ((mem_keep flat m).mpr inside)
  have judged (some : ts.flatMap opened ≠ []) (some' : ts'.flatMap opened ≠ []) (a : Ty)
      (whole : a.isWhole = false) (small : sizeOf a < bound) :
      a.accepts table (Ty.pack combine (keep (ts.flatMap opened))) =
        a.foldNames.accepts table.foldNames (Ty.pack combine (keep (ts'.flatMap opened))) := by
    rw [← spread_accepts whole, ← spread_accepts ((isWhole_foldNames a).trans whole),
      merges.spread_pack_of_mem _ (filled some) (mem_keep _),
      merges.spread_pack_of_mem _ (filled some') (mem_keep _),
      map_filter_opened merges each whole small]
  rcases sameOrNamed_all (each.imp fun _ _ alike => alike.same) with rfl | ⟨named, named'⟩
  · refine ⟨apart, apart', .inl rfl, ?_⟩
    by_cases empty : ts.flatMap opened = []
    · have none : keep (ts.flatMap opened) = [] := by
        refine List.eq_nil_iff_forall_not_mem.mpr fun m inside => ?_
        rw [mem_keep, empty] at inside
        cases inside
      rw [none]
      exact mixed.judged
    · exact judged_of_apart (judged empty empty)
  · obtain ⟨t, inside, named⟩ := named
    obtain ⟨t', inside', named'⟩ := named'
    obtain ⟨m, member, named⟩ := merges.isNameless_opened named
    obtain ⟨m', member', named'⟩ := merges.isNameless_opened named'
    have among := List.mem_flatMap_of_mem inside member
    have among' := List.mem_flatMap_of_mem inside' member'
    exact ⟨apart, apart', .inr ⟨merges.isNameless_pack ((mem_keep _ _).mpr among) named,
      merges.isNameless_pack ((mem_keep _ _).mpr among') named'⟩,
      judged_of_apart (judged (List.ne_nil_of_mem among) (List.ne_nil_of_mem among'))⟩

end

variable {ts ts' : List Ty} (each : List.Forall₂ (Indistinct table bound) ts ts')

include each

theorem mixed_mem_iff :
    Ty.mixed ∈ ts ↔ Ty.mixed ∈ ts' := by
  induction each with
  | nil => rfl
  | @cons t t' _ _ first later ih =>
    have head : Ty.mixed = t ↔ Ty.mixed = t' := by
      constructor
      · rintro rfl
        exact first.same.eq_of_nameless (.inl rfl)
      · rintro rfl
        exact (first.same.eq_of_nameless (.inr rfl)).symm
    rw [List.mem_cons, List.mem_cons, head, ih]

theorem unite :
    Indistinct table bound (Ty.unite ts) (Ty.unite ts') := by
  obtain ⟨apart, apart'⟩ := apart_all each
  have whole := keptByMerging_apart.unite ts apart
  have whole' := keptByMerging_apart.unite ts' apart'
  have listed : (ts.flatMap members).contains .mixed = (ts'.flatMap members).contains .mixed := by
    rw [Bool.eq_iff_iff, List.contains_iff_mem, List.contains_iff_mem, mixed_mem_flatMap apart,
      mixed_mem_flatMap apart', mixed_mem_iff each]
  rw [unite_eq] at whole ⊢
  rw [unite_eq, ← listed] at whole' ⊢
  cases known : (ts.flatMap members).contains .mixed with
  | true => exact mixed
  | false =>
    rw [known] at whole whole'
    exact packed merges_union each (fun _ _ => mem_joined) whole whole'

theorem meet :
    Indistinct table bound (Ty.meet ts) (Ty.meet ts') := by
  obtain ⟨apart, apart'⟩ := apart_all each
  exact packed merges_intersection each (fun _ _ => List.mem_eraseDups)
    (keptByMerging_apart.meet ts apart) (keptByMerging_apart.meet ts' apart')

end Indistinct

/-- Objects of one class with indistinct arguments are indistinct, whatever the case of its name,
    and so are query builders. -/
structure ClassesIndistinct (table : ClassTable) (bound : Nat) : Prop where
  object : ∀ (name : String) {args args' : List Ty},
    List.Forall₂ (Indistinct table bound) args args' →
      Indistinct table bound (.object name args) (.object (Text.foldCase name) args')
  builder : ∀ calls calls', Indistinct table bound (.builder calls) (.builder calls')

namespace ClassesIndistinct

variable (apart : table.KeepsMixedApart) (classes : ClassesIndistinct table bound)
include apart classes

theorem foldNames {t} (own : t.everyPart keepsMixedApart = true) :
    Indistinct table bound t t.foldNames := by
  induction t using parts_induction with
  | step t ih =>
    have folded : t.foldNames.everyPart keepsMixedApart = true := by
      rw [everyPart_foldNames keepsMixedApart_foldNames, own]
    have each : ∀ part ∈ t.parts, Indistinct table bound part part.foldNames :=
      fun part inside => ih part inside ((everyPart_iff.mp own).2 part inside)
    have all {ts : List Ty} (each : ∀ part ∈ ts, Indistinct table bound part part.foldNames) :
        List.Forall₂ (Indistinct table bound) ts (foldNamesAll ts) := by
      rw [foldNamesAll_eq_map, List.forall₂_map_right_iff]
      exact List.forall₂_same.mpr each
    cases t with
    | object name args => exact classes.object name (all each)
    | iterable key value =>
      exact .iterable (each key (by simp [parts])) (each value (by simp [parts])) apart
    | array key value => exact .array (each key (by simp [parts])) (each value (by simp [parts]))
    | constArray entries => exact .constArray each
    | union ms =>
      exact .merged merges_union (all each) (everyPart_iff.mp own).1 (everyPart_iff.mp folded).1
    | intersection ms => exact .merged merges_intersection (all each) rfl rfl
    | builder calls => exact classes.builder calls _
    | _ => exact .atom rfl

theorem substitute {binding binding'}
    (bindings : ∀ name, Option.Rel (Indistinct table bound) (binding.get? name)
      (binding'.get? name)) {t : Ty} (own : t.everyPart keepsMixedApart = true) :
    Indistinct table bound (t.substitute binding) (t.foldNames.substitute binding') := by
  induction t using parts_induction with
  | step t ih =>
    have each : ∀ part ∈ t.parts,
        Indistinct table bound (part.substitute binding) (part.foldNames.substitute binding') :=
      fun part inside => ih part inside ((everyPart_iff.mp own).2 part inside)
    have all {ts : List Ty} (each : ∀ part ∈ ts,
        Indistinct table bound (part.substitute binding) (part.foldNames.substitute binding')) :
        List.Forall₂ (Indistinct table bound) (substituteAll binding ts)
          (substituteAll binding' (foldNamesAll ts)) := by
      rw [substituteAll_eq_map, substituteAll_eq_map, foldNamesAll_eq_map, List.map_map,
        List.forall₂_map_left_iff, List.forall₂_map_right_iff]
      exact List.forall₂_same.mpr each
    cases t with
    | template name =>
      change Indistinct _ _ ((binding.get? name).getD .mixed) ((binding'.get? name).getD .mixed)
      have both := bindings name
      generalize binding.get? name = found at both
      generalize binding'.get? name = found' at both
      cases both with
      | none => exact .mixed
      | some alike => exact alike
    | object name args => exact classes.object name (all each)
    | iterable key value =>
      exact .iterable (each key (by simp [parts])) (each value (by simp [parts])) apart
    | array key value => exact .array (each key (by simp [parts])) (each value (by simp [parts]))
    | union ms => exact .unite (all each)
    | intersection ms => exact .meet (all each)
    | _ => exact classes.foldNames apart own

theorem kept : KeptByFolding (Indistinct table bound) where
  mixed := .mixed
  substitute bindings _ own := classes.substitute apart bindings own

end ClassesIndistinct

theorem Indistinct.acceptsArgs {xs args args'} (small : ∀ x ∈ xs, sizeOf x < bound)
    (each : List.Forall₂ (Indistinct table bound) args args') :
    acceptsArgs table xs args = acceptsArgs table.foldNames (foldNamesAll xs) args' := by
  induction xs generalizing args args' with
  | nil => rfl
  | cons x xs ih =>
    obtain ⟨first, later⟩ := List.forall_mem_cons.mp small
    cases each with
    | nil =>
      change x.accepts table .mixed :: Ty.acceptsArgs table xs [] =
        x.foldNames.accepts table.foldNames .mixed ::
          Ty.acceptsArgs table.foldNames (foldNamesAll xs) []
      rw [Indistinct.mixed.judged x first, ih later .nil]
    | @cons arg arg' args args' alike rest =>
      change x.accepts table arg :: Ty.acceptsArgs table xs args =
        x.foldNames.accepts table.foldNames arg' ::
          Ty.acceptsArgs table.foldNames (foldNamesAll xs) args'
      rw [alike.judged x first, ih later rest]

theorem Indistinct.judgedArgs {xs} (small : sizeOf xs < bound) (args args' : List Ty)
    (each : List.Forall₂ (Indistinct table bound) args args') :
    (if xs.isEmpty || args.isEmpty then Verdict.yes
      else Verdict.all (Ty.acceptsArgs table xs args)) =
    if (foldNamesAll xs).isEmpty || args'.isEmpty then Verdict.yes
      else Verdict.all (Ty.acceptsArgs table.foldNames (foldNamesAll xs) args') := by
  have below : ∀ x ∈ xs, sizeOf x < bound := fun x inside =>
    Nat.lt_trans (List.sizeOf_lt_of_mem inside) small
  have empty : args.isEmpty = args'.isEmpty := by cases each <;> rfl
  rw [Indistinct.acceptsArgs below each, empty, foldNamesAll_eq_map, List.isEmpty_map]

theorem Indistinct.getD {args args'} (each : List.Forall₂ (Indistinct table bound) args args')
    (i : Nat) : Indistinct table bound (args[i]?.getD .mixed) (args'[i]?.getD .mixed) := by
  induction each generalizing i with
  | nil => exact .mixed
  | cons alike _ ih =>
    cases i with
    | zero => exact alike
    | succ i => exact ih i

section Objects

variable (apart : table.KeepsMixedApart) (kept : KeptByFolding (Indistinct table bound))
  {c c' : ClassType} (matching : c.Matches (Indistinct table bound) c')
include apart kept matching

theorem accepts_object_congr {name xs} (small : sizeOf xs < bound) :
    table.acceptsClass name (fun args => if xs.isEmpty || args.isEmpty then .yes
        else Verdict.all (acceptsArgs table xs args)) c =
      table.foldNames.acceptsClass (Text.foldCase name)
        (fun args => if (foldNamesAll xs).isEmpty || args.isEmpty then .yes
          else Verdict.all (acceptsArgs table.foldNames (foldNamesAll xs) args)) c' :=
  ClassTable.acceptsClass_foldNames apart kept (Text.foldCase_foldCase name).symm
    (Indistinct.judgedArgs small) matching

theorem accepts_iterable_congr {k v} (small : sizeOf (Ty.iterable k v) ≤ bound) :
    (Ty.iterable k v).accepts table c.toTy =
      (Ty.iterable k v).foldNames.accepts table.foldNames c'.toTy := by
  have found : Option.Rel _ (table.ancestor? c ClassName.traversable)
      (table.foldNames.ancestor? c' ClassName.traversable) :=
    ClassTable.ancestor?_matches apart kept matching rfl
  have known : table.foldNames.has c'.name = table.has c.name :=
    ClassTable.has_foldNames matching.name
  obtain ⟨name, args⟩ := c
  obtain ⟨name', args'⟩ := c'
  change against _ (.object name args) = against _ (.object name' args')
  simp only [against, spread, unlessOpen, known]
  generalize table.ancestor? ⟨name, args⟩ ClassName.traversable = seen at found
  generalize table.foldNames.ancestor? ⟨name', args'⟩ ClassName.traversable = seen' at found
  simp only [iterable.sizeOf_spec] at small
  cases found with
  | none => rfl
  | some both =>
    dsimp only
    rw [(Indistinct.getD both.args 0).judged k (by omega),
      (Indistinct.getD both.args 1).judged v (by omega)]

end Objects

theorem classesIndistinct (apart : table.KeepsMixedApart) (bound : Nat) :
    ClassesIndistinct table bound := by
  induction bound using Nat.strongRecOn with
  | ind bound ih =>
    have kept {a : Ty} (small : sizeOf a < bound) :
        KeptByFolding (Indistinct table (sizeOf a)) :=
      (ih (sizeOf a) small).kept apart
    have named (t : Ty) (names : t.namesClass = true) : t.isNameless = false :=
      isNameless_eq_false.mpr (.inl names)
    constructor
    · intro name args args' each
      refine .of_parts rfl rfl each (fun _ => .inr ⟨named _ rfl, named _ rfl⟩)
        (judged_of_isLeaf rfl rfl fun a own small => ?_)
      have matching : ClassType.Matches (Indistinct table (sizeOf a)) ⟨name, args⟩
          ⟨Text.foldCase name, args'⟩ :=
        ⟨(Text.foldCase_foldCase name).symm,
          each.imp fun _ _ alike => alike.mono (Nat.le_of_lt small)⟩
      cases a with
      | union | intersection => cases own
      | object m xs =>
        exact accepts_object_congr apart (kept small) matching (by rw [object.sizeOf_spec]; omega)
      | builder =>
        exact ClassTable.acceptsClass_foldNames apart (kept small) rfl (fun _ _ _ => rfl)
          matching
      | iterable k v =>
        exact accepts_iterable_congr apart (kept small) matching (Nat.le_refl _)
      | _ => rfl
    · intro calls calls'
      refine .of_parts rfl rfl .nil (fun _ => .inr ⟨named _ rfl, named _ rfl⟩)
        (judged_of_isLeaf rfl rfl fun a own small => ?_)
      cases a with
      | union | intersection => cases own
      | object m xs =>
        exact accepts_object_congr apart (kept small) ⟨rfl, .nil⟩ (by rw [object.sizeOf_spec]; omega)
      | _ => rfl

theorem accepts_foldNames (apart : table.KeepsMixedApart) (a : Ty) {b}
    (own : b.everyPart keepsMixedApart = true) :
    a.accepts table b = a.foldNames.accepts table.foldNames b.foldNames :=
  ((classesIndistinct apart _).foldNames apart own).judged a (Nat.lt_succ_self _)

/-- The types are the same but for the case of the class names in them. -/
def SpelledLike (t t' : Ty) : Prop :=
  t.foldNames = t'.foldNames

instance (t t' : Ty) : Decidable (t.SpelledLike t') :=
  inferInstanceAs (Decidable (t.foldNames = t'.foldNames))

theorem SpelledLike.keepsMixedApart {t t' : Ty} (spelled : t.SpelledLike t')
    (own : t.everyPart Ty.keepsMixedApart = true) : t'.everyPart Ty.keepsMixedApart = true := by
  rwa [← everyPart_foldNames keepsMixedApart_foldNames, ← spelled,
    everyPart_foldNames keepsMixedApart_foldNames]

end Ty

/-- The classes are the same but for the case of their names and of the class names in their
    parents. -/
def ClassInfo.SpelledLike (c c' : ClassInfo) : Prop :=
  c.foldNames = c'.foldNames

theorem ClassTable.foldNames_of_spelledLike (table : ClassTable) {classes classes'}
    (spelled : List.Forall₂ ClassInfo.SpelledLike classes classes') :
    (classes.foldl register table).foldNames = (classes'.foldl register table).foldNames := by
  have folded : classes.map ClassInfo.foldNames = classes'.map ClassInfo.foldNames := by
    rw [← List.forall₂_eq_eq_eq, List.forall₂_map_left_iff, List.forall₂_map_right_iff]
    exact spelled
  rw [foldNames_foldl_register, folded, ← foldNames_foldl_register]

namespace Ty

/-- The case of class names does not matter to acceptance: neither in the types compared nor in the
    parents of the registered classes. The right side and the parents are without unions that list
    `mixed`; `unite` makes no such union. -/
theorem accepts_of_spelledLike (table : ClassTable) {classes classes' : List ClassInfo}
    (spelled : List.Forall₂ ClassInfo.SpelledLike classes classes')
    (apart : (classes.foldl .register table).KeepsMixedApart) {a a' b b' : Ty}
    (left : a.SpelledLike a') (right : b.SpelledLike b')
    (own : b.everyPart keepsMixedApart = true) :
    a.accepts (classes.foldl .register table) b =
      a'.accepts (classes'.foldl .register table) b' := by
  have tables := table.foldNames_of_spelledLike spelled
  have apart' : (classes'.foldl .register table).KeepsMixedApart := by
    rwa [← ClassTable.keepsMixedApart_foldNames, ← tables, ClassTable.keepsMixedApart_foldNames]
  have folded : a.foldNames = a'.foldNames ∧ b.foldNames = b'.foldNames := ⟨left, right⟩
  rw [accepts_foldNames apart a own, accepts_foldNames apart' a' (right.keepsMixedApart own),
    tables, folded.1, folded.2]

/-- Pairs, which are boxes, under the name `box`, of a type made of the types `A` and `B` of their
    halves. -/
def pair (box : String) (held : Ty) : ClassInfo :=
  { name := "Pair", templates := ["A", "B"], parents := [⟨box, [held]⟩] }

/-- As boxes of either half, pairs of one class are boxes of a union in which the class stands once
    or, if it is spelled in two ways, twice. -/
theorem accepts_of_spelledLike_pair :
    let either := Ty.union [.template "A", .template "B"]
    (ofClass "X").SpelledLike (ofClass "x") ∧
      (Ty.object "Box" [.ofClass "X"]).accepts (ClassTable.register {} (pair "Box" either))
          (.object "Pair" [.ofClass "X", .ofClass "x"]) =
        (Ty.object "box" [.ofClass "x"]).accepts (ClassTable.register {} (pair "BOX" either))
          (.object "PAIR" [.ofClass "X", .ofClass "X"]) := by
  intro either
  have box : Text.foldCase "Box" = Text.foldCase "BOX" := by decide
  have spelled : (pair "Box" either).SpelledLike (pair "BOX" either) := by
    simp [ClassInfo.SpelledLike, pair, ClassInfo.foldNames, ClassType.foldNames, box]
  refine ⟨by decide, ?_⟩
  exact accepts_of_spelledLike {} (.cons spelled .nil) (by decide) (by decide) (by decide)
    (by decide)

theorem ancestor?_pair (held : Ty) (args : List Ty) :
    (ClassTable.register {} (pair "Box" held)).ancestor? ⟨"Pair", args⟩ "Box" =
      some ⟨"Box", [held.substitute ((pair "Box" held).binding args)]⟩ := by
  have other : Text.sameFold "Pair" "Box" = false := by decide
  have opened : (ClassTable.register {} (pair "Box" held)).classes.get? (Text.foldCase "Pair") =
      some (pair "Box" held) := by
    rw [ClassTable.register, Dict.get?_put]
    exact if_pos rfl
  have parents : ClassTable.parentsOf ⟨"Pair", args⟩ (pair "Box" held) ++ [] =
      [⟨"Box", [held.substitute ((pair "Box" held).binding args)]⟩] := rfl
  rw [ClassTable.ancestor?, ClassTable.search_cons]
  simp [other, opened, parents, ClassTable.search_cons, Text.sameFold_refl]

/-- What is in both halves of a pair or null, and a `D`. -/
def commonHalf : Ty :=
  .intersection [.union [.intersection [.template "A", .template "B"], .null], .ofClass "D"]

/-- With `mixed` listed in unions the spelling counts. Halves that are spelled alike meet in one
    union, which becomes `mixed` next to null and drops out of what the box holds. Halves that are
    spelled in two ways stay an intersection, which may be anything. -/
theorem accepts_tells_spelling :
    let pairs := ClassTable.register {} (pair "Box" commonHalf)
    let half (name : String) := Ty.union [.mixed, .ofClass name]
    let alike := Ty.object "Pair" [half "X", half "X"]
    let various := Ty.object "Pair" [half "X", half "x"]
    alike.SpelledLike various ∧ (Ty.object "Box" [.int]).accepts pairs alike = .no ∧
      (Ty.object "Box" [.int]).accepts pairs various = .maybe := by
  intro pairs half alike various
  refine ⟨by decide, ?_, ?_⟩
  · change against _ (.object "Pair" [half "X", half "X"]) = _
    simp only [against, spread, unlessOpen, ClassTable.acceptsClass, pairs, ancestor?_pair]
    decide
  · change against _ (.object "Pair" [half "X", half "x"]) = _
    simp only [against, spread, unlessOpen, ClassTable.acceptsClass, pairs, ancestor?_pair]
    decide

end Ty

end EntityAudit
