import EntityAudit.Proofs.Class.Reachability

/-! # Which declaration of a property counts

The search for a property follows parents depth first, the one declared last before the others, and
shares between branches what it has opened. The sharing does not show: the declaration that counts
is the one at the end of the first line of parents, compared step by step from the class upwards.
Such a line need not be a short one.
-/

namespace EntityAudit

theorem Dict.remove_comm {α : Type} (d : Dict α) (key other : String) :
    (d.remove key).remove other = (d.remove other).remove key := by
  simp only [remove, List.filter_filter, Bool.and_comm]

namespace ClassTable

variable {d : Dict ClassInfo} {name other : String} {info : ClassInfo} {steps : List Nat}
variable {property : String}

theorem Descends.of_remove {key} (above : Descends ⟨d.remove key⟩ name other) :
    Descends ⟨d⟩ name other := by
  induction above with
  | same folded => exact .same folded
  | parent found inside _ ih => exact .parent (Dict.get?_of_remove found) inside ih

section Branches

variable {β : Type} {expand : ClassType → ClassInfo → List ClassType} {hit : ClassType → Option β}

theorem search_append_of_some {xs answer} (found : search expand hit d xs = some answer)
    (ys : List ClassType) : search expand hit d (xs ++ ys) = some answer := by
  fun_induction search expand hit d xs with
  | case1 => cases found
  | case2 d c xs other here =>
    rw [List.cons_append, search_cons, here]
    exact found
  | case3 d c xs miss unknown ih =>
    rw [List.cons_append, search_cons, miss, unknown]
    exact ih found
  | case4 d c xs miss info opened ih =>
    rw [List.cons_append, search_cons, miss, opened]
    dsimp only
    rw [← List.append_assoc]
    exact ih found

variable {target : String → Prop} (follows : Follows expand)
  (hits : ∀ c, (hit c).isSome ↔ target (Text.foldCase c.name))
include follows hits

theorem search_eq_none_iff {pending} :
    search expand hit d pending = none ↔
      ∀ c ∈ pending, ∀ other, Descends ⟨d⟩ c.name other → ¬ target (Text.foldCase other) := by
  rw [← Option.not_isSome_iff_eq_none, search_isSome_iff follows target hits]
  simp

theorem search_expand_eq_none {c : ClassType}
    (barren : ∀ other, Descends ⟨d⟩ c.name other → ¬ target (Text.foldCase other)) {x}
    (opened : d.get? (Text.foldCase x.name) = some info)
    (same : Text.foldCase c.name = Text.foldCase x.name) :
    search expand hit (d.remove (Text.foldCase x.name)) (expand x info) = none := by
  rw [search_eq_none_iff follows hits]
  intro next inside other above
  obtain ⟨parent, declared, named⟩ :=
    List.mem_map.mp ((follows x info _).mp (List.mem_map_of_mem inside))
  refine barren other (.parent ?_ declared ?_)
  · exact (congrArg d.get? same).trans opened
  · rw [named]
    exact above.of_remove

/-- A class from which nothing can be found may as well not be known. -/
theorem search_remove {c : ClassType}
    (barren : ∀ other, Descends ⟨d⟩ c.name other → ¬ target (Text.foldCase other))
    (smaller : ∀ d' : Dict ClassInfo, d'.length < d.length → ∀ xs ys,
      search expand hit d' xs = none →
        search expand hit d' (xs ++ ys) = search expand hit d' ys) (pending : List ClassType) :
    search expand hit (d.remove (Text.foldCase c.name)) pending = search expand hit d pending := by
  fun_induction search expand hit d pending with
  | case1 => rw [search]
  | case2 d x pending answer here => rw [search_cons, here]
  | case3 d x pending miss unknown ih =>
    have gone : (d.remove (Text.foldCase c.name)).get? (Text.foldCase x.name) = none := by
      rw [Dict.get?_remove, unknown, ite_self]
    rw [search_cons, miss, gone]
    exact ih barren smaller
  | case4 d x pending miss info opened ih =>
    have shorter := Dict.length_remove_lt opened
    by_cases same : Text.foldCase c.name = Text.foldCase x.name
    · -- The class itself is opened, for nothing: its parents find nothing.
      have gone : (d.remove (Text.foldCase c.name)).get? (Text.foldCase x.name) = none := by
        rw [Dict.get?_remove, if_pos same]
      have below := search_expand_eq_none follows hits barren opened same
      rw [search_cons, miss, gone, same]
      exact (smaller _ shorter _ _ below).symm
    · have kept : (d.remove (Text.foldCase c.name)).get? (Text.foldCase x.name) = some info := by
        rw [Dict.get?_remove, if_neg same, opened]
      rw [search_cons, miss, kept]
      dsimp only
      rw [Dict.remove_comm]
      exact ih (fun other above => barren other above.of_remove)
        fun d' less => smaller d' (Nat.lt_trans less shorter)

theorem search_append_of_none {xs} (nothing : search expand hit d xs = none) (ys : List ClassType) :
    search expand hit d (xs ++ ys) = search expand hit d ys := by
  induction size : d.length using Nat.strongRecOn generalizing d xs ys with
  | ind n smaller =>
    subst size
    have smaller (d' : Dict ClassInfo) (less : d'.length < d.length) (xs ys : List ClassType)
        (nothing : search expand hit d' xs = none) :
        search expand hit d' (xs ++ ys) = search expand hit d' ys :=
      smaller d'.length less nothing ys rfl
    induction xs with
    | nil => rfl
    | cons c xs ih =>
      rw [search_eq_none_iff follows hits] at nothing
      obtain ⟨barren, rest⟩ := List.forall_mem_cons.mp nothing
      rw [← ih ((search_eq_none_iff follows hits).mpr rest), List.cons_append, search_cons]
      have miss : hit c = none := by
        rw [← Option.not_isSome_iff_eq_none, hits]
        exact barren c.name (.same (Text.sameFold_refl _))
      rw [miss]
      cases opened : d.get? (Text.foldCase c.name) with
      | none => rfl
      | some info =>
        have below := search_expand_eq_none follows hits barren opened rfl
        exact (smaller _ (Dict.length_remove_lt opened) _ _ below).trans
          (search_remove follows hits barren smaller _)

/-- A search from several class types is the search from the first of them that finds anything. -/
theorem search_eq_findSome? (d : Dict ClassInfo) (pending : List ClassType) :
    search expand hit d pending = pending.findSome? fun c => search expand hit d [c] := by
  induction pending with
  | nil => rw [search, List.findSome?_nil]
  | cons c pending ih =>
    rw [List.findSome?_cons, ← ih]
    cases found : search expand hit d [c] with
    | none => exact search_append_of_none follows hits found pending
    | some answer => exact search_append_of_some found pending

end Branches

/-- The class `name` has the other one `n` parents above it. -/
inductive Climbs (table : ClassTable) : Nat → String → String → Prop
  | same {name other : String} : Text.sameFold name other = true → table.Climbs 0 name other
  | parent {n name other info parent} :
      table.find? name = some info → parent ∈ info.parents →
        table.Climbs n parent.name other → table.Climbs (n + 1) name other

theorem Climbs.descends {table : ClassTable} {n} (climbs : table.Climbs n name other) :
    table.Descends name other := by
  induction climbs with
  | same folded => exact .same folded
  | parent found inside _ ih => exact .parent found inside ih

theorem Climbs.of_remove {key n} (climbs : Climbs ⟨d.remove key⟩ n name other) :
    Climbs ⟨d⟩ n name other := by
  induction climbs with
  | same folded => exact .same folded
  | parent found inside _ ih => exact .parent (Dict.get?_of_remove found) inside ih

/-- A climb that comes through a class goes on from one of its parents, and does not come back. -/
theorem Climbs.remove {key} (opened : d.get? key = some info) {n}
    (climbs : Climbs ⟨d⟩ n name other) :
    Climbs ⟨d.remove key⟩ n name other ∨
      ∃ m < n, ∃ parent ∈ info.parents, Climbs ⟨d.remove key⟩ m parent.name other := by
  induction climbs with
  | same folded => exact .inl (.same folded)
  | @parent n name other own parent found inside _ ih =>
    rcases ih with above | ⟨m, less, around⟩
    · by_cases here : Text.foldCase name = key
      · have known : d.get? key = some own := here ▸ found
        obtain rfl := Option.some.inj (opened.symm.trans known)
        exact .inr ⟨n, Nat.lt_succ_self n, parent, inside, above⟩
      · refine .inl (.parent ?_ inside above)
        rw [find?, Dict.get?_remove, if_neg (Ne.symm here)]
        exact found
    · exact .inr ⟨m, Nat.lt_succ_of_lt less, around⟩

/-- A line of parents from the class `name` up to a known class, with no class on it twice. It is
    given by the place of each parent that is taken, counted from the one declared last. -/
inductive Line : Dict ClassInfo → String → List Nat → ClassInfo → Prop
  | here {d : Dict ClassInfo} {name : String} {info : ClassInfo} :
      d.get? (Text.foldCase name) = some info → Line d name [] info
  | parent {d name own info place parent steps} : d.get? (Text.foldCase name) = some own →
      own.parents.reverse[place]? = some parent →
      Line (d.remove (Text.foldCase name)) parent.name steps info → Line d name (place :: steps) info

/-- Of the lines to classes that declare the property, `steps` is the first. -/
structure FirstLine (d : Dict ClassInfo) (name property : String) (steps : List Nat)
    (info : ClassInfo) : Prop where
  line : Line d name steps info
  declares : info.HasProperty property
  first : ∀ {steps' info'}, Line d name steps' info' → info'.HasProperty property →
    steps' = steps ∨ List.Lex (· < ·) steps steps'

theorem Line.unique {info'} (line : Line d name steps info) (line' : Line d name steps info') :
    info = info' := by
  induction line with
  | here found =>
    cases line' with
    | here found' => exact Option.some.inj (found.symm.trans found')
  | parent found taken _ ih =>
    cases line' with
    | parent found' taken' above' =>
      cases found.symm.trans found'
      cases taken.symm.trans taken'
      exact ih above'

theorem Line.climbs (line : Line d name steps info) :
    ∃ other, Climbs ⟨d⟩ steps.length name other ∧ d.get? (Text.foldCase other) = some info := by
  induction line with
  | @here d name info found => exact ⟨name, .same (Text.sameFold_refl _), found⟩
  | parent found taken _ ih =>
    obtain ⟨other, above, last⟩ := ih
    have declared := List.mem_reverse.mp (List.mem_of_getElem? taken)
    exact ⟨other, .parent found declared above.of_remove, Dict.get?_of_remove last⟩

theorem FirstLine.unique {steps' info'} (first : FirstLine d name property steps info)
    (first' : FirstLine d name property steps' info') : info = info' := by
  have same : steps = steps' := by
    rcases first'.first first.line first.declares with same | before
    · exact same
    · rcases first.first first'.line first'.declares with same | after
      · exact same.symm
      · exact absurd before (List.lex_asymm Nat.lt_asymm after)
  subst same
  exact first.line.unique first'.line

theorem FirstLine.own (found : d.get? (Text.foldCase name) = some info)
    (declares : info.HasProperty property) :
    FirstLine d name property [] info where
  line := .here found
  declares := declares
  first line' _ := by
    cases line' with
    | here => exact .inl rfl
    | parent => exact .inr .nil

theorem FirstLine.parent {d name property own info steps before after parent}
    (found : d.get? (Text.foldCase name) = some own) (lacks : ¬ own.HasProperty property)
    (split : own.parents.reverse = before ++ parent :: after)
    (barren : ∀ q ∈ before, ∀ {steps' info'},
      Line (d.remove (Text.foldCase name)) q.name steps' info' → ¬ info'.HasProperty property)
    (first : FirstLine (d.remove (Text.foldCase name)) parent.name property steps info) :
    FirstLine d name property (before.length :: steps) info where
  line := by
    refine .parent found ?_ first.line
    rw [split, List.getElem?_append_right (Nat.le_refl _), Nat.sub_self]
    rfl
  declares := first.declares
  first line' declares' := by
    cases line' with
    | here found' =>
      cases found.symm.trans found'
      exact absurd declares' lacks
    | @parent _ _ _ _ place other _ found' taken above =>
      cases found.symm.trans found'
      rw [split] at taken
      rcases Nat.lt_trichotomy place before.length with earlier | same | later
      · rw [List.getElem?_append_left earlier] at taken
        exact absurd declares' (barren other (List.mem_of_getElem? taken) above)
      · subst same
        rw [List.getElem?_append_right (Nat.le_refl _), Nat.sub_self] at taken
        cases taken
        rcases first.first above declares' with same | before
        · exact .inl (same ▸ rfl)
        · exact .inr (.cons before)
      · exact .inr (.rel later)

section First

variable {table : ClassTable} {property : String}

def ownProperty? (table : ClassTable) (property : String) (c : ClassType) : Option Ty :=
  (table.find? c.name).bind fun info => (info.property? property).bind fun own => some own.readable

/-- The class known as `key` in lower case declares the property. -/
def IsDeclaredAt (table : ClassTable) (property key : String) : Prop :=
  ∃ info, table.classes.get? key = some info ∧ info.HasProperty property

theorem ownProperty?_isSome (c : ClassType) :
    (table.ownProperty? property c).isSome ↔ table.IsDeclaredAt property (Text.foldCase c.name) :=
  find_member_isSome (fun info => info.property?_isSome) (fun _ _ own => own.readable) c

theorem search_firstLine
    (within : ∀ key info, d.get? key = some info → table.classes.get? key = some info)
    (bare : ∀ c : ClassType, d.get? (Text.foldCase c.name) = none →
      table.ownProperty? property c = none) {c : ClassType} {t}
    (found : search (fun _ info => info.parents.reverse) (table.ownProperty? property) d [c] =
      some t) :
    ∃ steps info, FirstLine d c.name property steps info ∧
      (info.property? property).map (·.readable) = some t := by
  induction size : d.length using Nat.strongRecOn generalizing d c with
  | ind n smaller =>
    subst size
    cases known : d.get? (Text.foldCase c.name) with
    | none =>
      rw [search_cons, bare c known, known] at found
      dsimp only at found
      rw [search] at found
      cases found
    | some info =>
      have opened : table.find? c.name = some info := within _ _ known
      rw [search_cons, known] at found
      cases own : info.property? property with
      | some declared =>
        have here : table.ownProperty? property c = some declared.readable := by
          rw [ownProperty?, opened, Option.bind_some, own, Option.bind_some]
        rw [here] at found
        cases found
        refine ⟨[], info, .own known (ClassInfo.property?_isSome.mp ?_), ?_⟩
        · rw [own, Option.isSome_some]
        · rw [own, Option.map_some]
      | none =>
        have miss : table.ownProperty? property c = none := by
          rw [ownProperty?, opened, Option.bind_some, own, Option.bind_none]
        rw [miss] at found
        dsimp only at found
        rw [List.append_nil, search_eq_findSome? follows_reverse ownProperty?_isSome,
          List.findSome?_eq_some_iff] at found
        obtain ⟨before, parent, after, split, found, vain⟩ := found
        have within' (key : String) (other : ClassInfo)
            (left : (d.remove (Text.foldCase c.name)).get? key = some other) :=
          within key other (Dict.get?_of_remove left)
        have bare' (x : ClassType)
            (gone : (d.remove (Text.foldCase c.name)).get? (Text.foldCase x.name) = none) :
            table.ownProperty? property x = none := by
          rw [Dict.get?_remove] at gone
          split at gone
          · rename_i same
            rw [ownProperty?, find?, ← same]
            exact miss
          · exact bare x gone
        obtain ⟨steps, last, first, read⟩ :=
          smaller _ (Dict.length_remove_lt known) within' bare' found rfl
        refine ⟨_, last, .parent known ?_ split ?_ first, read⟩
        · rw [← ClassInfo.property?_isSome, own]
          exact Bool.false_ne_true
        · intro q inside steps' info' line declares
          obtain ⟨other, climbs, ends⟩ := line.climbs
          have nothing := (search_eq_none_iff follows_reverse ownProperty?_isSome).mp
            (vain q inside) q List.mem_cons_self other climbs.descends
          exact nothing ⟨info', within' _ _ ends, declares⟩

theorem propertyType?_eq_some_iff {className t} :
    table.propertyType? className property = some t ↔
      ∃ steps info, FirstLine table.classes className property steps info ∧
        (info.property? property).map (·.readable) = some t := by
  have bare (c : ClassType) (unknown : table.classes.get? (Text.foldCase c.name) = none) :
      table.ownProperty? property c = none := by
    rw [ownProperty?, find?, unknown, Option.bind_none]
  constructor
  · exact search_firstLine (fun _ _ known => known) bare
  · rintro ⟨steps, info, first, read⟩
    cases found : table.propertyType? className property with
    | none =>
      obtain ⟨other, climbs, ends⟩ := first.line.climbs
      have nothing := (search_eq_none_iff follows_reverse ownProperty?_isSome).mp found
      exact absurd ⟨info, ends, first.declares⟩
        (nothing _ List.mem_cons_self other climbs.descends)
    | some t' =>
      obtain ⟨steps', info', first', read'⟩ := search_firstLine (fun _ _ known => known) bare found
      rw [← read, ← read', first.unique first']

end First

/-- The known class `info` stands `n` parents above `name` and declares the property. -/
def OffersAt (table : ClassTable) (name property : String) (n : Nat) (info : ClassInfo) : Prop :=
  ∃ other, table.Climbs n name other ∧ table.find? other = some info ∧ info.HasProperty property

/-- The type `t` is what the property is read with in a class that declares it, and no class that
    does is nearer. -/
def IsNearest (table : ClassTable) (name property : String) (t : Ty) : Prop :=
  ∃ n info, table.OffersAt name property n info ∧
    (info.property? property).map (·.readable) = some t ∧
      ∀ n' info', table.OffersAt name property n' info' → n ≤ n'

theorem Climbs.exists_line {n} (climbs : Climbs ⟨d⟩ n name other)
    (known : d.get? (Text.foldCase other) = some info) :
    ∃ steps, Line d name steps info ∧ steps.length ≤ n := by
  induction size : d.length using Nat.strongRecOn generalizing d n name with
  | ind size smaller =>
    subst size
    by_cases arrived : Text.foldCase name = Text.foldCase other
    · exact ⟨[], .here (arrived ▸ known), Nat.zero_le n⟩
    · cases climbs with
      | same folded => exact absurd (Text.sameFold_iff.mp folded) arrived
      | @parent n _ _ own parent found inside above =>
        have on : ∃ m ≤ n, ∃ next ∈ own.parents,
            Climbs ⟨d.remove (Text.foldCase name)⟩ m next.name other := by
          rcases above.remove found with above | ⟨m, less, around⟩
          · exact ⟨n, Nat.le_refl n, parent, inside, above⟩
          · exact ⟨m, Nat.le_of_lt less, around⟩
        obtain ⟨m, le, next, declared, above⟩ := on
        have left : (d.remove (Text.foldCase name)).get? (Text.foldCase other) = some info := by
          rw [Dict.get?_remove, if_neg arrived, known]
        obtain ⟨steps, line, short⟩ :=
          smaller _ (Dict.length_remove_lt found) above left rfl
        obtain ⟨place, taken⟩ :=
          List.mem_iff_getElem?.mp (List.mem_reverse.mpr declared)
        exact ⟨place :: steps, .parent found taken line,
          Nat.succ_le_succ (Nat.le_trans short le)⟩

theorem isNearest_of_line {table : ClassTable} {t : Ty} (line : Line table.classes name steps info)
    (read : (info.property? property).map (·.readable) = some t) (shortest : ∀ {steps' info'}, Line
      table.classes name steps' info' → info'.HasProperty property → steps.length ≤ steps'.length) :
    table.IsNearest name property t := by
  obtain ⟨other, climbs, last⟩ := line.climbs
  have declares : info.HasProperty property := by
    obtain ⟨own, declared, -⟩ := Option.map_eq_some_iff.mp read
    rw [← ClassInfo.property?_isSome, declared, Option.isSome_some]
  refine ⟨steps.length, info, ⟨other, climbs, last, declares⟩, read, ?_⟩
  rintro n' info' ⟨other', climbs', last', declares'⟩
  obtain ⟨steps', line', short⟩ := climbs'.exists_line last'
  exact Nat.le_trans (shortest line' declares') short

/-- No known class has two parents. -/
def HasSingleParents (d : Dict ClassInfo) : Prop :=
  ∀ key info, d.get? key = some info → info.parents.length ≤ 1

theorem Line.forall_eq_zero (single : HasSingleParents d) (line : Line d name steps info) :
    ∀ place ∈ steps, place = 0 := by
  induction line with
  | here => exact fun _ none => absurd none List.not_mem_nil
  | @parent d name own info place parent steps found taken _ ih =>
    have first : place = 0 := by
      have bound := single _ own found
      have inside := (List.getElem?_eq_some_iff.mp taken).1
      rw [List.length_reverse] at inside
      omega
    have rest := ih fun key info left => single key info (Dict.get?_of_remove left)
    exact List.forall_mem_cons.mpr ⟨first, rest⟩

theorem length_le_of_lex {steps'} (first : ∀ place ∈ steps, place = 0)
    (second : ∀ place ∈ steps', place = 0) (before : List.Lex (· < ·) steps steps') :
    steps.length ≤ steps'.length := by
  induction before with
  | nil => exact Nat.zero_le _
  | rel less =>
    rw [first _ List.mem_cons_self, second _ List.mem_cons_self] at less
    exact absurd less (Nat.lt_irrefl 0)
  | cons _ ih =>
    exact Nat.succ_le_succ
      (ih (List.forall_mem_cons.mp first).2 (List.forall_mem_cons.mp second).2)

/-- The type of an inherited property comes from the declaration at the end of the first line of
    parents, and so from the nearest one where no class has two parents. -/
theorem propertyType?_of_first_line (table : ClassTable) (className property : String) (t : Ty) :
    (table.propertyType? className property = some t ↔
      ∃ steps info, FirstLine table.classes className property steps info ∧
        (info.property? property).map (·.readable) = some t) ∧
    (HasSingleParents table.classes → table.propertyType? className property = some t →
      table.IsNearest className property t) := by
  refine ⟨propertyType?_eq_some_iff, fun single found => ?_⟩
  obtain ⟨steps, info, first, read⟩ := propertyType?_eq_some_iff.mp found
  refine isNearest_of_line first.line read fun line' declares' => ?_
  rcases first.first line' declares' with same | before
  · exact Nat.le_of_eq (congrArg List.length same.symm)
  · exact length_le_of_lex (first.line.forall_eq_zero single) (line'.forall_eq_zero single) before

/-- A class with a parent that declares `p` and with another one, declared last, whose own parent
    does. -/
def forked : ClassTable :=
  [ { name := "C", parents := [.raw "P", .raw "Q"] },
    ({ name := "P" : ClassInfo } |>.withProperty "p" .string .string),
    { name := "Q", parents := [.raw "G"] },
    ({ name := "G" : ClassInfo } |>.withProperty "p" .int .int) ].foldl register {}

/-- The property comes from a class two parents away, though one of the parents declares it. -/
theorem propertyType?_passes_nearest :
    forked.propertyType? "C" "p" = some .int ∧ ¬ forked.IsNearest "C" "p" .int := by
  have bottom : forked.find? "C" = some { name := "C", parents := [.raw "P", .raw "Q"] } := rfl
  constructor
  · have last : [ClassType.raw "P", .raw "Q"].reverse = [] ++ .raw "Q" :: [.raw "P"] := rfl
    have only : [ClassType.raw "G"].reverse = [] ++ .raw "G" :: [] := rfl
    let above := forked.classes.remove (Text.foldCase "C")
    have top : FirstLine (above.remove (Text.foldCase "Q")) (ClassType.raw "G").name "p" [] _ :=
      .own rfl (by decide)
    have middle : FirstLine above (ClassType.raw "Q").name "p" [0] _ :=
      .parent rfl (by decide) only (fun _ no => absurd no List.not_mem_nil) top
    exact propertyType?_eq_some_iff.mpr ⟨[0, 0], _,
      .parent bottom (by decide) last (fun _ no => absurd no List.not_mem_nil) middle, rfl⟩
  · rintro ⟨n, info, ⟨away, climbs, found, declares⟩, read, nearest⟩
    have near : n ≤ 1 := nearest 1 _
      ⟨"P", .parent bottom List.mem_cons_self (.same rfl), rfl, by decide⟩
    cases climbs with
    | same folded =>
      rw [← find?_of_sameFold folded] at found
      cases found
      exact absurd declares (by decide)
    | parent opened inside above =>
      cases opened.symm.trans bottom
      cases above with
      | parent => omega
      | same folded =>
        rw [← find?_of_sameFold folded] at found
        simp only [List.mem_cons, List.not_mem_nil, or_false] at inside
        rcases inside with rfl | rfl
        · cases found
          cases read
        · cases found
          exact absurd declares (by decide)

end ClassTable

end EntityAudit
