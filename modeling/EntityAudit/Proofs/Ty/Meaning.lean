import EntityAudit.Proofs.Class.Ancestors
import EntityAudit.Proofs.Ty.Members

/-! # Types as sets of values

`Ty.holds` says which values a type has. Acceptance is sound for it: a type that certainly accepts
another one has all its values. Generic arguments are left out of account, so this is about types
and parents that have none.
-/

namespace EntityAudit

variable {ms : List Ty}

/-- A value at run time. An object is known by its class and by what it yields, step by step. -/
inductive Value where
  | null
  | bool (value : Bool)
  | int (value : Int64)
  | float (value : Float)
  | string (value : String)
  | array (entries : List (Value × Value))
  | object (className : String) (yields : Nat → Option (Value × Value))

namespace Ty

mutual
/-- Whether a value is one of a type. -/
def holds (table : ClassTable) : Ty → Value → Prop
  | .mixed, _ | .template _, _ => True
  | .null, v => v = .null
  | .bool, v => ∃ value, v = .bool value
  | .int, v => ∃ value, v = .int value
  | .float, v => ∃ value, v = .float value
  | .string, v => ∃ value, v = .string value
  | .constBool value, v => v = .bool value
  | .constInt value, v => v = .int value
  | .constString value, v => v = .string value
  | .object name _, v => ∃ own yields, v = .object own yields ∧ table.Descends own name
  | .builder _, v => ∃ own yields, v = .object own yields ∧ table.Descends own queryBuilderClass
  | .array key value, v =>
    ∃ entries, v = .array entries ∧ ∀ e ∈ entries, holds table key e.1 ∧ holds table value e.2
  | .iterable key value, v =>
    (∃ entries, v = .array entries ∧
      ∀ e ∈ entries, holds table key e.1 ∧ holds table value e.2) ∨
    ∃ own yields, v = .object own yields ∧ table.Descends own ClassName.traversable ∧
      ∀ step e, yields step = some e → holds table key e.1 ∧ holds table value e.2
  | .constArray listed, v => ∃ entries, v = .array entries ∧ holdsEntries table listed entries
  | .union members, v => holdsAny table members v
  | .intersection members, v => holdsEvery table members v

/-- Whether the entries of an array are exactly the listed ones, in any order. -/
def holdsEntries (table : ClassTable) : List (Ty × Ty) → List (Value × Value) → Prop
  | [], entries => entries = []
  | (key, value) :: listed, entries =>
    ∃ e rest, entries.Perm (e :: rest) ∧ holds table key e.1 ∧ holds table value e.2 ∧
      holdsEntries table listed rest

def holdsAny (table : ClassTable) : List Ty → Value → Prop
  | [], _ => False
  | t :: ts, v => holds table t v ∨ holdsAny table ts v

def holdsEvery (table : ClassTable) : List Ty → Value → Prop
  | [], _ => True
  | t :: ts, v => holds table t v ∧ holdsEvery table ts v
end

mutual
def isPlain : Ty → Bool
  | .object _ args => args.isEmpty
  | .iterable key value | .array key value => isPlain key && isPlain value
  | .constArray entries => arePlainEntries entries
  | .union members | .intersection members => arePlain members
  | _ => true

def arePlain : List Ty → Bool
  | [] => true
  | t :: ts => isPlain t && arePlain ts

def arePlainEntries : List (Ty × Ty) → Bool
  | [] => true
  | (key, value) :: entries => isPlain key && isPlain value && arePlainEntries entries
end

variable {table : ClassTable}

theorem holdsAny_iff {v} : holdsAny table ms v ↔ ∃ m ∈ ms, m.holds table v := by
  induction ms with
  | nil => simp [holdsAny]
  | cons m ms ih => simp [holdsAny, ih]

theorem holdsEvery_iff {v} : holdsEvery table ms v ↔ ∀ m ∈ ms, m.holds table v := by
  induction ms with
  | nil => simp [holdsEvery]
  | cons m ms ih => simp [holdsEvery, ih]

theorem arePlain_iff {ts} : arePlain ts = true ↔ ∀ t ∈ ts, t.isPlain = true := by
  induction ts with
  | nil => simp [arePlain]
  | cons t ts ih => simp [arePlain, ih]

/-- Comparing member by member is sound if comparing with a single type is. -/
theorem holds_of_spread {f : Ty → Verdict} {target : Value → Prop}
    (sound : ∀ t : Ty, t.isLeaf = true → t.isPlain = true → f t = .yes →
      ∀ v, t.holds table v → target v) {b : Ty} (plain : b.isPlain = true)
    (accepted : spread f b = .yes) (v : Value) (held : b.holds table v) : target v := by
  induction b using members_induction with
  | leaf b leaf =>
    rw [spread_of_isLeaf leaf] at accepted
    exact sound b leaf plain accepted v held
  | union ms ih =>
    obtain ⟨m, inside, own⟩ := holdsAny_iff.mp held
    exact ih m inside (arePlain_iff.mp plain m inside) (spread_union_eq_yes.mp accepted m inside) own
  | intersection ms ih =>
    obtain ⟨m, inside, member⟩ := spread_intersection_eq_yes.mp accepted
    exact ih m inside (arePlain_iff.mp plain m inside) member (holdsEvery_iff.mp held m inside)

end Ty

theorem ClassTable.unrelated_ne_yes (table : ClassTable) (name other : String) :
    table.unrelated name other ≠ .yes := by
  rw [unrelated]
  split
  · decide
  · split
    · split <;> decide
    · decide

theorem ClassTable.descends_of_acceptsClass {table : ClassTable}
    (declared : table.hasPlainParents = true) {name other byArgs}
    (accepted : table.acceptsClass name byArgs ⟨other, []⟩ = .yes) : table.Descends other name := by
  rw [acceptsClass] at accepted
  split at accepted
  · rename_i seen found
    exact (ancestor?_eq_some declared found).1
  · exact absurd accepted (unrelated_ne_yes table name other)

namespace Ty

variable {table : ClassTable}

theorem forall_of_holdsEntries {target : Value × Value → Prop} :
    ∀ {listed : List (Ty × Ty)} {entries : List (Value × Value)},
      (∀ l ∈ listed, ∀ e : Value × Value, l.1.holds table e.1 → l.2.holds table e.2 → target e) →
        holdsEntries table listed entries → ∀ e ∈ entries, target e
  | [], entries, _, held, e, inside => by
    rw [holdsEntries] at held
    simp [held] at inside
  | (key, value) :: listed, entries, sound, ⟨first, rest, order, keyHeld, valueHeld, later⟩,
      e, inside => by
      rcases List.mem_cons.mp (order.mem_iff.mp inside) with rfl | other
      · exact sound (key, value) (by simp) e keyHeld valueHeld
      · exact forall_of_holdsEntries (fun l own => sound l (by simp [own])) later e other

theorem isPlain_of_mem_entries : ∀ {listed : List (Ty × Ty)}, arePlainEntries listed = true →
    ∀ l ∈ listed, l.1.isPlain = true ∧ l.2.isPlain = true
  | [], _, l, inside => by simp at inside
  | (key, value) :: listed, plain, l, inside => by
    simp only [arePlainEntries, Bool.and_eq_true] at plain
    rcases List.mem_cons.mp inside with rfl | later
    · exact plain.1
    · exact isPlain_of_mem_entries plain.2 l later

/-- A type has all values of the types it certainly accepts. -/
def IsSound (table : ClassTable) (a : Ty) : Prop :=
  ∀ b : Ty, b.isPlain = true → accepts table a b = .yes → ∀ v, b.holds table v → a.holds table v

theorem isSound_of_leaves {a : Ty} (apart : a.isWhole = false)
    (sound : ∀ t : Ty, t.isLeaf = true → t.isPlain = true → a.accepts table t = .yes →
      ∀ v, t.holds table v → a.holds table v) : a.IsSound table :=
  fun b plain accepted => holds_of_spread sound plain ((spread_accepts apart b).trans accepted)

theorem holds_of_accepts_both {key value k e} (keySound : key.IsSound table)
    (valueSound : value.IsSound table) (plain : (k.isPlain && e.isPlain) = true)
    (accepted : (accepts table key k).and (accepts table value e) = .yes) (entry : Value × Value)
    (held : k.holds table entry.1 ∧ e.holds table entry.2) :
    key.holds table entry.1 ∧ value.holds table entry.2 := by
  rw [Bool.and_eq_true] at plain
  obtain ⟨keyYes, valueYes⟩ := Verdict.and_eq_yes.mp accepted
  exact ⟨keySound k plain.1 keyYes entry.1 held.1, valueSound e plain.2 valueYes entry.2 held.2⟩

theorem holds_of_accepts_entries {key value} (keySound : key.IsSound table)
    (valueSound : value.IsSound table) {listed} (plain : arePlainEntries listed = true)
    (accepted : Verdict.all (listed.map (fun e => accepts table key e.1) ++
      listed.map (fun e => accepts table value e.2)) = .yes) {entries}
    (held : holdsEntries table listed entries) :
    ∀ e ∈ entries, key.holds table e.1 ∧ value.holds table e.2 := by
  rw [Verdict.all_eq_yes] at accepted
  refine forall_of_holdsEntries (fun l inside e keyHeld valueHeld => ?_) held
  obtain ⟨keyPlain, valuePlain⟩ := isPlain_of_mem_entries plain l inside
  have keyYes : accepts table key l.1 = .yes :=
    accepted _ (List.mem_append_left _ (List.mem_map_of_mem inside))
  have valueYes : accepts table value l.2 = .yes :=
    accepted _ (List.mem_append_right _ (List.mem_map_of_mem inside))
  exact ⟨keySound l.1 keyPlain keyYes e.1 keyHeld, valueSound l.2 valuePlain valueYes e.2 valueHeld⟩

theorem isSound_scalar {a : Ty} (scalar : a.isScalar = true) : a.IsSound table := by
  refine isSound_of_leaves (isWhole_of_isScalar scalar) fun t leaf _ accepted v held => ?_
  cases scalarCovers_of_accepts scalar leaf accepted with
  | same => exact held
  | bool | int | string => exact ⟨_, held⟩

theorem isSound_constArray (listed : List (Ty × Ty)) : (constArray listed).IsSound table := by
  refine isSound_of_leaves rfl fun t leaf _ accepted => ?_
  cases eq_yes_of_against leaf accepted

theorem isSound_union (each : ∀ m ∈ ms, m.IsSound table) : (union ms).IsSound table := by
  refine isSound_of_leaves rfl fun t leaf plain accepted v held => ?_
  obtain ⟨m, inside, own⟩ := (accepts_union_eq_yes leaf).mp accepted
  exact holdsAny_iff.mpr ⟨m, inside, each m inside t plain own v held⟩

theorem isSound_intersection (each : ∀ m ∈ ms, m.IsSound table) :
    (intersection ms).IsSound table := by
  intro b plain accepted v held
  rw [accepts_intersection_eq_yes] at accepted
  exact holdsEvery_iff.mpr fun m inside => each m inside b plain (accepted m inside) v held

section

variable (declared : table.hasPlainParents = true)

include declared

theorem holds_object_of_acceptsClass {name other byArgs}
    (accepted : table.acceptsClass name byArgs ⟨other, []⟩ = .yes) (args : List Ty) {v}
    (held : (object other []).holds table v) : (object name args).holds table v := by
  obtain ⟨className, yields, same, descends⟩ := held
  exact ⟨className, yields, same,
    descends.trans (ClassTable.descends_of_acceptsClass declared accepted)⟩

theorem isSound_object (name : String) (args : List Ty) :
    (object name args).IsSound table := by
  refine isSound_of_leaves rfl fun t leaf plain accepted v held => ?_
  replace accepted := eq_yes_of_against leaf accepted
  cases t with
  | object n as =>
    obtain rfl : as = [] := by simpa [isPlain] using plain
    exact holds_object_of_acceptsClass declared accepted args held
  | builder calls => exact holds_object_of_acceptsClass declared accepted args held
  | iterable key value =>
    dsimp only at accepted
    split at accepted <;> cases accepted
  | _ => cases accepted

theorem isSound_builder (calls : List (BuilderCall Ty)) : (builder calls).IsSound table := by
  refine isSound_of_leaves rfl fun t leaf plain accepted v held => ?_
  replace accepted := eq_yes_of_against leaf accepted
  cases t with
  | object n as =>
    obtain rfl : as = [] := by simpa [isPlain] using plain
    exact holds_object_of_acceptsClass declared accepted [] held
  | builder others => exact held
  | _ => cases accepted

end

theorem isSound_array {key value : Ty} (keySound : key.IsSound table)
    (valueSound : value.IsSound table) : (array key value).IsSound table := by
  refine isSound_of_leaves rfl fun t leaf plain accepted v held => ?_
  replace accepted := eq_yes_of_against leaf accepted
  cases t with
  | array k e =>
    obtain ⟨entries, rfl, all⟩ := held
    exact ⟨entries, rfl, fun entry inside =>
      holds_of_accepts_both keySound valueSound plain accepted entry (all entry inside)⟩
  | constArray listed =>
    obtain ⟨entries, rfl, all⟩ := held
    exact ⟨entries, rfl, holds_of_accepts_entries keySound valueSound plain accepted all⟩
  | _ => cases accepted

theorem isSound_iterable (declared : table.hasPlainParents = true) {key value : Ty}
    (keySound : key.IsSound table) (valueSound : value.IsSound table) :
    (iterable key value).IsSound table := by
  have arrays := isSound_array keySound valueSound
  refine isSound_of_leaves rfl fun t leaf plain accepted v held => ?_
  replace accepted := eq_yes_of_against leaf accepted
  cases t with
  | array k e => exact .inl (arrays (.array k e) plain accepted v held)
  | constArray listed => exact .inl (arrays (.constArray listed) plain accepted v held)
  | iterable k e =>
    rcases held with within | ⟨className, yields, rfl, descends, all⟩
    · exact .inl (arrays (.array k e) plain accepted v within)
    · exact .inr ⟨className, yields, rfl, descends, fun step entry yielded =>
        holds_of_accepts_both keySound valueSound plain accepted entry (all step entry yielded)⟩
  | object name args =>
    obtain rfl : args = [] := by simpa [isPlain] using plain
    obtain ⟨className, yields, rfl, descends⟩ := held
    dsimp only at accepted
    split at accepted
    · rename_i seen found
      obtain ⟨traversable, bare⟩ := ClassTable.ancestor?_eq_some declared found
      -- Nothing is said about what such an object yields, so any value must do.
      rw [bare] at accepted
      exact .inr ⟨className, yields, rfl, descends.trans traversable, fun _ entry _ =>
        holds_of_accepts_both keySound valueSound rfl accepted entry ⟨trivial, trivial⟩⟩
    · split at accepted <;> cases accepted
  | _ => cases accepted

theorem isSound_of_isPlain (declared : table.hasPlainParents = true) {a : Ty}
    (plain : a.isPlain = true) : a.IsSound table := by
  induction a using parts_induction with
  | step a ih =>
    cases a with
    | mixed | template => exact fun _ _ _ _ _ => trivial
    | null | bool | int | float | string | constBool | constInt | constString =>
      exact isSound_scalar rfl
    | constArray listed => exact isSound_constArray listed
    | object name args => exact isSound_object declared name args
    | builder calls => exact isSound_builder declared calls
    | array key value =>
      simp only [isPlain, Bool.and_eq_true] at plain
      exact isSound_array (ih key (by simp [parts]) plain.1) (ih value (by simp [parts]) plain.2)
    | iterable key value =>
      simp only [isPlain, Bool.and_eq_true] at plain
      exact isSound_iterable declared (ih key (by simp [parts]) plain.1)
        (ih value (by simp [parts]) plain.2)
    | union ms => exact isSound_union fun m inside => ih m inside (arePlain_iff.mp plain m inside)
    | intersection ms =>
      exact isSound_intersection fun m inside => ih m inside (arePlain_iff.mp plain m inside)

/-- Acceptance is sound, whatever classes are known and whether or not their hierarchies have
    cycles. -/
theorem accepts_sound (table : ClassTable) (declared : table.hasPlainParents = true) (a b : Ty)
    (left : a.isPlain = true) (right : b.isPlain = true) (accepted : a.accepts table b = .yes)
    (v : Value) (held : b.holds table v) : a.holds table v :=
  isSound_of_isPlain declared left b right accepted v held

/-- Two interfaces that extend each other, one of them traversable. -/
theorem accepts_sound_cycle :
    let table : ClassTable :=
      ⟨[("a", { name := "A", isInterface := true, parents := [.raw "B"] }),
        ("b", { name := "B", isInterface := true, parents := [.raw "A", .raw "Traversable"] })]⟩
    let a : Ty := .union [.null, .iterable .mixed .mixed]
    let b : Ty := .union [.null, .object "A" [], .array .int (.constString "x")]
    let v : Value := .object "a" fun _ => none
    table.hasPlainParents = true ∧ a.isPlain = true ∧ b.isPlain = true ∧
      a.accepts table b = .yes ∧ b.holds table v ∧ a.holds table v := by
  intro table a b v
  have seen : table.ancestor? ⟨"A", []⟩ ClassName.traversable = some ⟨"Traversable", []⟩ := by
    have first : Text.sameFold "A" ClassName.traversable = false := by decide
    have second : Text.sameFold "B" ClassName.traversable = false := by decide
    have last : Text.sameFold "Traversable" ClassName.traversable = true := by decide
    have own : Text.foldCase "A" = "a" := by decide
    have next : Text.foldCase "B" = "b" := by decide
    simp [table, ClassTable.ancestor?, ClassTable.search_cons, ClassTable.parentsOf,
      ClassType.raw, ClassType.substitute, Dict.get?, Dict.remove, first, second, last, own, next]
  have object : accepts table (.iterable .mixed .mixed) (.object "A" []) = .yes := by
    change against _ (.object "A" []) = .yes
    simp only [against, spread, unlessOpen, seen]
    rfl
  have accepted : a.accepts table b = .yes :=
    calc a.accepts table b
      _ = Verdict.agree [.yes, Verdict.any [.no, accepts table (.iterable .mixed .mixed)
            (.object "A" [])], .yes] := rfl
      _ = .yes := by rw [object]; rfl
  have held : b.holds table v := .inr (.inl ⟨"a", _, rfl, .same (by decide)⟩)
  exact ⟨by decide, by decide, by decide, accepted, held,
    accepts_sound table (by decide) a b (by decide) (by decide) accepted v held⟩

end Ty

end EntityAudit
