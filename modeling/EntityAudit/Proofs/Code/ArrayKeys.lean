import EntityAudit.Code.Scope
import EntityAudit.Proofs.Distinct
import EntityAudit.Proofs.Outcome
import Mathlib.Data.List.Induction

/-! # Keys of literal arrays

An item without a key goes to the next free index, and an item whose key is there already replaces
the value. Each of `keysFrom` stands in the array once, with the value it got last. After the
greatest integer there is no next index, and inference breaks down.
-/

namespace EntityAudit

variable {items : List (Option Ty × Ty)}

/-- Whether a type is that of a literal key. -/
def Ty.isKey : Ty → Bool
  | .constInt _ | .constString _ => true
  | _ => false

section Entries

variable {entries : List (Ty × Ty)}

theorem map_fst_putEntry (key value : Ty) :
    (putEntry entries key value).map (·.1) =
      if key ∈ entries.map (·.1) then entries.map (·.1) else entries.map (·.1) ++ [key] := by
  induction entries with
  | nil => rfl
  | cons entry entries ih =>
    obtain ⟨k, v⟩ := entry
    rw [putEntry]
    by_cases same : k = key
    · simp [same]
    · simp only [if_neg same, List.map_cons, ih, List.mem_cons, Ne.symm same, false_or]
      split <;> rfl

theorem mem_putEntry (distinct : (entries.map (·.1)).Nodup) {key value k v} :
    (k, v) ∈ putEntry entries key value ↔ if k = key then v = value else (k, v) ∈ entries := by
  induction entries with
  | nil => by_cases same : k = key <;> simp [putEntry, same]
  | cons entry entries ih =>
    obtain ⟨l, w⟩ := entry
    obtain ⟨new, distinct⟩ := List.nodup_cons.mp distinct
    rw [putEntry]
    by_cases own : l = key
    · subst own
      rw [if_pos rfl]
      by_cases same : k = l
      · subst same
        have absent : ∀ v, (k, v) ∉ entries := fun v inside =>
          new (List.mem_map.mpr ⟨_, inside, rfl⟩)
        simp [absent]
      · simp [same]
    · rw [if_neg own, List.mem_cons, List.mem_cons, ih distinct, Prod.mk.injEq]
      by_cases same : k = key
      · simp [same, Ne.symm own]
      · simp [same]

/-- An array holds each key that was put into it once, in the order in which the keys came, with the
    value that was put last. -/
theorem foldl_putEntry (items : List (Ty × Ty)) :
    let entries := items.foldl (fun entries item => putEntry entries item.1 item.2) []
    entries.map (·.1) = (items.map (·.1)).eraseDups ∧
      ∀ k v, (k, v) ∈ entries ↔ items.reverse.lookup k = some v := by
  induction items using List.reverseRecOn with
  | nil => simp
  | append_singleton items item ih =>
    obtain ⟨keys, last⟩ := ih
    have distinct := Distinct.nodup_eraseDups (items.map (·.1))
    rw [← keys] at distinct
    simp only [List.foldl_append, List.foldl_cons, List.foldl_nil]
    constructor
    · rw [map_fst_putEntry, keys, List.map_append, List.map_singleton, Distinct.eraseDups_concat]
      simp only [List.mem_eraseDups]
    · intro k v
      rw [mem_putEntry distinct, List.reverse_append, List.reverse_singleton,
        List.singleton_append, List.lookup_cons]
      by_cases same : k = item.1
      · simp [same, eq_comm]
      · simp [beq_false_of_ne same, same, last]

end Entries

/-- The next free index once an item has the key. -/
def indexAfter (next : Int64) : Ty → Int64
  | .constInt index => max next (index + 1)
  | _ => next

/-- The keys that items get one after the other, where `next` is the next free index. -/
def keysFrom (next : Int64) : List (Option Ty × Ty) → List Ty
  | [] => []
  | item :: items =>
    let key := item.1.getD (.constInt next)
    key :: keysFrom (indexAfter next key) items

theorem length_keysFrom (next : Int64) (items : List (Option Ty × Ty)) :
    (keysFrom next items).length = items.length := by
  induction items generalizing next with
  | nil => rfl
  | cons item items ih => rw [keysFrom, List.length_cons, List.length_cons, ih]

theorem isKey_keysFrom (next : Int64)
    (literal : ∀ item ∈ items, ∀ key, item.1 = some key → key.isKey = true) :
    ∀ key ∈ keysFrom next items, key.isKey = true := by
  induction items generalizing next with
  | nil => simp [keysFrom]
  | cons item items ih =>
    obtain ⟨own, literal⟩ := List.forall_mem_cons.mp literal
    refine List.forall_mem_cons.mpr ⟨?_, ih _ literal⟩
    cases given : item.1 with
    | none => rfl
    | some key => exact own key given

namespace ArrayDraft

/-- One more item, with its value known. -/
def add (draft : ArrayDraft) (item : Option Ty × Ty) : Except Fault ArrayDraft := do
  let key := item.1.getD (.constInt draft.next)
  return (← draft.note key).put key item.2

theorem note_eq (draft : ArrayDraft) (key : Ty) :
    draft.note key =
      if key = .constInt Int64.maxValue then .error (.breakdown .overflow)
      else .ok { draft with
        next := indexAfter draft.next key, isLiteral := draft.isLiteral && key.isKey } := by
  cases key with
  | constInt index =>
    simp only [note, indexAfter, Ty.isKey, Bool.and_true, Ty.constInt.injEq]
  | constString text => simp [note, indexAfter, Ty.isKey]
  | _ => simp [note, indexAfter, Ty.isKey]

theorem foldlM_add (draft : ArrayDraft) (items : List (Option Ty × Ty)) :
    items.foldlM add draft =
      let keys := keysFrom draft.next items
      if .constInt Int64.maxValue ∈ keys then .error (.breakdown .overflow)
      else .ok {
        entries := (keys.zip (items.map (·.2))).foldl
          (fun entries item => putEntry entries item.1 item.2) draft.entries
        next := keys.foldl indexAfter draft.next
        isLiteral := draft.isLiteral && keys.all (·.isKey) } := by
  induction items generalizing draft with
  | nil => simp [keysFrom, pure, Except.pure]
  | cons item items ih =>
    rw [List.foldlM_cons, add, note_eq, keysFrom]
    by_cases greatest : item.1.getD (.constInt draft.next) = .constInt Int64.maxValue
    · simp [greatest]
      rfl
    · simp only [if_neg greatest, List.mem_cons, Ne.symm greatest, false_or]
      refine (ih _).trans ?_
      simp [put, Bool.and_assoc]

end ArrayDraft

/-- The item at place `n` has an index that is not negative and behind all before it, so that no
    item before it has that key. -/
def Placed (keys : List Ty) (n : Nat) : Prop :=
  ∃ i, keys[n]? = some (.constInt i) ∧ 0 ≤ i ∧ (∀ j, .constInt j ∈ keys.take n → j < i) ∧
    .constInt i ∉ keys.take n

/-- The sums that give the next free index, one for each index met, stay within 64 bits. -/
def Fits (keys : List Ty) : Prop :=
  ∀ i, .constInt i ∈ keys → (i + 1).toInt = i.toInt + 1

theorem toInt_succ_iff {i} : (i + 1).toInt = i.toInt + 1 ↔ i ≠ Int64.maxValue := by
  constructor
  · rintro sum rfl
    exact absurd sum (by decide)
  · intro below
    have lower := i.le_toInt
    have upper := i.toInt_le
    have apart : i.toInt ≠ Int64.maxValue.toInt := fun same => below (Int64.toInt_inj.mp same)
    rw [Int64.toInt_maxValue] at upper apart
    rw [Int64.toInt_add, Int64.toInt_one, Int.bmod_eq_of_le] <;> omega

theorem fits_iff {keys} : Fits keys ↔ .constInt Int64.maxValue ∉ keys := by
  constructor
  · exact fun fits inside => toInt_succ_iff.mp (fits _ inside) rfl
  · intro absent i inside
    refine toInt_succ_iff.mpr ?_
    rintro rfl
    exact absent inside

theorem toInt_max (a b : Int64) : (max a b).toInt = max a.toInt b.toInt := by
  change (if a ≤ b then b else a).toInt = _
  split
  next le =>
    rw [Int64.le_iff_toInt_le] at le
    omega
  next gt =>
    rw [Int64.le_iff_toInt_le] at gt
    omega

theorem le_indexAfter (next : Int64) {key} (inside : key ≠ .constInt Int64.maxValue) :
    next ≤ indexAfter next key ∧ ∀ i, key = .constInt i → i < indexAfter next key := by
  cases key with
  | constInt index =>
    have larger := toInt_max next (index + 1)
    have sum := toInt_succ_iff.mpr fun same => inside (congrArg Ty.constInt same)
    refine ⟨Int64.le_iff_toInt_le.mpr (by rw [indexAfter]; omega), ?_⟩
    rintro _ ⟨⟩
    exact Int64.lt_iff_toInt_lt.mpr (by rw [indexAfter]; omega)
  | _ => exact ⟨Int64.le_refl _, by rintro i ⟨⟩⟩

theorem keysFrom_behind {next} (before : List Ty) (start : 0 ≤ next)
    (behind : ∀ j, .constInt j ∈ before → j < next) {n value}
    (here : items[n]? = some (none, value))
    (free : .constInt Int64.maxValue ∉ keysFrom next items) :
    ∃ i, (keysFrom next items)[n]? = some (.constInt i) ∧ 0 ≤ i ∧
      ∀ j, .constInt j ∈ before ++ (keysFrom next items).take n → j < i := by
  induction items generalizing next before n with
  | nil => cases here
  | cons item items ih =>
    cases n with
    | zero =>
      cases here
      exact ⟨next, rfl, start, by simpa using behind⟩
    | succ n =>
      rw [keysFrom, List.mem_cons, not_or] at free
      obtain ⟨further, own⟩ := le_indexAfter next (Ne.symm free.1)
      have later := ih (before ++ [item.1.getD (.constInt next)])
        (Int64.le_trans start further) ?_ here free.2
      · simpa [keysFrom] using later
      · intro j inside
        rcases List.mem_append.mp inside with earlier | same
        · exact Int64.lt_of_lt_of_le (behind j earlier) further
        · exact own j (List.mem_singleton.mp same).symm

theorem placed_of_fits {n value} (fits : Fits (keysFrom 0 items))
    (here : items[n]? = some (none, value)) : Placed (keysFrom 0 items) n := by
  obtain ⟨i, found, positive, behind⟩ :=
    keysFrom_behind [] (Int64.le_refl 0) (by simp) here (fits_iff.mp fits)
  exact ⟨i, found, positive, behind, fun same => Int64.lt_irrefl (behind i same)⟩

/-- The entries of the array of some items. -/
def entriesOf (items : List (Option Ty × Ty)) : List (Ty × Ty) :=
  ((keysFrom 0 items).zip (items.map (·.2))).foldl
    (fun entries item => putEntry entries item.1 item.2) []

theorem map_fst_entriesOf (items : List (Option Ty × Ty)) :
    (entriesOf items).map (·.1) = (keysFrom 0 items).eraseDups := by
  obtain ⟨once, -⟩ := foldl_putEntry ((keysFrom 0 items).zip (items.map (·.2)))
  rwa [List.map_fst_zip (Nat.le_of_eq (by simp [length_keysFrom]))] at once

namespace Scope

variable {s : Scope} {items : List (Option Expr × Expr)} {types : List (Option Ty × Ty)}

/-- The types of the keys and values of items. -/
def itemTypes (s : Scope) : List (Option Expr × Expr) → Except Fault (List (Option Ty × Ty))
  | [] => .ok []
  | (none, value) :: items => do return (none, ← s.typeOf value) :: (← itemTypes s items)
  | (some key, value) :: items => do
    return (some (← s.typeOf key), ← s.typeOf value) :: (← itemTypes s items)

theorem addItems_eq (draft : ArrayDraft) (typed : s.itemTypes items = .ok types) :
    s.addItems draft items = types.foldlM ArrayDraft.add draft := by
  fun_induction itemTypes s items generalizing draft types with
  | case1 => cases typed; rfl
  | case2 value items ih =>
    obtain ⟨type, here, typed⟩ := except_bind_ok.mp typed
    obtain ⟨later, rest, ⟨⟩⟩ := except_bind_ok.mp typed
    rw [addItems, here, List.foldlM_cons, ArrayDraft.add, Option.getD_none]
    cases draft.note (.constInt draft.next) with
    | error fault => rfl
    | ok noted => exact ih _ rest
  | case3 key value items ih =>
    obtain ⟨keyType, there, typed⟩ := except_bind_ok.mp typed
    obtain ⟨type, here, typed⟩ := except_bind_ok.mp typed
    obtain ⟨later, rest, ⟨⟩⟩ := except_bind_ok.mp typed
    rw [addItems, here, there, List.foldlM_cons, ArrayDraft.add, Option.getD_some]
    change (draft.note keyType >>= _) = _
    cases draft.note keyType with
    | error fault => rfl
    | ok noted => exact ih _ rest

theorem typeOf_array (typed : s.itemTypes items = .ok types)
    (literal : ∀ item ∈ types, ∀ key, item.1 = some key → key.isKey = true) :
    s.typeOf (.array items) =
      if .constInt Int64.maxValue ∈ keysFrom 0 types then .error (.breakdown .overflow)
      else .ok (.constArray (entriesOf types)) := by
  have allKeys : (keysFrom 0 types).all (·.isKey) = true :=
    List.all_eq_true.mpr (isKey_keysFrom 0 literal)
  rw [typeOf, addItems_eq _ typed, ArrayDraft.foldlM_add]
  change (if .constInt Int64.maxValue ∈ keysFrom 0 types then _ else _) >>= _ = _
  split
  · rfl
  · change Except.ok (ArrayDraft.toTy _) = _
    rw [ArrayDraft.toTy, Bool.true_and, allKeys]
    rfl

/-- As long as the sums for the next free index stay within 64 bits, which is if no item gets the
    greatest integer as its key, a literal array has each key that its items get once, in order of
    first occurrence, with the value of its last occurrence, and an item without a key lands behind
    all indices before it. Otherwise inference breaks down. -/
theorem typeOf_array_keys (typed : s.itemTypes items = .ok types)
    (literal : ∀ item ∈ types, ∀ key, item.1 = some key → key.isKey = true) :
    let keys := keysFrom 0 types
    (Fits keys ↔ .constInt Int64.maxValue ∉ keys) ∧
      (Fits keys → ∃ entries, s.typeOf (.array items) = .ok (.constArray entries) ∧
        entries.map (·.1) = keys.eraseDups ∧ (entries.map (·.1)).Nodup ∧
        (∀ key value, (key, value) ∈ entries ↔
          (keys.zip (types.map (·.2))).reverse.lookup key = some value) ∧
        ∀ n value, types[n]? = some (none, value) → Placed keys n) ∧
      (¬Fits keys → s.typeOf (.array items) = .error (.breakdown .overflow)) := by
  intro keys
  have inferred := typeOf_array typed literal
  refine ⟨fits_iff, fun fits => ?_, fun overflows => ?_⟩
  · have once := map_fst_entriesOf types
    obtain ⟨-, last⟩ := foldl_putEntry (keys.zip (types.map (·.2)))
    refine ⟨_, inferred.trans (if_neg (fits_iff.mp fits)), once, ?_, last, ?_⟩
    · rw [once]
      exact Distinct.nodup_eraseDups keys
    · exact fun n value here => placed_of_fits fits here
  · rw [inferred, if_pos (Classical.not_not.mp (overflows ∘ fits_iff.mpr))]

/-- A negative index does not count for the items without a key, and a repeated name keeps its place
    and gets the later value. -/
theorem typeOf_array_keys_mixed :
    let items : List (Option Expr × Expr) :=
      [(some (.int (-5)), .bool true), (none, .bool false), (some (.text "x"), .null),
        (none, .this), (some (.text "x"), .text "last")]
    let keys : List Ty :=
      [.constInt (-5), .constInt 0, .constString "x", .constInt 1, .constString "x"]
    ∃ entries, typeOf { table := {} } (.array items) = .ok (.constArray entries) ∧
      entries.map (·.1) = keys.eraseDups ∧ (.constString "x", .constString "last") ∈ entries ∧
      Fits keys ∧ Placed keys 1 ∧ Placed keys 3 := by
  intro items keys
  let types : List (Option Ty × Ty) :=
    [(some (.constInt (-5)), .constBool true), (none, .constBool false),
      (some (.constString "x"), .null), (none, .mixed),
      (some (.constString "x"), .constString "last")]
  have literal : ∀ item ∈ types, ∀ key, item.1 = some key → key.isKey = true := by
    simp [types, Ty.isKey]
  have inferred : itemTypes { table := {} } items = .ok types := rfl
  obtain ⟨within, array, -⟩ := typeOf_array_keys inferred literal
  have fits : Fits keys := within.mpr (by decide)
  obtain ⟨entries, typed, once, -, last, placed⟩ := array fits
  exact ⟨entries, typed, once, (last _ _).mpr (by decide), fits, placed 1 _ rfl, placed 3 _ rfl⟩

/-- Behind the greatest integer there is no next free index, so an item that gets that key ends
    inference. -/
theorem typeOf_array_overflows :
    let greatest := Int64.maxValue
    let items : List (Option Expr × Expr) :=
      [(some (.int (greatest - 1)), .text "a"), (none, .text "b"), (none, .text "c")]
    let types : List (Option Ty × Ty) :=
      [(some (.constInt (greatest - 1)), .constString "a"), (none, .constString "b"),
        (none, .constString "c")]
    itemTypes { table := {} } items = .ok types ∧ ¬Fits (keysFrom 0 types) ∧
      typeOf { table := {} } (.array items) = .error (.breakdown .overflow) := by
  intro greatest items types
  have assigned : .constInt Int64.maxValue ∈ keysFrom 0 types := by decide
  have typed : itemTypes { table := {} } items = .ok types := rfl
  refine ⟨typed, fun fits => fits_iff.mp fits assigned, ?_⟩
  rw [typeOf_array typed (by simp [types, Ty.isKey]), if_pos assigned]

end Scope

end EntityAudit
