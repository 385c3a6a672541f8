/-! # Finite maps in order of first insertion

A `Dict` pairs names with values. Writing replaces a value where it stands or appends a new one.
-/

namespace EntityAudit

/-- Names with their values, in order of first insertion. -/
abbrev Dict (α : Type) := List (String × α)

namespace Dict

variable {α : Type}

def get? : Dict α → String → Option α
  | [], _ => none
  | (k, v) :: rest, key => if k = key then some v else get? rest key

def has (d : Dict α) (key : String) : Bool :=
  (d.get? key).isSome

/-- Give `key` the value `value`, in place when it already had one. -/
def put : Dict α → String → α → Dict α
  | [], key, value => [(key, value)]
  | (k, v) :: rest, key, value =>
    if k = key then (key, value) :: rest else (k, v) :: put rest key value

def remove (d : Dict α) (key : String) : Dict α :=
  d.filter fun entry => entry.1 != key

def keys (d : Dict α) : List String :=
  d.map (·.1)

def values (d : Dict α) : List α :=
  d.map (·.2)

/-- Reading after a write gives the written value at its name and the old one elsewhere. -/
@[simp, grind =] theorem get?_put (d : Dict α) (key other : String) (value : α) :
    (d.put key value).get? other = if key = other then some value else d.get? other := by
  induction d with
  | nil => simp [put, get?]
  | cons head rest ih =>
    obtain ⟨k, v⟩ := head
    by_cases h : k = key
    · subst h; by_cases h' : k = other <;> simp [put, get?, h']
    · by_cases h' : k = other
      · subst h'; simp [put, get?, h, Ne.symm h]
      · simp [put, get?, h, h', ih]

theorem has_iff_mem_keys (d : Dict α) (key : String) : d.has key = true ↔ key ∈ d.keys := by
  induction d with
  | nil => simp [has, get?, keys]
  | cons head rest ih =>
    obtain ⟨k, v⟩ := head
    simp only [has, keys] at ih
    by_cases h : k = key
    · simp [has, get?, keys, h]
    · simp [has, get?, keys, h, Ne.symm h, ih]

theorem mem_keys_of_get? {d : Dict α} {key : String} {value : α} (h : d.get? key = some value) :
    key ∈ d.keys :=
  (has_iff_mem_keys d key).mp (by simp [has, h])

theorem length_remove_lt {d : Dict α} {key : String} {value : α} (h : d.get? key = some value) :
    (d.remove key).length < d.length := by
  have mem := mem_keys_of_get? h
  simp only [keys, List.mem_map] at mem
  obtain ⟨entry, inside, same⟩ := mem
  exact List.length_filter_lt_length_iff_exists.mpr ⟨entry, inside, by simp [same]⟩

/-- Writing keeps the listed names and appends the written one when it is new. -/
theorem keys_put (d : Dict α) (key : String) (value : α) :
    (d.put key value).keys = if key ∈ d.keys then d.keys else d.keys ++ [key] := by
  induction d with
  | nil => simp [put, keys]
  | cons head rest ih =>
    obtain ⟨k, v⟩ := head
    simp only [keys] at ih
    by_cases h : k = key
    · simp [put, keys, h]
    · by_cases h' : key ∈ rest.map (·.1)
      · simp only [h', if_true] at ih
        simp only [put, if_neg h, keys, List.map_cons, ih, List.mem_cons, h', or_true, if_true]
      · simp only [h', if_false] at ih
        have : key ≠ k := Ne.symm h
        simp only [put, if_neg h, keys, List.map_cons, ih, List.mem_cons, h', this, or_false,
          if_false, List.cons_append]

theorem put_of_not_mem {d : Dict α} {key : String} (absent : key ∉ d.keys) (value : α) :
    d.put key value = d ++ [(key, value)] := by
  induction d with
  | nil => rfl
  | cons entry d ih =>
    obtain ⟨k, v⟩ := entry
    simp only [keys, List.map_cons, List.mem_cons, not_or] at absent ih
    rw [put, if_neg (Ne.symm absent.1), ih absent.2, List.cons_append]

theorem nodup_keys_put {d : Dict α} (distinct : d.keys.Nodup) (key : String)
    (value : α) : (d.put key value).keys.Nodup := by
  rw [keys_put]
  split
  · exact distinct
  · rename_i fresh
    exact List.nodup_append.mpr ⟨distinct, by simp, by grind⟩

theorem get?_eq_none_of_not_mem {d : Dict α} {key : String}
    (absent : key ∉ d.keys) : d.get? key = none := by
  have none : d.has key ≠ true := fun present => absent ((d.has_iff_mem_keys key).mp present)
  simpa [has] using none

theorem not_mem_of_get?_eq_none {d : Dict α} {key : String} (absent : d.get? key = none) :
    key ∉ d.keys := by
  rw [← has_iff_mem_keys, has, absent]
  exact Bool.false_ne_true

theorem mem_of_get? {d : Dict α} {key : String} {value : α}
    (found : d.get? key = some value) : (key, value) ∈ d := by
  induction d with
  | nil => simp [get?] at found
  | cons entry d ih =>
    obtain ⟨k, v⟩ := entry
    rw [get?] at found
    split at found
    · rename_i same
      cases found
      simp [same]
    · exact List.mem_cons_of_mem _ (ih found)

theorem get?_eq_some_iff {d : Dict α} (distinct : d.keys.Nodup) {key : String}
    {value : α} : d.get? key = some value ↔ (key, value) ∈ d := by
  refine ⟨mem_of_get?, fun inside => ?_⟩
  induction d with
  | nil => cases inside
  | cons entry d ih =>
    obtain ⟨k, v⟩ := entry
    obtain ⟨new, distinct⟩ := List.nodup_cons.mp distinct
    rcases List.mem_cons.mp inside with same | later
    · cases same
      rw [get?, if_pos rfl]
    · have other : k ≠ key := by
        rintro rfl
        exact new (List.mem_map.mpr ⟨_, later, rfl⟩)
      rw [get?, if_neg other]
      exact ih distinct later

theorem get?_remove (d : Dict α) (key other : String) :
    (d.remove key).get? other = if key = other then none else d.get? other := by
  induction d with
  | nil => simp [remove, get?]
  | cons entry d ih =>
    obtain ⟨k, v⟩ := entry
    rw [remove] at ih ⊢
    by_cases removed : k = key
    · subst removed
      rw [List.filter_cons_of_neg (by simp), ih, get?]
      by_cases same : k = other <;> simp [same]
    · rw [List.filter_cons_of_pos (by simp [removed]), get?, get?, ih]
      by_cases same : key = other
      · subst same
        simp [removed]
      · simp [same]

theorem get?_of_remove {d : Dict α} {key other : String} {value : α}
    (found : (d.remove key).get? other = some value) : d.get? other = some value := by
  rw [get?_remove] at found
  split at found
  · contradiction
  · exact found

end Dict

end EntityAudit
