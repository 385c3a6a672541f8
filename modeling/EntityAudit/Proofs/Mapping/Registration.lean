import EntityAudit.Mapping.Schema
import EntityAudit.Proofs.Outcome

/-! # What is kept in a catalog

A catalog is changed in four ways: its kind is set, records and classes of other drivers are
registered, and a schema file takes its place. Each change is made as a whole or not at all, and
whatever changes are asked for, the records stay consistent.
-/

namespace EntityAudit

variable {c : Catalog} {record : EntityRecord}
variable {c' : Catalog}

namespace EntityRecord

theorem firstRepeat?_eq_none_iff {seen names} :
    firstRepeat? seen names = none ↔ names.Nodup ∧ ∀ name ∈ names, name ∉ seen := by
  induction names generalizing seen with
  | nil => simp [firstRepeat?]
  | cons name names ih =>
    rw [firstRepeat?, List.contains_eq_mem]
    by_cases known : name ∈ seen
    · simp [known]
    · simp only [known, decide_false, Bool.false_eq_true, if_false, ih, List.nodup_cons,
        List.mem_cons, not_or, forall_eq_or_imp, not_false_eq_true, true_and]
      constructor
      · rintro ⟨distinct, fresh⟩
        exact ⟨⟨fun again => (fresh name again).1 rfl, distinct⟩,
          fun other inside => (fresh other inside).2⟩
      · rintro ⟨⟨new, distinct⟩, fresh⟩
        exact ⟨distinct,
          fun other inside => ⟨fun same => new (same ▸ inside), fresh other inside⟩⟩

theorem validate_of_nodup {r : EntityRecord} (distinct : r.propertyNames.Nodup) :
    r.validate = .ok r := by
  rw [validate, firstRepeat?_eq_none_iff.mpr ⟨distinct, by simp⟩]

theorem validate_of_not_nodup {r : EntityRecord} (repeats : ¬ r.propertyNames.Nodup) :
    ∃ property, r.validate = .error (.repeatedProperty property r.className) := by
  rw [validate]
  cases found : firstRepeat? [] r.propertyNames with
  | none => exact absurd (firstRepeat?_eq_none_iff.mp found).1 repeats
  | some property => exact ⟨property, rfl⟩

end EntityRecord

namespace Catalog

theorem isTransient_iff {name} :
    c.isTransient name = true ↔
      Text.foldCase name ∉ c.records.keys ∧ Text.foldCase name ∉ c.foreign.keys := by
  simp [isTransient, ← Dict.has_iff_mem_keys]

theorem toSource_isTransient_iff (name : String) :
    c.toSource.isTransient name = true ↔ c.toSource.mappingOf name = .ok .transient := by
  simp only [toSource, Except.ok.injEq, isTransient, mappingOf, Dict.has]
  cases c.records.get? (Text.foldCase name) with
  | some record => simp
  | none => cases c.foreign.get? (Text.foldCase name) <;> simp

def appended (c : Catalog) (record : EntityRecord) : Catalog :=
  { c with records := c.records ++ [(Text.foldCase record.className, record)] }

theorem insert_of_nodup (distinct : record.propertyNames.Nodup) :
    insert record c =
      if c.records.has (Text.foldCase record.className) ||
          c.foreign.has (Text.foldCase record.className) then
        .error (.repeatedClass record.className) c
      else .ok ⟨⟩ { c with records := c.records.put (Text.foldCase record.className) record } := by
  rw [insert, record.validate_of_nodup distinct]
  have read : (MonadExcept.ofExcept (.ok record) : EStateM MappingFault Catalog _) c =
      .ok record c := rfl
  rw [bind_of_ok read, get_bind]
  split <;> rfl

theorem insert_of_error {fault} (invalid : record.validate = .error fault) :
    insert record c = .error fault c := by
  rw [insert, invalid]
  rfl

theorem add_of_fresh (distinct : record.propertyNames.Nodup)
    (fresh : c.isTransient record.className = true) : c.add record = .ok (c.appended record) := by
  obtain ⟨unmapped, undriven⟩ := isTransient_iff.mp fresh
  have unknown : ¬ (c.records.has (Text.foldCase record.className) ||
      c.foreign.has (Text.foldCase record.className)) = true := by
    rw [Bool.or_eq_true, Dict.has_iff_mem_keys, Dict.has_iff_mem_keys, not_or]
    exact ⟨unmapped, undriven⟩
  rw [add, insert_of_nodup distinct, if_neg unknown,
    Dict.put_of_not_mem unmapped]
  rfl

theorem add_of_known (distinct : record.propertyNames.Nodup)
    (known : c.isTransient record.className = false) :
    c.add record = .error (.repeatedClass record.className) := by
  have taken : (c.records.has (Text.foldCase record.className) ||
      c.foreign.has (Text.foldCase record.className)) = true := by
    rw [isTransient, ← Bool.not_or, Bool.not_eq_false'] at known
    exact known
  rw [add, insert_of_nodup distinct, if_pos taken]

theorem add_of_repeats (repeats : ¬ record.propertyNames.Nodup) :
    ∃ property, c.add record = .error (.repeatedProperty property record.className) := by
  obtain ⟨property, invalid⟩ := record.validate_of_not_nodup repeats
  exact ⟨property, by rw [add, insert_of_error invalid]⟩

theorem add_ok :
    c.add record = .ok c' ↔ (record.propertyNames.Nodup ∧ c.isTransient record.className = true) ∧
      c' = c.appended record := by
  constructor
  · intro added
    by_cases distinct : record.propertyNames.Nodup
    · cases fresh : c.isTransient record.className with
      | true =>
        rw [add_of_fresh distinct fresh] at added
        cases added
        exact ⟨⟨distinct, rfl⟩, rfl⟩
      | false =>
        rw [add_of_known distinct fresh] at added
        cases added
    · obtain ⟨property, refused⟩ := c.add_of_repeats distinct
      rw [refused] at added
      cases added
  · rintro ⟨⟨distinct, fresh⟩, rfl⟩
    exact add_of_fresh distinct fresh

/-- What is inserted is there at once or not at all: a catalog that refuses a record stays as it
    is. -/
theorem insert_eq : insert record c =
    match c.add record with
    | .ok c' => .ok ⟨⟩ c'
    | .error fault => .error fault c := by
  rw [add]
  by_cases distinct : record.propertyNames.Nodup
  · rw [insert_of_nodup distinct]
    split <;> rfl
  · obtain ⟨property, invalid⟩ := record.validate_of_not_nodup distinct
    rw [insert_of_error invalid]

theorem isTransient_appended {name} :
    (c.appended record).isTransient name = true ↔
      c.isTransient name = true ∧ Text.foldCase name ≠ Text.foldCase record.className := by
  simp only [isTransient_iff, appended, Dict.keys, List.map_append, List.map_cons, List.map_nil,
    List.mem_append, List.mem_singleton, not_or]
  exact and_right_comm

end Catalog

/-- The entities of the file contradict neither themselves nor each other: none declares a property
    twice, and no two are of one class. -/
def SchemaFile.IsConsistent (file : SchemaFile) : Prop :=
  (∀ e ∈ file.entities, e.toRecord.propertyNames.Nodup) ∧
    (file.entities.map fun e => Text.foldCase e.className).Nodup

def Catalog.appendedAll (c : Catalog) (entries : List EntityEntry) : Catalog :=
  entries.foldl (fun c e => c.appended e.toRecord) c

theorem foldlM_add_ok {entries} :
    entries.foldlM (fun c e => c.add e.toRecord) c = .ok c' ↔
      ((∀ e ∈ entries, e.toRecord.propertyNames.Nodup) ∧
        (entries.map fun e => Text.foldCase e.className).Nodup ∧
        ∀ e ∈ entries, c.isTransient e.className = true) ∧ c' = c.appendedAll entries := by
  induction entries generalizing c with
  | nil =>
    constructor
    · rintro ⟨⟩
      exact ⟨⟨by simp, by simp, by simp⟩, rfl⟩
    · rintro ⟨-, rfl⟩
      rfl
  | cons e entries ih =>
    have same : e.toRecord.className = e.className := rfl
    simp only [List.foldlM_cons, except_bind_ok, Catalog.add_ok, ih, List.forall_mem_cons,
      List.map_cons, List.nodup_cons, List.mem_map, same, Catalog.appendedAll, List.foldl_cons]
    constructor
    · rintro ⟨_, ⟨⟨distinct, fresh⟩, rfl⟩, ⟨others, apart, unknown⟩, rfl⟩
      have each (e' : EntityEntry) (inside : e' ∈ entries) :=
        Catalog.isTransient_appended.mp (unknown e' inside)
      refine ⟨⟨⟨distinct, others⟩, ⟨?_, apart⟩, fresh, fun e' inside => (each e' inside).1⟩, rfl⟩
      rintro ⟨e', inside, again⟩
      exact (each e' inside).2 again
    · rintro ⟨⟨⟨distinct, others⟩, ⟨new, apart⟩, fresh, unknown⟩, rfl⟩
      refine ⟨_, ⟨⟨distinct, fresh⟩, rfl⟩, ⟨others, apart, fun e' inside => ?_⟩, rfl⟩
      exact Catalog.isTransient_appended.mpr
        ⟨unknown e' inside, fun again => new ⟨e', inside, again⟩⟩

def Catalog.withDocuments (c : Catalog) (documents : List String) : Catalog :=
  documents.foldl (fun c name => c.addForeign name "document") c

theorem SchemaFile.toCatalog_ok {file : SchemaFile} :
    file.toCatalog = .ok c ↔ file.IsConsistent ∧
      c = (Catalog.appendedAll { kind := file.manager } file.entities).withDocuments
        file.documents := by
  have fresh (name : String) : Catalog.isTransient (Catalog.withKind {} file.manager) name = true :=
    Catalog.isTransient_iff.mpr ⟨List.not_mem_nil, List.not_mem_nil⟩
  rw [toCatalog, except_bind_ok]
  constructor
  · rintro ⟨records, added, done⟩
    obtain ⟨⟨distinct, apart, -⟩, rfl⟩ := foldlM_add_ok.mp added
    cases done
    exact ⟨⟨distinct, apart⟩, rfl⟩
  · rintro ⟨⟨distinct, apart⟩, rfl⟩
    exact ⟨_, foldlM_add_ok.mpr ⟨⟨distinct, apart, fun e _ => fresh e.className⟩, rfl⟩, rfl⟩

/-- Something to register in a catalog. -/
inductive Registration where
  | mapped (record : EntityRecord)
  | foreign (name driver : String)

/-- Put a catalog in the place of what is there, unless there is none. -/
def Catalog.adopt (outcome : Except Failure Catalog) : EStateM Failure Catalog PUnit :=
  match outcome with
  | .ok c => set c
  | .error failure => throw failure

/-- The catalog that a run ends with, whether it fails or not. -/
def Catalog.after (c : Catalog) (run : EStateM Failure Catalog PUnit) : Catalog :=
  match run c with
  | .ok _ c' => c'
  | .error _ c' => c'

namespace Registration

def make : Registration → EStateM Failure Catalog PUnit
  | .mapped record => (Catalog.insert record).adaptExcept .metadata
  | .foreign name driver => modify (·.addForeign name driver)

def Fits (c : Catalog) : Registration → Prop
  | .mapped record => record.propertyNames.Nodup ∧ c.isTransient record.className = true
  | .foreign _ _ => True

def entered (c : Catalog) : Registration → Catalog
  | .mapped record => c.appended record
  | .foreign name driver => c.addForeign name driver

theorem make_of_fits {entry : Registration} (fits : entry.Fits c) :
    entry.make c = .ok ⟨⟩ (entry.entered c) := by
  cases entry with
  | foreign name driver => rfl
  | mapped record =>
    have added := Catalog.add_of_fresh fits.1 fits.2
    rw [make, EStateM.adaptExcept, Catalog.insert_eq, added]
    rfl

theorem make_of_not_fits {entry : Registration} (unfit : ¬ entry.Fits c) :
    ∃ fault, entry.make c = .error (.metadata fault) c := by
  cases entry with
  | foreign name driver => exact absurd trivial unfit
  | mapped record =>
    cases refused : c.add record with
    | ok c' => exact absurd (Catalog.add_ok.mp refused).1 unfit
    | error fault =>
      exact ⟨fault, by rw [make, EStateM.adaptExcept, Catalog.insert_eq, refused]⟩

end Registration

/-- A change to a catalog. -/
inductive Change where
  | setKind (kind : ManagerKind)
  | register (entry : Registration)
  /-- Put the catalog that a schema file describes in the place of this one. -/
  | load (file : SchemaFile)
  /-- Put the catalog that the text of a schema file describes in the place of this one. -/
  | loadText (text : String)

def Change.make : Change → EStateM Failure Catalog PUnit
  | .setKind kind => modify (·.withKind kind)
  | .register entry => entry.make
  | .load file => Catalog.adopt (file.toCatalog.mapError .metadata)
  | .loadText text => Catalog.adopt (SchemaFile.catalogOfText text)

/-- Whether a change contradicts neither itself nor what is there. -/
def Change.Fits (c : Catalog) : Change → Prop
  | .setKind _ => True
  | .register entry => entry.Fits c
  | .load file => file.IsConsistent
  | .loadText text => ∃ file, SchemaFile.ofText text = .ok file ∧ file.IsConsistent

/-- What holds of a catalog, whatever changes it has seen. -/
structure Catalog.WellKept (c : Catalog) : Prop where
  /-- A record stands under the name of its class in lower case. -/
  keyed : ∀ entry ∈ c.records, entry.1 = Text.foldCase entry.2.className
  /-- No two records are of one class. -/
  apart : c.records.values.Pairwise fun r r' =>
    Text.foldCase r.className ≠ Text.foldCase r'.className
  /-- No record declares a property twice. -/
  distinct : ∀ record ∈ c.records.values, record.propertyNames.Nodup
  /-- The classes said not to be mapped are those whose mapping says so. -/
  transient : ∀ name, c.toSource.isTransient name = true ↔
    c.toSource.mappingOf name = .ok .transient

namespace Catalog.WellKept

variable {c : Catalog}

theorem of_records_nil (none : c.records = []) : c.WellKept where
  keyed := by simp [none]
  apart := by simp [none, Dict.values]
  distinct := by simp [none, Dict.values]
  transient := toSource_isTransient_iff

section

variable (kept : c.WellKept)

include kept

theorem of_records_eq (same : c'.records = c.records) :
    c'.WellKept where
  keyed := same ▸ kept.keyed
  apart := same ▸ kept.apart
  distinct := same ▸ kept.distinct
  transient := toSource_isTransient_iff

theorem appended (distinct : record.propertyNames.Nodup)
    (fresh : c.isTransient record.className = true) :
    (c.appended record).WellKept where
  keyed := by
    intro entry inside
    rcases List.mem_append.mp inside with earlier | last
    · exact kept.keyed entry earlier
    · rw [List.mem_singleton.mp last]
  apart := by
    have new : ∀ r ∈ c.records.values,
        Text.foldCase r.className ≠ Text.foldCase record.className := by
      intro r inside again
      obtain ⟨entry, among, rfl⟩ := List.mem_map.mp inside
      apply (isTransient_iff.mp fresh).1
      rw [← again, ← kept.keyed entry among]
      exact List.mem_map.mpr ⟨entry, among, rfl⟩
    rw [Catalog.appended, Dict.values, List.map_append, List.map_singleton]
    refine List.pairwise_append.mpr ⟨kept.apart, List.pairwise_singleton _ _, ?_⟩
    intro r inside r' last
    rw [List.mem_singleton.mp last]
    exact new r inside
  distinct := by
    intro r inside
    rw [Catalog.appended, Dict.values, List.map_append, List.map_singleton] at inside
    rcases List.mem_append.mp inside with earlier | last
    · exact kept.distinct r earlier
    · rw [List.mem_singleton.mp last]
      exact distinct
  transient := toSource_isTransient_iff

theorem entered {entry : Registration} (fits : entry.Fits c) :
    (entry.entered c).WellKept := by
  cases entry with
  | mapped record => exact kept.appended fits.1 fits.2
  | foreign name driver => exact kept.of_records_eq rfl

theorem foldlM_add {entries : List EntityEntry}
    (added : entries.foldlM (fun c e => c.add e.toRecord) c = .ok c') : c'.WellKept := by
  induction entries generalizing c with
  | nil =>
    cases added
    exact kept
  | cons e entries ih =>
    rw [List.foldlM_cons] at added
    obtain ⟨next, first, rest⟩ := except_bind_ok.mp added
    obtain ⟨⟨distinct, fresh⟩, rfl⟩ := add_ok.mp first
    exact ih (kept.appended distinct fresh) rest

theorem withDocuments (documents : List String) :
    (c.withDocuments documents).WellKept := by
  induction documents generalizing c with
  | nil => exact kept
  | cons name documents ih => exact ih (kept.of_records_eq rfl)

end

theorem toCatalog {file : SchemaFile} (loaded : file.toCatalog = .ok c) : c.WellKept := by
  obtain ⟨records, added, done⟩ := except_bind_ok.mp loaded
  cases done
  exact (foldlM_add (of_records_nil rfl) added).withDocuments file.documents

end Catalog.WellKept

namespace Change

/-- A change that fits is made and keeps the catalog consistent; any other fails and leaves the
    catalog as it was. -/
inductive Outcome (c : Catalog) (change : Change) : Prop
  | made {c' : Catalog} (fits : change.Fits c) (done : change.make c = .ok ⟨⟩ c')
      (kept : c'.WellKept) : Outcome c change
  | refused {failure : Failure} (unfit : ¬ change.Fits c)
      (failed : change.make c = .error failure c) : Outcome c change

theorem outcome_load (c : Catalog) (file : SchemaFile) : (Change.load file).Outcome c := by
  have made : (Change.load file).make c =
      Catalog.adopt (file.toCatalog.mapError .metadata) c := rfl
  cases loaded : file.toCatalog with
  | ok c' =>
    rw [loaded] at made
    exact .made (SchemaFile.toCatalog_ok.mp loaded).1 made (.toCatalog loaded)
  | error fault =>
    rw [loaded] at made
    refine .refused (fun fits => ?_) made
    rw [SchemaFile.toCatalog_ok.mpr ⟨fits, rfl⟩] at loaded
    cases loaded

theorem outcome_loadText (c : Catalog) (text : String) : (Change.loadText text).Outcome c := by
  have made : (Change.loadText text).make c = Catalog.adopt (SchemaFile.catalogOfText text) c := rfl
  cases read : SchemaFile.ofText text with
  | error failure =>
    rw [SchemaFile.catalogOfText, read] at made
    refine .refused ?_ made
    rintro ⟨file, found, -⟩
    rw [read] at found
    cases found
  | ok file =>
    -- What was read is loaded like a file that is given as such.
    rw [SchemaFile.catalogOfText, read] at made
    cases outcome_load c file with
    | made fits done kept => exact .made ⟨file, read, fits⟩ (made.trans done) kept
    | refused unfit failed =>
      refine .refused ?_ (made.trans failed)
      rintro ⟨file', found, fits⟩
      rw [read] at found
      cases found
      exact unfit fits

theorem outcome (kept : c.WellKept) (change : Change) : change.Outcome c := by
  cases change with
  | setKind kind => exact .made trivial rfl (kept.of_records_eq rfl)
  | register entry =>
    by_cases fits : entry.Fits c
    · exact .made fits (entry.make_of_fits fits) (kept.entered fits)
    · obtain ⟨fault, failed⟩ := entry.make_of_not_fits fits
      exact .refused fits failed
  | load file => exact outcome_load c file
  | loadText text => exact outcome_loadText c text

theorem wellKept_after (kept : c.WellKept) (change : Change) : (c.after change.make).WellKept := by
  rw [Catalog.after]
  cases outcome kept change with
  | made fits done kept =>
    rw [done]
    exact kept
  | refused unfit failed =>
    rw [failed]
    exact kept

theorem wellKept_run (kept : c.WellKept) (changes : List Change) :
    (changes.foldl (fun c change => c.after change.make) c).WellKept := by
  induction changes generalizing c with
  | nil => exact kept
  | cons change changes ih => exact ih (wellKept_after kept change)

end Change

/-- Whatever changes an empty catalog is asked for, each record stands under the name of its class
    in lower case, no two records are of one class, none declares a property twice, and the classes
    said not to be mapped are those whose mapping says so. From there every further change is made
    exactly if it contradicts neither itself nor what is there; if it fails the catalog stays as it
    is. -/
theorem catalog_wellKept (changes : List Change) :
    let c : Catalog := changes.foldl (fun c change => c.after change.make) {}
    c.WellKept ∧ ∀ change : Change, change.Outcome c := by
  intro c
  have kept : c.WellKept := Change.wellKept_run (.of_records_nil rfl) changes
  exact ⟨kept, Change.outcome kept⟩

/-- A class added twice, a file that names a class twice and a text that is no schema file change
    nothing. -/
example :
    let post : EntityRecord := { className := "Post", table := "post" }
    let twice : SchemaFile := { entities := [{ className := "A" }, { className := "a" }] }
    let changes : List Change := [.register (.mapped post), .register (.mapped { post with
      className := "POST" }), .load twice, .loadText "[", .register (.foreign "Log" "document")]
    let c : Catalog := changes.foldl (fun c change => c.after change.make) {}
    c = { records := [("post", post)], foreign := [("log", "document")] } := by
  decide +kernel

end EntityAudit
