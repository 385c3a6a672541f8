import EntityAudit.Proofs.Mapping.Registration

/-! # Classes with two drivers

A record is refused for a class that another driver maps, but not the other way round, and a schema
file may list a class both among its entities and among its documents. Such a class is mapped twice,
and its record hides the other driver.
-/

namespace EntityAudit

def Catalog.MapsTwice (c : Catalog) (name : String) : Prop :=
  Text.foldCase name ∈ c.records.keys ∧ Text.foldCase name ∈ c.foreign.keys

namespace Catalog

variable {c : Catalog}
variable {key name : String} {entries : List Registration}

def register (c : Catalog) (entries : List Registration) : Catalog :=
  entries.foldl (fun c entry => c.after entry.make) c

theorem keys_addForeign {driver} :
    key ∈ (c.addForeign name driver).foreign.keys ↔
      key ∈ c.foreign.keys ∨ Text.foldCase name = key := by
  rw [addForeign, Dict.keys_put]
  split
  next known => exact ⟨.inl, fun either => either.elim id fun same => same ▸ known⟩
  next => rw [List.mem_append, List.mem_singleton, eq_comm (a := key)]

theorem keys_records_after {entry : Registration} :
    key ∈ (c.after entry.make).records.keys ↔ key ∈ c.records.keys ∨
      ∃ record, entry = .mapped record ∧ entry.Fits c ∧ Text.foldCase record.className = key := by
  by_cases fits : entry.Fits c
  · rw [after, entry.make_of_fits fits]
    cases entry with
    | mapped record =>
      simp [Registration.entered, appended, Dict.keys, fits, eq_comm (a := key)]
    | foreign name driver => simp [Registration.entered, addForeign]
  · obtain ⟨fault, failed⟩ := entry.make_of_not_fits fits
    rw [after, failed]
    simp [fits]

theorem keys_foreign_after {entry : Registration} :
    key ∈ (c.after entry.make).foreign.keys ↔ key ∈ c.foreign.keys ∨
      ∃ name driver, entry = .foreign name driver ∧ Text.foldCase name = key := by
  cases entry with
  | foreign name driver =>
    rw [after, (Registration.foreign name driver).make_of_fits trivial, Registration.entered]
    simp [keys_addForeign]
  | mapped record =>
    by_cases fits : (Registration.mapped record).Fits c
    · rw [after, Registration.make_of_fits fits]
      simp [Registration.entered, appended]
    · obtain ⟨fault, failed⟩ := Registration.make_of_not_fits fits
      rw [after, failed]
      simp

theorem keys_records_register :
    key ∈ (c.register entries).records.keys ↔ key ∈ c.records.keys ∨
      ∃ before record after, entries = before ++ .mapped record :: after ∧
        (Registration.mapped record).Fits (c.register before) ∧
        Text.foldCase record.className = key := by
  induction entries generalizing c with
  | nil => simp [register]
  | cons entry entries ih =>
    have first : c.register (entry :: entries) = (c.after entry.make).register entries := rfl
    rw [first, ih, keys_records_after, or_assoc]
    apply or_congr_right
    constructor
    · rintro (⟨record, rfl, fits, same⟩ | ⟨before, record, after, rfl, fits, same⟩)
      · exact ⟨[], record, entries, rfl, fits, same⟩
      · exact ⟨entry :: before, record, after, rfl, fits, same⟩
    · rintro ⟨before, record, after, split, fits, same⟩
      cases before with
      | nil =>
        cases split
        exact .inl ⟨record, rfl, fits, same⟩
      | cons entry before =>
        cases split
        exact .inr ⟨before, record, after, rfl, fits, same⟩

theorem keys_foreign_register :
    key ∈ (c.register entries).foreign.keys ↔ key ∈ c.foreign.keys ∨
      ∃ name driver, .foreign name driver ∈ entries ∧ Text.foldCase name = key := by
  induction entries generalizing c with
  | nil => simp [register]
  | cons entry entries ih =>
    have first : c.register (entry :: entries) = (c.after entry.make).register entries := rfl
    simp only [first, ih, keys_foreign_after, List.mem_cons, or_and_right, exists_or, or_assoc,
      eq_comm (a := entry)]

/-- A class is mapped twice exactly if a record for it was registered when it fitted, and after that
    another driver. -/
theorem mapsTwice_register_iff :
    (register {} entries).MapsTwice name ↔ ∃ before record between spelled driver after,
      entries = before ++ .mapped record :: between ++ .foreign spelled driver :: after ∧
      (Registration.mapped record).Fits (register {} before) ∧
      Text.foldCase record.className = Text.foldCase name ∧
      Text.foldCase spelled = Text.foldCase name := by
  constructor
  · rintro ⟨mapped, driven⟩
    obtain ⟨before, record, after, rfl, fits, same⟩ :=
      (keys_records_register.mp mapped).resolve_left List.not_mem_nil
    obtain ⟨spelled, driver, inside, same'⟩ :=
      (keys_foreign_register.mp driven).resolve_left List.not_mem_nil
    rcases List.mem_append.mp inside with earlier | later
    · -- A record does not fit where another driver came first.
      refine absurd (keys_foreign_register.mpr (.inr ?_)) (isTransient_iff.mp fits.2).2
      exact ⟨spelled, driver, earlier, same'.trans same.symm⟩
    · have later := (List.mem_cons.mp later).resolve_left (by simp)
      obtain ⟨between, rest, rfl⟩ := List.append_of_mem later
      exact ⟨before, record, between, spelled, driver, rest, by simp, fits, same, same'⟩
  · rintro ⟨before, record, between, spelled, driver, after, rfl, fits, same, same'⟩
    constructor
    · exact keys_records_register.mpr
        (.inr ⟨before, record, between ++ .foreign spelled driver :: after, by simp, fits, same⟩)
    · exact keys_foreign_register.mpr (.inr ⟨spelled, driver, by simp, same'⟩)

theorem make_mapped_of_foreign {record} (driven : Text.foldCase record.className ∈ c.foreign.keys) :
    ∃ fault, (Registration.mapped record).make c = .error (.metadata fault) c := by
  apply Registration.make_of_not_fits
  intro fits
  exact (isTransient_iff.mp fits.2).2 driven

theorem make_foreign_of_mapped {driver} (mapped : Text.foldCase name ∈ c.records.keys) :
    ∃ c', (Registration.foreign name driver).make c = .ok ⟨⟩ c' ∧ c'.MapsTwice name ∧
      c'.mappingOf = c.mappingOf := by
  refine ⟨c.addForeign name driver, rfl, ⟨mapped, keys_addForeign.mpr (.inr rfl)⟩, ?_⟩
  funext other
  simp only [mappingOf, addForeign, Dict.get?_put]
  by_cases same : Text.foldCase name = Text.foldCase other
  · have found : c.records.has (Text.foldCase other) = true :=
      (Dict.has_iff_mem_keys _ _).mpr (same ▸ mapped)
    obtain ⟨record, found⟩ := Option.isSome_iff_exists.mp found
    rw [found]
  · rw [if_neg same]

theorem keys_records_appendedAll {entries} :
    key ∈ (c.appendedAll entries).records.keys ↔ key ∈ c.records.keys ∨
      ∃ e ∈ entries, Text.foldCase e.className = key := by
  induction entries generalizing c with
  | nil => simp [appendedAll]
  | cons e entries ih =>
    have first : c.appendedAll (e :: entries) = (c.appended e.toRecord).appendedAll entries := rfl
    have added : key ∈ (c.appended e.toRecord).records.keys ↔
        key ∈ c.records.keys ∨ Text.foldCase e.className = key := by
      simp [appended, Dict.keys, EntityEntry.toRecord, eq_comm (a := key)]
    simp only [first, ih, added, or_assoc, List.mem_cons, exists_eq_or_imp]

theorem foreign_appendedAll {entries} : (c.appendedAll entries).foreign = c.foreign := by
  induction entries generalizing c with
  | nil => rfl
  | cons e entries ih => exact ih (c := c.appended e.toRecord)

theorem records_withDocuments {documents} : (c.withDocuments documents).records = c.records := by
  induction documents generalizing c with
  | nil => rfl
  | cons name documents ih => exact ih (c := c.addForeign name "document")

theorem keys_foreign_withDocuments {documents} :
    key ∈ (c.withDocuments documents).foreign.keys ↔ key ∈ c.foreign.keys ∨
      ∃ document ∈ documents, Text.foldCase document = key := by
  induction documents generalizing c with
  | nil => simp [withDocuments]
  | cons name documents ih =>
    have first : c.withDocuments (name :: documents) =
        (c.addForeign name "document").withDocuments documents := rfl
    simp only [first, ih, keys_addForeign, or_assoc, List.mem_cons, exists_eq_or_imp]

/-- A schema file maps a class twice exactly if it lists it among its entities and among its
    documents. -/
theorem mapsTwice_toCatalog_iff {file : SchemaFile} (loaded : file.toCatalog = .ok c) :
    c.MapsTwice name ↔ (∃ e ∈ file.entities, Text.foldCase e.className = Text.foldCase name) ∧
      ∃ document ∈ file.documents, Text.foldCase document = Text.foldCase name := by
  obtain ⟨-, rfl⟩ := SchemaFile.toCatalog_ok.mp loaded
  rw [MapsTwice, records_withDocuments, keys_records_appendedAll, keys_foreign_withDocuments,
    foreign_appendedAll]
  simp [Dict.keys]

end Catalog

/-- The order decides whether a second driver is noticed. After any registrations the classes mapped
    twice are those whose record was taken first and another driver after it: a record is refused as
    a contradiction where another driver came first, but another driver is taken where a record came
    first, and then goes unseen. Schema files add their entities first, so no file is refused for
    its documents, and the classes it maps twice are those that it lists on both sides. -/
theorem second_driver_unchecked (entries : List Registration) (file : SchemaFile) :
    let c := Catalog.register {} entries
    (∀ name, c.MapsTwice name ↔ ∃ before record between spelled driver after,
        entries = before ++ .mapped record :: between ++ .foreign spelled driver :: after ∧
        (Registration.mapped record).Fits (.register {} before) ∧
        Text.foldCase record.className = Text.foldCase name ∧
        Text.foldCase spelled = Text.foldCase name) ∧
      (∀ record : EntityRecord, Text.foldCase record.className ∈ c.foreign.keys →
        ∃ fault, (Registration.mapped record).make c = .error (.metadata fault) c) ∧
      (∀ name driver, Text.foldCase name ∈ c.records.keys →
        ∃ c', (Registration.foreign name driver).make c = .ok ⟨⟩ c' ∧ c'.MapsTwice name ∧
          c'.mappingOf = c.mappingOf) ∧
      ((∃ c', file.toCatalog = .ok c') ↔ file.IsConsistent) ∧
      ∀ c' name, file.toCatalog = .ok c' → (c'.MapsTwice name ↔
        (∃ e ∈ file.entities, Text.foldCase e.className = Text.foldCase name) ∧
          ∃ document ∈ file.documents, Text.foldCase document = Text.foldCase name) := by
  intro c
  refine ⟨fun name => Catalog.mapsTwice_register_iff, fun record => Catalog.make_mapped_of_foreign,
    fun name driver => Catalog.make_foreign_of_mapped, ?_,
    fun c' name => Catalog.mapsTwice_toCatalog_iff⟩
  constructor
  · rintro ⟨c', loaded⟩
    exact (SchemaFile.toCatalog_ok.mp loaded).1
  · intro consistent
    exact ⟨_, SchemaFile.toCatalog_ok.mpr ⟨consistent, rfl⟩⟩

/-- A file that lists a class among its entities and among its documents is taken, and so is a
    driver for a class that has a record. A record for a class that has a driver is not. -/
theorem schema_file_maps_twice :
    let post : EntityRecord := { className := "App\\Post", table := "post" }
    let file : SchemaFile :=
      { entities := [{ className := "App\\Post" }], documents := ["App\\Post"] }
    (∃ c, file.toCatalog = .ok c ∧ c.MapsTwice "App\\Post") ∧
      (Catalog.register {} [.mapped post, .foreign "APP\\POST" "document"]).MapsTwice "App\\Post" ∧
      ¬ (Catalog.register {} [.foreign "APP\\POST" "document", .mapped post]).MapsTwice
        "App\\Post" := by
  refine ⟨⟨_, rfl, by decide, by decide⟩, ⟨by decide, by decide⟩, fun both => ?_⟩
  exact absurd both.1 (by decide)

end EntityAudit
