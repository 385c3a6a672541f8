import EntityAudit.Proofs.Mapping.Growth
import EntityAudit.Proofs.Mapping.TwoDrivers
import Mathlib.Data.List.Forall2
import Mathlib.Data.List.TakeWhile

/-! # Loading schema files

A schema file is loaded exactly when no two of its entries are of one class and none declares a
property twice; otherwise the first entry that contradicts itself or one before it is reported.
`EntityEntry.Describes` says what record an entry stands for.
-/

namespace EntityAudit

variable {entries : List EntityEntry} {name : String}
variable {fault : MappingFault}

def EntityEntry.propertyNames (e : EntityEntry) : List String :=
  e.fields.map (·.name) ++ e.associations.map (·.name)

/-- What is wrong with an entry that stands after others. -/
inductive EntityEntry.Offends (e : EntityEntry) (before : List EntityEntry) :
    MappingFault → Prop where
  /-- It declares a property again; this is the first one. -/
  | again {earlier later : List String} {property : String}
      (split : e.propertyNames = earlier ++ property :: later) (distinct : earlier.Nodup)
      (known : property ∈ earlier) : Offends e before (.repeatedProperty property e.className)
  /-- It declares no property twice, but is of the class of another one. -/
  | taken {other} (distinct : e.propertyNames.Nodup) (inside : other ∈ before)
      (same : Text.sameFold other.className e.className = true) :
      Offends e before (.repeatedClass e.className)

/-- Whether no two entries are of one class and none declares a property twice. -/
structure EntityEntry.AreConsistent (entries : List EntityEntry) : Prop where
  apart : entries.Pairwise fun e e' => Text.sameFold e.className e'.className = false
  distinct : ∀ e ∈ entries, e.propertyNames.Nodup

theorem EntityEntry.propertyNames_toRecord (e : EntityEntry) :
    e.toRecord.propertyNames = e.propertyNames := by
  simp only [EntityRecord.propertyNames, toRecord, propertyNames, List.map_map]
  rfl

theorem EntityEntry.areConsistent_iff :
    AreConsistent entries ↔ (∀ e ∈ entries, e.toRecord.propertyNames.Nodup) ∧
      (entries.map fun e => Text.foldCase e.className).Nodup := by
  have apart (e e' : EntityEntry) : Text.sameFold e.className e'.className = false ↔
      Text.foldCase e.className ≠ Text.foldCase e'.className := by
    rw [Bool.eq_false_iff, Ne, Text.sameFold_iff]
  simp only [propertyNames_toRecord, List.nodup_iff_pairwise_ne, List.pairwise_map, ← apart]
  exact ⟨fun fine => ⟨fine.distinct, fine.apart⟩, fun fine => ⟨fine.2, fine.1⟩⟩

/-- The first repetition: all names before it are distinct, and it is one of them or was seen. -/
theorem EntityRecord.firstRepeat?_eq_some_iff {seen names} :
    firstRepeat? seen names = some name ↔ ∃ earlier later, names = earlier ++ name :: later ∧
      (earlier.Nodup ∧ ∀ other ∈ earlier, other ∉ seen) ∧ (name ∈ earlier ∨ name ∈ seen) := by
  induction names generalizing seen with
  | nil => simp [firstRepeat?]
  | cons first names ih =>
    rw [firstRepeat?, List.contains_eq_mem]
    by_cases known : first ∈ seen
    · simp only [known, decide_true, if_true, Option.some.injEq]
      constructor
      · rintro rfl
        exact ⟨[], names, rfl, by simp, .inr known⟩
      · rintro ⟨earlier, later, split, ⟨-, fresh⟩, -⟩
        cases earlier with
        | nil => exact (List.cons.inj split).1
        | cons other earlier =>
          obtain ⟨rfl, -⟩ := List.cons.inj split
          exact absurd known (fresh first List.mem_cons_self)
    · simp only [known, decide_false, Bool.false_eq_true, if_false, ih]
      constructor
      · rintro ⟨earlier, later, rfl, ⟨distinct, fresh⟩, again⟩
        refine ⟨first :: earlier, later, rfl, ⟨?_, ?_⟩, ?_⟩
        · exact List.nodup_cons.mpr
            ⟨fun inside => fresh first inside List.mem_cons_self, distinct⟩
        · exact List.forall_mem_cons.mpr
            ⟨known, fun other inside => fun old => fresh other inside (.tail first old)⟩
        · grind
      · rintro ⟨earlier, later, split, ⟨distinct, fresh⟩, again⟩
        cases earlier with
        | nil =>
          obtain ⟨rfl, -⟩ := List.cons.inj split
          exact absurd (again.resolve_left List.not_mem_nil) known
        | cons other earlier =>
          obtain ⟨rfl, rfl⟩ := List.cons.inj split
          obtain ⟨new, distinct⟩ := List.nodup_cons.mp distinct
          refine ⟨earlier, later, rfl, ⟨distinct, fun other inside => ?_⟩, ?_⟩
          · have unseen := fresh other (List.mem_cons_of_mem first inside)
            exact List.not_mem_cons_of_ne_of_not_mem (fun same => new (same ▸ inside)) unseen
          · grind

theorem EntityRecord.validate_error {r : EntityRecord} :
    r.validate = .error fault ↔ ∃ earlier property later,
      r.propertyNames = earlier ++ property :: later ∧ earlier.Nodup ∧ property ∈ earlier ∧
      fault = .repeatedProperty property r.className := by
  rw [validate]
  constructor
  · intro refused
    cases found : firstRepeat? [] r.propertyNames with
    | none =>
      rw [found] at refused
      cases refused
    | some property =>
      rw [found] at refused
      cases refused
      obtain ⟨earlier, later, split, ⟨distinct, -⟩, again⟩ := firstRepeat?_eq_some_iff.mp found
      exact ⟨earlier, property, later, split, distinct, again.resolve_right List.not_mem_nil, rfl⟩
  · rintro ⟨earlier, property, later, split, distinct, again, rfl⟩
    have found : firstRepeat? [] r.propertyNames = some property :=
      firstRepeat?_eq_some_iff.mpr ⟨earlier, later, split, ⟨distinct, by simp⟩, .inl again⟩
    rw [found]

theorem Catalog.isTransient_appendedAll {kind} :
    ((appendedAll { kind } entries).isTransient name = false) ↔
      ∃ e ∈ entries, Text.sameFold e.className name = true := by
  rw [← Bool.not_eq_true, isTransient_iff, keys_records_appendedAll, foreign_appendedAll]
  simp [Dict.keys, Text.sameFold_iff]

theorem Catalog.add_error {c : Catalog} {record} :
    c.add record = .error fault ↔ record.validate = .error fault ∨
      record.propertyNames.Nodup ∧ c.isTransient record.className = false ∧
        fault = .repeatedClass record.className := by
  by_cases distinct : record.propertyNames.Nodup
  · have valid : record.validate ≠ .error fault := by
      rw [record.validate_of_nodup distinct]
      rintro ⟨⟩
    cases fresh : c.isTransient record.className with
    | true =>
      rw [add_of_fresh distinct fresh]
      simp [valid]
    | false =>
      rw [add_of_known distinct fresh]
      simp [valid, distinct, eq_comm (a := fault)]
  · obtain ⟨property, invalid⟩ := record.validate_of_not_nodup distinct
    simp only [add, insert_of_error invalid, invalid, distinct, false_and, or_false,
      Except.error.injEq]

theorem Catalog.add_appendedAll_error {kind before} {e : EntityEntry} :
    (appendedAll { kind } before).add e.toRecord = .error fault ↔ e.Offends before fault := by
  have sameClass : e.toRecord.className = e.className := rfl
  rw [add_error, EntityRecord.validate_error, e.propertyNames_toRecord, sameClass,
    isTransient_appendedAll]
  constructor
  · rintro (⟨earlier, property, later, split, distinct, known, rfl⟩ |
      ⟨distinct, ⟨other, inside, same⟩, rfl⟩)
    · exact .again split distinct known
    · exact .taken distinct inside same
  · rintro (⟨split, distinct, known⟩ | ⟨distinct, inside, same⟩)
    · exact .inl ⟨_, _, _, split, distinct, known, rfl⟩
    · exact .inr ⟨distinct, ⟨_, inside, same⟩, rfl⟩

theorem SchemaFile.toCatalog_error {file : SchemaFile} :
    file.toCatalog = .error fault ↔ ∃ before e after, file.entities = before ++ e :: after ∧
      EntityEntry.AreConsistent before ∧ e.Offends before fault := by
  have fresh (name : String) : Catalog.isTransient (Catalog.withKind {} file.manager) name = true :=
    Catalog.isTransient_iff.mpr ⟨List.not_mem_nil, List.not_mem_nil⟩
  have failing : file.toCatalog = .error fault ↔
      file.entities.foldlM (fun c e => c.add e.toRecord) (Catalog.withKind {} file.manager) =
        .error fault := by
    rw [toCatalog]
    cases file.entities.foldlM (fun c e => c.add e.toRecord)
      (Catalog.withKind {} file.manager) with
    | ok c =>
      constructor
      · rintro ⟨⟩
      · rintro ⟨⟩
    | error cause => rfl
  rw [failing, foldlM_error]
  constructor
  · rintro ⟨before, e, after, c, split, added, refused⟩
    obtain ⟨⟨distinct, apart, -⟩, rfl⟩ := foldlM_add_ok.mp added
    exact ⟨before, e, after, split, EntityEntry.areConsistent_iff.mpr ⟨distinct, apart⟩,
      Catalog.add_appendedAll_error.mp refused⟩
  · rintro ⟨before, e, after, split, consistent, offends⟩
    obtain ⟨distinct, apart⟩ := EntityEntry.areConsistent_iff.mp consistent
    exact ⟨before, e, after, _, split,
      foldlM_add_ok.mpr ⟨⟨distinct, apart, fun e _ => fresh e.className⟩, rfl⟩,
      Catalog.add_appendedAll_error.mpr offends⟩

namespace Catalog

variable {c : Catalog}

theorem records_appendedAll :
    (c.appendedAll entries).records =
      c.records ++ entries.map fun e => (Text.foldCase e.className, e.toRecord) := by
  induction entries generalizing c with
  | nil => exact (List.append_nil _).symm
  | cons e entries ih =>
    have first : c.appendedAll (e :: entries) = (c.appended e.toRecord).appendedAll entries := rfl
    rw [first, ih, appended, List.map_cons, List.append_assoc]
    rfl

theorem foreign_withDocuments {documents key} :
    (c.withDocuments documents).foreign.get? key =
      if ∃ document ∈ documents, Text.foldCase document = key then some "document"
      else c.foreign.get? key := by
  induction documents generalizing c with
  | nil => simp [withDocuments]
  | cons name documents ih =>
    have first : c.withDocuments (name :: documents) =
        (c.addForeign name "document").withDocuments documents := rfl
    rw [first, ih, addForeign, Dict.get?_put]
    by_cases later : ∃ document ∈ documents, Text.foldCase document = key
    · simp [later]
    · simp only [later, if_false, List.mem_cons, exists_eq_or_imp, or_false]

theorem kind_appendedAll : (c.appendedAll entries).kind = c.kind := by
  induction entries generalizing c with
  | nil => rfl
  | cons e entries ih => exact ih (c := c.appended e.toRecord)

theorem kind_withDocuments {documents} : (c.withDocuments documents).kind = c.kind := by
  induction documents generalizing c with
  | nil => rfl
  | cons name documents ih => exact ih (c := c.addForeign name "document")

theorem records_toCatalog {file : SchemaFile} (loaded : file.toCatalog = .ok c) {record} :
    c.records.get? (Text.foldCase name) = some record ↔
      ∃ e ∈ file.entities, Text.sameFold name e.className = true ∧ e.toRecord = record := by
  obtain ⟨⟨-, apart⟩, rfl⟩ := SchemaFile.toCatalog_ok.mp loaded
  have distinct : (Dict.keys (file.entities.map fun e =>
      (Text.foldCase e.className, e.toRecord))).Nodup := by
    rw [Dict.keys, List.map_map]
    exact apart
  rw [records_withDocuments, records_appendedAll, List.nil_append, Dict.get?_eq_some_iff distinct]
  simp only [List.mem_map, Prod.mk.injEq, Text.sameFold_iff, eq_comm (a := Text.foldCase name)]

theorem mappingOf_toCatalog {file : SchemaFile} (loaded : file.toCatalog = .ok c)
    (none : ∀ e ∈ file.entities, Text.sameFold name e.className = false) :
    c.mappingOf name =
      if ∃ document ∈ file.documents, Text.sameFold name document = true then .foreign "document"
      else .transient := by
  have unmapped : c.records.get? (Text.foldCase name) = Option.none := by
    refine Option.eq_none_iff_forall_ne_some.mpr fun record found => ?_
    obtain ⟨e, inside, same, -⟩ := (records_toCatalog loaded).mp found
    exact absurd same (Bool.eq_false_iff.mp (none e inside))
  obtain ⟨-, rfl⟩ := SchemaFile.toCatalog_ok.mp loaded
  rw [mappingOf, unmapped, foreign_withDocuments, foreign_appendedAll]
  simp only [Text.sameFold_iff, eq_comm (a := Text.foldCase name)]
  by_cases listed : ∃ document ∈ file.documents, Text.foldCase document = Text.foldCase name
  · simp only [if_pos listed]
  · simp only [if_neg listed, Dict.get?]

end Catalog

/-- A word of a name: its first character may be a capital, the others are none. -/
def IsWord (word : List Char) : Prop :=
  ∃ c cs, word = c :: cs ∧ ∀ d ∈ cs, d.isUpper = false

def underscored (words : List (List Char)) : List Char :=
  List.intercalate ['_'] (words.map (·.map Char.toLower))

/-- The table is named after the class: what follows the last backslash of the class name is divided
    into words before its capitals, and the words are written in lower case with underscores between
    them. -/
def IsNamedAfter (table className : String) : Prop :=
  ∃ space words, className.toList = space ++ List.flatten words ∧
    (space = [] ∨ ∃ outer, space = outer ++ ['\\']) ∧ '\\' ∉ List.flatten words ∧
    (∀ word ∈ words, IsWord word) ∧ (∀ word ∈ words.tail, ∃ c ∈ word.head?, c.isUpper = true) ∧
    table.toList = underscored words

/-- The field that an entry stands for. -/
structure FieldEntry.Describes (e : FieldEntry) (field : Field) : Prop where
  name : field.name = e.name
  /-- The column is the one given, or else called like the property. -/
  column : e.column = some field.column ∨ e.column = none ∧ field.column = e.name
  columnType : field.columnType = e.columnType
  nullable : field.nullable = e.nullable
  isId : field.isId = e.isId

/-- Whether an entry leaves its join columns to convention: it lists none, leads to one target and
    holds the mapping itself. -/
def AssociationEntry.IsConventional (e : AssociationEntry) : Prop :=
  e.joinColumns = none ∧ (e.shape = .oneToOne ∨ e.shape = .manyToOne) ∧ e.mappedBy = none

/-- The join columns of an entry: those listed, or else the one by convention, or else none. -/
def AssociationEntry.JoinsOn (e : AssociationEntry) (columns : List JoinColumn) : Prop :=
  e.joinColumns = some columns ∨
    e.IsConventional ∧ columns = [⟨e.name ++ "_id", "id", none⟩] ∨
    e.joinColumns = none ∧ ¬ e.IsConventional ∧ columns = []

/-- The association that an entry stands for. -/
structure AssociationEntry.Describes (e : AssociationEntry) (association : Association) : Prop where
  name : association.name = e.name
  cardinality : association.cardinality = .toOne ↔ e.shape = .oneToOne ∨ e.shape = .manyToOne
  target : association.target = e.target
  joinColumns : e.JoinsOn association.joinColumns
  mappedBy : association.mappedBy = e.mappedBy
  inversedBy : association.inversedBy = e.inversedBy
  joinTable : association.joinTable = e.joinTable

/-- The record that an entry stands for. -/
structure EntityEntry.Describes (e : EntityEntry) (record : EntityRecord) : Prop where
  className : record.className = e.className
  /-- The table is the one given, or else named after the class. -/
  table : e.table = some record.table ∨ e.table = none ∧ IsNamedAfter record.table e.className
  repositoryClass : record.repositoryClass = e.repositoryClass
  fields : List.Forall₂ FieldEntry.Describes e.fields record.fields
  associations : List.Forall₂ AssociationEntry.Describes e.associations record.associations

theorem underscored_cons_cons (word next : List Char) (words : List (List Char)) :
    underscored (word :: next :: words) =
      word.map Char.toLower ++ '_' :: underscored (next :: words) := by
  simp [underscored, List.intercalate]

theorem underscored_longer (c : Char) (word : List Char) (words : List (List Char)) :
    underscored ((c :: word) :: words) = c.toLower :: underscored (word :: words) := by
  cases words <;> simp [underscored, List.intercalate]

theorem exists_words (c : Char) (cs : List Char) :
    ∃ word words, List.flatten (word :: words) = c :: cs ∧ (∀ w ∈ word :: words, IsWord w) ∧
      (∀ w ∈ words, ∃ d ∈ w.head?, d.isUpper = true) ∧
      c.toLower :: snakeCase cs = underscored (word :: words) := by
  -- A capital opens a word of its own, anything else makes the first word longer.
  induction cs generalizing c with
  | nil => exact ⟨[c], [], rfl, by simp [IsWord], by simp, by simp [snakeCase, underscored]⟩
  | cons d ds ih =>
    obtain ⟨word, words, whole, proper, capitals, written⟩ := ih d
    obtain ⟨⟨first, rest, rfl, small⟩, others⟩ := List.forall_mem_cons.mp proper
    obtain ⟨rfl, tail⟩ := List.cons.inj whole
    cases upper : first.isUpper with
    | true =>
      refine ⟨[c], (first :: rest) :: words, ?_, ?_, ?_, ?_⟩
      · exact congrArg (c :: ·) whole
      · exact List.forall_mem_cons.mpr ⟨⟨c, [], rfl, by simp⟩, proper⟩
      · exact List.forall_mem_cons.mpr ⟨⟨first, rfl, upper⟩, capitals⟩
      · rw [underscored_cons_cons, ← written]
        simp [snakeCase, upper]
    | false =>
      refine ⟨c :: first :: rest, words, ?_, ?_, capitals, ?_⟩
      · exact congrArg (c :: ·) whole
      · exact List.forall_mem_cons.mpr
          ⟨⟨c, first :: rest, rfl, List.forall_mem_cons.mpr ⟨upper, small⟩⟩, others⟩
      · have same : first.toLower = first := Text.toLower_of_not_isUpper upper
        rw [underscored_longer, ← written]
        simp [snakeCase, upper, same]

theorem isNamedAfter_conventionalTable (className : String) :
    IsNamedAfter (conventionalTable className) className := by
  have split : className.toList =
      (className.toList.reverse.dropWhile (· != '\\')).reverse ++ shortName className := by
    rw [shortName, ← List.reverse_append, List.takeWhile_append_dropWhile, List.reverse_reverse]
  have space : (className.toList.reverse.dropWhile (· != '\\')).reverse = [] ∨
      ∃ outer, (className.toList.reverse.dropWhile (· != '\\')).reverse = outer ++ ['\\'] := by
    cases found : className.toList.reverse.dropWhile (· != '\\') with
    | nil => exact .inl rfl
    | cons mark rest =>
      have isMark := List.head?_dropWhile_not (· != '\\') className.toList.reverse
      rw [found] at isMark
      obtain rfl : mark = '\\' := by simpa using isMark
      exact .inr ⟨rest.reverse, List.reverse_cons⟩
  have plain : '\\' ∉ shortName className := by
    rw [shortName, List.mem_reverse]
    intro inside
    simpa using List.mem_takeWhile_imp inside
  cases short : shortName className with
  | nil =>
    rw [short] at split plain
    refine ⟨_, [], split, space, plain, by simp, by simp, ?_⟩
    simp [conventionalTable, short, underscored]
  | cons c cs =>
    obtain ⟨word, words, whole, proper, capitals, written⟩ := exists_words c cs
    rw [short, ← whole] at split plain
    refine ⟨_, word :: words, split, space, plain, proper, capitals, ?_⟩
    rw [conventionalTable, short, String.toList_ofList]
    exact written

theorem FieldEntry.describes_toField (e : FieldEntry) : e.Describes e.toField where
  name := rfl
  column := by cases given : e.column <;> simp [toField, given]
  columnType := rfl
  nullable := rfl
  isId := rfl

theorem AssociationShape.cardinality_eq_toOne {shape : AssociationShape} :
    shape.cardinality = .toOne ↔ shape = .oneToOne ∨ shape = .manyToOne := by
  cases shape <;> simp [cardinality]

theorem AssociationEntry.joinsOn_iff {e : AssociationEntry} {columns} :
    e.JoinsOn columns ↔ columns = e.columns := by
  cases listed : e.joinColumns with
  | some given => simp [JoinsOn, IsConventional, AssociationEntry.columns, listed, eq_comm]
  | none =>
    simp only [JoinsOn, IsConventional, listed, ← AssociationShape.cardinality_eq_toOne,
      AssociationEntry.columns, true_and, reduceCtorEq, false_or]
    by_cases conventional : e.shape.cardinality = .toOne ∧ e.mappedBy = none
    · simp [conventional]
    · simp [conventional]

theorem AssociationEntry.describes_toAssociation (e : AssociationEntry) :
    e.Describes e.toAssociation where
  name := rfl
  cardinality := AssociationShape.cardinality_eq_toOne
  target := rfl
  joinColumns := joinsOn_iff.mpr rfl
  mappedBy := rfl
  inversedBy := rfl
  joinTable := rfl

theorem EntityEntry.describes_toRecord (e : EntityEntry) : e.Describes e.toRecord where
  className := rfl
  table := by
    cases given : e.table with
    | some table => simp [toRecord, given]
    | none =>
      refine .inr ⟨rfl, ?_⟩
      simp only [toRecord, given, Option.getD_none]
      exact isNamedAfter_conventionalTable e.className
  repositoryClass := rfl
  fields := List.forall₂_map_right_iff.mpr
    (List.forall₂_same.mpr fun field _ => field.describes_toField)
  associations := List.forall₂_map_right_iff.mpr
    (List.forall₂_same.mpr fun association _ => association.describes_toAssociation)

/-- What a catalog says that a schema file was loaded into. -/
structure SchemaFile.IsLoadedAs (file : SchemaFile) (c : Catalog) : Prop where
  kind : c.kind = file.manager
  /-- The class of an entry, however it is spelled, has the record that the entry stands for. -/
  entities : ∀ e ∈ file.entities, ∀ name, Text.sameFold name e.className = true →
    ∃ record, c.mappingOf name = .orm record ∧ e.Describes record
  /-- A document that is no entity is left to the document mapper. -/
  documents : ∀ name, (∀ e ∈ file.entities, Text.sameFold name e.className = false) →
    ∀ document ∈ file.documents, Text.sameFold name document = true →
      c.mappingOf name = .foreign "document"
  /-- No other class is mapped. -/
  others : ∀ name, (∀ e ∈ file.entities, Text.sameFold name e.className = false) →
    (∀ document ∈ file.documents, Text.sameFold name document = false) →
      c.mappingOf name = .transient
  /-- The classes said not to be mapped are those whose mapping says so. -/
  transient : ∀ name, c.isTransient name = true ↔ c.mappingOf name = .transient

theorem SchemaFile.isLoadedAs_of_toCatalog {file : SchemaFile} {c}
    (loaded : file.toCatalog = .ok c) :
    file.IsLoadedAs c where
  kind := by
    obtain ⟨-, rfl⟩ := toCatalog_ok.mp loaded
    rw [Catalog.kind_withDocuments, Catalog.kind_appendedAll]
  entities := by
    intro e inside name same
    refine ⟨e.toRecord, Catalog.mappingOf_eq_orm.mpr ?_, e.describes_toRecord⟩
    exact (Catalog.records_toCatalog loaded).mpr ⟨e, inside, same, rfl⟩
  documents := by
    intro name none document inside same
    rw [Catalog.mappingOf_toCatalog loaded none, if_pos ⟨document, inside, same⟩]
  others := by
    intro name none undocumented
    rw [Catalog.mappingOf_toCatalog loaded none, if_neg]
    rintro ⟨document, inside, same⟩
    exact absurd same (Bool.eq_false_iff.mp (undocumented document inside))
  transient := by
    intro name
    have source := Catalog.toSource_isTransient_iff (c := c) name
    rwa [Catalog.toSource, Except.ok.injEq] at source

/-- A schema file is loaded exactly when no two of its entities are of one class up to case and none
    declares a property twice. Otherwise the failure is that of the first entity that contradicts
    itself or one before it, and it names the first property that is repeated, or else the class. A
    loaded file maps the classes of its entities by the records they describe, the remaining ones of
    its documents to the document mapper, and no others. -/
theorem schemaFile_loads_exactly (file : SchemaFile) :
    ((∃ c, file.toCatalog = .ok c) ↔ EntityEntry.AreConsistent file.entities) ∧
      (∀ failure, file.toCatalog.mapError Failure.metadata = .error failure ↔
        ∃ before e after fault, file.entities = before ++ e :: after ∧
          EntityEntry.AreConsistent before ∧ e.Offends before fault ∧ failure = .metadata fault) ∧
      ∀ c, file.toCatalog = .ok c → file.IsLoadedAs c := by
  refine ⟨?_, ?_, fun c => SchemaFile.isLoadedAs_of_toCatalog⟩
  · rw [EntityEntry.areConsistent_iff]
    constructor
    · rintro ⟨c, loaded⟩
      exact (SchemaFile.toCatalog_ok.mp loaded).1
    · intro consistent
      exact ⟨_, SchemaFile.toCatalog_ok.mpr ⟨consistent, rfl⟩⟩
  · intro failure
    constructor
    · intro failed
      cases refused : file.toCatalog with
      | ok c =>
        rw [refused] at failed
        cases failed
      | error fault =>
        rw [refused] at failed
        cases failed
        obtain ⟨before, e, after, split, consistent, offends⟩ :=
          SchemaFile.toCatalog_error.mp refused
        exact ⟨before, e, after, fault, split, consistent, offends, rfl⟩
    · rintro ⟨before, e, after, fault, split, consistent, offends, rfl⟩
      rw [SchemaFile.toCatalog_error.mpr ⟨before, e, after, split, consistent, offends⟩]
      rfl

/-- Tables, columns and a join column by convention, another spelling, a document beside an entity,
    and two entities that offend, of which the first is reported. -/
theorem schemaFile_loads_exactly_blog :
    let post : EntityEntry :=
      { className := "App\\BlogPost", fields := [{ name := "id" }],
        associations := [{ name := "author", shape := .manyToOne, target := "User" }] }
    let user : EntityEntry := { className := "User", table := some "users" }
    let twice : EntityEntry := { className := "Tag", fields := [{ name := "a" }, { name := "a" }] }
    let file : SchemaFile := { entities := [post, user], documents := ["Log", "user"] }
    let broken : SchemaFile := { entities := [post, user, twice, { className := "USER" }] }
    (∃ c record, file.toCatalog = .ok c ∧ c.mappingOf "app\\blogpost" = .orm record ∧
      post.Describes record ∧ c.mappingOf "LOG" = .foreign "document" ∧
      c.mappingOf "Tag" = .transient) ∧
      broken.toCatalog.mapError Failure.metadata =
        .error (.metadata (.repeatedProperty "a" "Tag")) := by
  intro post user twice file broken
  have consistent : EntityEntry.AreConsistent file.entities :=
    ⟨by decide, by decide⟩
  obtain ⟨loads, -, maps⟩ := schemaFile_loads_exactly file
  obtain ⟨c, loaded⟩ := loads.mpr consistent
  have known := maps c loaded
  obtain ⟨record, found, described⟩ :=
    known.entities post List.mem_cons_self "app\\blogpost" (by decide)
  refine ⟨⟨c, record, loaded, found, described, ?_, ?_⟩, ?_⟩
  · exact known.documents "LOG" (by decide) "Log" List.mem_cons_self (by decide)
  · exact known.others "Tag" (by decide) (by decide)
  · have split : twice.propertyNames = ["a"] ++ "a" :: [] := rfl
    have offends : twice.Offends file.entities (.repeatedProperty "a" "Tag") :=
      .again split (by simp) (by simp)
    exact ((schemaFile_loads_exactly broken).2.1 _).mpr
      ⟨[post, user], twice, [{ className := "USER" }], _, rfl, consistent, offends, rfl⟩

end EntityAudit
