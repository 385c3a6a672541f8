import EntityAudit.Proofs.Code.ArrayKeys
import EntityAudit.Rule.Registry

/-! # Complaints about finder criteria

A finder called with a literal array gets one complaint for each name among the keys that its entity
has no field or association for, in order. Indices and repeated keys change nothing, unless an index
is the greatest integer.
-/

namespace EntityAudit

def givenNames (items : List (Option Ty × Ty)) : List String :=
  items.filterMap fun item => item.1.bind Ty.text?

theorem filterMap_text?_keysFrom (next : Int64) (items : List (Option Ty × Ty)) :
    (keysFrom next items).filterMap Ty.text? = givenNames items := by
  induction items generalizing next with
  | nil => rfl
  | cons item items ih =>
    obtain ⟨key, value⟩ := item
    unfold givenNames at ih ⊢
    rw [keysFrom, List.filterMap_cons, List.filterMap_cons, ih]
    cases key <;> rfl

theorem Ty.eq_of_text? {a b : Ty} {text} (first : a.text? = some text)
    (second : b.text? = some text) : a = b := by
  cases a <;> cases first
  cases b <;> cases second
  rfl

theorem FinderCall.complaints_eq (call : FinderCall) (record : EntityRecord) :
    call.complaints record =
      ((call.keys.filterMap Ty.text?).filter fun field =>
        !(record.hasField field || record.hasAssociation field)).map
          (.unknownField call.repository.toTy call.method call.entity.name ·) := by
  rw [← List.filterMap_eq_map, List.filterMap_filter, List.filterMap_filterMap]
  unfold complaints
  congr 1
  funext key
  cases key with
  | constString field =>
    cases own : record.hasField field <;> cases known : record.hasAssociation field <;>
      simp [Ty.text?, own, known]
  | _ => rfl

section

variable {scope : Scope} {items : List (Option Expr × Expr)} {types : List (Option Ty × Ty)}
  {receiver : Expr} {method : String} {repository : ClassType} {bound : Ty} {name : String}
  {entity : ClassInfo}

theorem MethodCall.finder?_array (finder : method ∈ criteriaMethods)
    (called : scope.typeOf receiver = .ok repository.toTy)
    (holds : scope.table.repositoryEntity? repository = some bound)
    (named : bound.className? = some name) (known : scope.table.find? name = some entity)
    (array : scope.typeOf (.array items) = .ok (.constArray (entriesOf types)))
    (rest : List Expr) :
    finder? ⟨receiver, some method, .array items :: rest⟩ scope =
      .ok (if types = [] then none
        else some ⟨repository, method, entity, (keysFrom 0 types).eraseDups⟩) := by
  have keys := map_fst_entriesOf types
  have held : scope.table.repositoryClass? ⟨repository.name, repository.args⟩ = some entity := by
    rw [ClassTable.repositoryClass?, holds, Option.bind_eq_bind, Option.bind_some, named]
    exact known
  simp only [finder?, List.contains_iff_mem.mpr finder, if_true, array]
  cases entries : entriesOf types with
  | nil =>
    rw [entries, eq_comm, List.map_nil, Distinct.eraseDups_eq_nil_iff] at keys
    cases types with
    | nil => rfl
    | cons => cases keys
  | cons entry others =>
    have filled : types ≠ [] := by
      rintro rfl
      cases entries
    rw [if_neg filled, ← keys, entries]
    simp only [called, bind, Except.bind, ClassType.toTy, held]
    rfl

/-- The complaints about a finder called with a literal array are those names among its keys, each
    once and in order of first occurrence, that the record has no field or association for, as long
    as no item gets the greatest integer as its key. Otherwise the check breaks down. -/
theorem finderCriteria_complaints {g g' : Gateway} {record : EntityRecord}
    (finder : method ∈ criteriaMethods) (called : scope.typeOf receiver = .ok repository.toTy)
    (holds : scope.table.repositoryEntity? repository = some bound)
    (named : bound.className? = some name) (known : scope.table.find? name = some entity)
    (mapped : Gateway.record? entity.name g = .ok (some record) g')
    (typed : scope.itemTypes items = .ok types)
    (literal : ∀ item ∈ types, ∀ key, item.1 = some key → key.isKey = true) (rest : List Expr)
    (reportDynamic : Bool) :
    let call : MethodCall := ⟨receiver, some method, .array items :: rest⟩
    let unknown := (givenNames types).eraseDups.filter fun field =>
      !(record.hasField field || record.hasAssociation field)
    (.constInt Int64.maxValue ∉ keysFrom 0 types →
      ∃ after, Rule.finderCriteria.check reportDynamic (.call call) scope g =
        .ok (unknown.map (.unknownField repository.toTy method entity.name ·)) after) ∧
      (.constInt Int64.maxValue ∈ keysFrom 0 types →
        Rule.finderCriteria.check reportDynamic (.call call) scope g =
          .error (.breakdown .overflow) g) := by
  intro call unknown
  change (_ → ∃ after, checkFinderCriteria (.call call) scope g = _) ∧
    (_ → checkFinderCriteria (.call call) scope g = _)
  unfold checkFinderCriteria
  have array := Scope.typeOf_array typed literal
  constructor
  · intro free
    rw [if_neg free] at array
    have found := MethodCall.finder?_array finder called holds named known array rest
    by_cases empty : types = []
    · subst empty
      refine ⟨g, ?_⟩
      simp only [call, found, if_pos]
      rfl
    · have answered : Lookup.orNothing (Gateway.record? entity.name) g = .ok (some record) g' := by
        rw [Lookup.orNothing, mapped]
      refine ⟨g', ?_⟩
      simp only [call, found, if_neg empty]
      change (Lookup.orNothing (Gateway.record? entity.name) >>= _) g = _
      rw [bind_of_ok answered]
      change EStateM.Result.ok (FinderCall.complaints _ record) g' = _
      rw [FinderCall.complaints_eq, ← Distinct.eraseDups_filterMap Ty.eq_of_text?,
        filterMap_text?_keysFrom]
  · intro greatest
    rw [if_pos greatest] at array
    have broken : call.finder? scope = .error (.breakdown .overflow) := by
      simp only [call, MethodCall.finder?, List.contains_iff_mem.mpr finder, if_true, array]
      rfl
    simp only [broken]
    rfl

end

def postRepository : ClassType :=
  ⟨ClassName.objectRepository, [.ofClass "Post"]⟩

def postScope : Scope where
  table := (({} : ClassTable).register { name := "Post" }).register
    { name := ClassName.objectRepository, templates := [ClassTable.entityTemplate] }
  locals := [("posts", postRepository.toTy)]

def postRecord : EntityRecord where
  className := "Post"
  table := "post"
  fields := [{ name := "id", column := "id", columnType := "integer" }]
  associations := [.toOne "author" "User"]

def postGateway : Gateway :=
  .ofSource (Catalog.toSource { records := [("post", postRecord)] })

theorem repositoryEntity?_post :
    postScope.table.repositoryEntity? postRepository = some (.ofClass "Post") := by
  have seen : postScope.table.ancestor? postRepository ClassName.objectRepository =
      some postRepository := by
    simp [ClassTable.ancestor?, ClassTable.search_cons, postRepository]
  have info : postScope.table.find? ClassName.objectRepository = some
      { name := ClassName.objectRepository, templates := [ClassTable.entityTemplate] } := by
    simp [postScope, ClassTable.find?, ClassTable.register]
  have bound : postScope.table.templateType? postRepository ClassName.objectRepository
      ClassTable.entityTemplate = some (.ofClass "Post") := by
    rw [ClassTable.templateType?, seen, info]
    rfl
  rw [ClassTable.repositoryEntity?, bound]
  rfl

theorem find?_post : postScope.table.find? "Post" = some { name := "Post" } := by
  have apart : Text.foldCase ClassName.objectRepository ≠ Text.foldCase "Post" := by decide
  simp [postScope, ClassTable.find?, ClassTable.register, apart]

/-- Two fields that the entity lacks, one of them named twice, among a field, an association and
    indices. -/
theorem finderCriteria_complaints_post :
    let criteria : List (Option Expr × Expr) :=
      [(some (.text "slug"), .null), (none, .int 1), (some (.text "id"), .int 2),
        (some (.int 7), .null), (some (.text "tag"), .null), (some (.text "slug"), .text "a"),
        (some (.text "author"), .this)]
    let call : MethodCall := ⟨.var "posts", some "findBy", [.array criteria]⟩
    ∃ after, Rule.finderCriteria.check true (.call call) postScope postGateway =
      .ok [.unknownField postRepository.toTy "findBy" "Post" "slug",
        .unknownField postRepository.toTy "findBy" "Post" "tag"] after := by
  intro criteria call
  let types : List (Option Ty × Ty) :=
    [(some (.constString "slug"), .null), (none, .constInt 1),
      (some (.constString "id"), .constInt 2), (some (.constInt 7), .null),
      (some (.constString "tag"), .null),
      (some (.constString "slug"), .constString "a"), (some (.constString "author"), .mixed)]
  have typed : postScope.itemTypes criteria = .ok types := rfl
  have called : postScope.typeOf (.var "posts") = .ok postRepository.toTy := rfl
  have finder : "findBy" ∈ criteriaMethods := by decide
  obtain ⟨g', mapped⟩ : ∃ g', Gateway.record? "Post" postGateway = .ok (some postRecord) g' :=
    ⟨_, rfl⟩
  have spec := finderCriteria_complaints finder called repositoryEntity?_post rfl find?_post mapped
    typed (by simp [types, Ty.isKey]) [] true
  exact spec.1 (by decide)

/-- A field that the entity lacks goes unnoticed beside the greatest integer: the check breaks
    down. -/
theorem finderCriteria_greatest_index :
    let criteria : List (Option Expr × Expr) :=
      [(some (.int Int64.maxValue), .null), (some (.text "slug"), .null)]
    let call : MethodCall := ⟨.var "posts", some "findBy", [.array criteria]⟩
    postScope.typeOf (.var "posts") = .ok postRepository.toTy ∧
      postScope.itemTypes criteria =
        .ok [(some (.constInt Int64.maxValue), .null), (some (.constString "slug"), .null)] ∧
      Rule.finderCriteria.check true (.call call) postScope postGateway =
        .error (.breakdown .overflow) postGateway :=
  ⟨rfl, rfl, rfl⟩

end EntityAudit
