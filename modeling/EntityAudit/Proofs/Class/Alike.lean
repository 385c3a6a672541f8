import EntityAudit.Code.Decl
import EntityAudit.Proofs.Class.Ancestors
import EntityAudit.Ty.Accepts

/-! # Tables with the same classes

Every question about classes is answered by looking names up, so tables that list the same classes
in different orders answer alike.
-/

namespace EntityAudit

namespace ClassTable

/-- Every name leads to the same class in both tables. -/
def Alike (table table' : ClassTable) : Prop :=
  table.classes.get? = table'.classes.get?

section

variable {table table' : ClassTable}

theorem search_congr {β : Type} {expand : ClassType → ClassInfo → List ClassType}
    {hit : ClassType → Option β} {d d' : Dict ClassInfo} (same : d.get? = d'.get?)
    (pending : List ClassType) : search expand hit d pending = search expand hit d' pending := by
  fun_induction search expand hit d pending generalizing d' with
  | case1 => simp [search]
  | case2 d c pending answer here => simp only [search_cons, here]
  | case3 d c pending miss unknown ih =>
    rw [same] at unknown
    simp only [search_cons, miss, unknown]
    exact ih same
  | case4 d c pending miss info opened ih =>
    rw [same] at opened
    simp only [search_cons, miss, opened]
    apply ih
    funext key
    rw [Dict.get?_remove, Dict.get?_remove, same]

variable (alike : table.Alike table')
include alike

namespace Alike

theorem find?_eq : table.find? = table'.find? := by
  funext name
  rw [find?, find?, alike]

theorem has_eq : table.has = table'.has := by
  funext name
  rw [has, has, alike.find?_eq]

theorem ancestor?_eq : table.ancestor? = table'.ancestor? := by
  funext c ancestor
  exact search_congr alike _

theorem descends_eq : table.descends = table'.descends := by
  funext c ancestor
  rw [descends, descends, alike.ancestor?_eq]

theorem methodType?_eq : table.methodType? = table'.methodType? := by
  funext c method
  rw [methodType?, methodType?, alike.find?_eq]
  exact search_congr alike _

theorem propertyType?_eq : table.propertyType? = table'.propertyType? := by
  funext className property
  rw [propertyType?, propertyType?, alike.find?_eq]
  exact search_congr alike _

theorem repositoryEntity?_eq : table.repositoryEntity? = table'.repositoryEntity? := by
  funext repository
  simp only [repositoryEntity?, templateType?, alike.ancestor?_eq, alike.find?_eq]

theorem acceptsClass_eq : table.acceptsClass = table'.acceptsClass := by
  funext name byArgs other
  simp only [acceptsClass, unrelated, alike.ancestor?_eq, alike.descends_eq, alike.find?_eq]

end Alike

end

end ClassTable

namespace Ty

variable {table table' : ClassTable}

theorem against_congr {decide decide'} (same : ∀ t, decide t = decide' t) (other : Ty) :
    against decide other = against decide' other := by
  rw [funext same]

mutual
theorem accepts_alike (alike : table.Alike table') : ∀ t : Ty, t.accepts table = t.accepts table'
  | .intersection ms => by
    funext other
    change Verdict.all (acceptsEach table ms other) = Verdict.all (acceptsEach table' ms other)
    rw [acceptsEach_alike alike ms]
  | .union ms => by
    funext other
    change spread (fun t => Verdict.any (acceptsEach table ms t)) other =
      spread (fun t => Verdict.any (acceptsEach table' ms t)) other
    rw [acceptsEach_alike alike ms]
  | .iterable key value => by
    funext other
    refine against_congr (fun t => ?_) other
    cases t with
    | array | iterable | constArray | object =>
      simp only [accepts_alike alike key, accepts_alike alike value, alike.ancestor?_eq,
        alike.has_eq]
    | _ => rfl
  | .array key value => by
    funext other
    refine against_congr (fun t => ?_) other
    cases t with
    | array | constArray => simp only [accepts_alike alike key, accepts_alike alike value]
    | _ => rfl
  | .object name args => by
    funext other
    refine against_congr (fun t => ?_) other
    cases t with
    | object | builder | iterable =>
      simp only [acceptsArgs_alike alike args, alike.acceptsClass_eq, alike.descends_eq]
    | _ => rfl
  | .builder calls => by
    funext other
    refine against_congr (fun t => ?_) other
    cases t with
    | object => simp only [alike.acceptsClass_eq]
    | _ => rfl
  | .mixed | .template _ | .null | .bool | .constBool _ | .int | .constInt _ | .float | .string
  | .constString _ | .constArray _ => rfl

theorem acceptsEach_alike (alike : table.Alike table') :
    ∀ ts : List Ty, acceptsEach table ts = acceptsEach table' ts
  | [] => rfl
  | t :: ts => by
    funext other
    change accepts table t other :: acceptsEach table ts other =
      accepts table' t other :: acceptsEach table' ts other
    rw [accepts_alike alike t, acceptsEach_alike alike ts]

theorem acceptsArgs_alike (alike : table.Alike table') :
    ∀ ts : List Ty, acceptsArgs table ts = acceptsArgs table' ts
  | [] => rfl
  | t :: ts => by
    funext actual
    cases actual with
    | nil =>
      change accepts table t .mixed :: acceptsArgs table ts [] =
        accepts table' t .mixed :: acceptsArgs table' ts []
      rw [accepts_alike alike t, acceptsArgs_alike alike ts]
    | cons first rest =>
      change accepts table t first :: acceptsArgs table ts rest =
        accepts table' t first :: acceptsArgs table' ts rest
      rw [accepts_alike alike t, acceptsArgs_alike alike ts]
end

end Ty

def SourceFile.Declares (file : SourceFile) (key : String) : Prop :=
  ∃ c ∈ file.classes, Text.foldCase c.name = key

/-- No class is declared in both files, whatever the case of its name. -/
def SourceFile.Apart (file file' : SourceFile) : Prop :=
  ∀ key, file.Declares key → ¬ file'.Declares key

theorem SourceFile.Apart.symm {file file' : SourceFile} (apart : file.Apart file') :
    file'.Apart file :=
  fun key declared declared' => apart key declared' declared

theorem ClassDecl.toInfo_name (c : ClassDecl) : c.toInfo.name = c.name := by
  have properties (ps : List PropertyDecl) (info : ClassInfo) :
      (ps.foldl (fun info p => info.withProperty p.name p.readable p.writable) info).name =
        info.name := by
    induction ps generalizing info with
    | nil => rfl
    | cons p ps ih => exact ih _
  have methods (ms : List MethodDecl) (info : ClassInfo) :
      (ms.foldl (fun info m => info.withMethod m.name m.returns) info).name = info.name := by
    induction ms generalizing info with
    | nil => rfl
    | cons m ms ih => exact ih _
  exact (methods _ _).trans (properties _ _)

namespace ClassTable

theorem register_get? (table : ClassTable) (c : ClassDecl) (key : String) :
    (table.register c.toInfo).classes.get? key =
      if Text.foldCase c.name = key then some c.toInfo else table.classes.get? key := by
  rw [register, Dict.get?_put, c.toInfo_name]

theorem registerFile_of_absent {file key} (absent : ¬ file.Declares key) (table : ClassTable) :
    (table.registerFile file).classes.get? key = table.classes.get? key := by
  obtain ⟨path, classes⟩ := file
  unfold registerFile
  induction classes generalizing table with
  | nil => rfl
  | cons c classes ih =>
    rw [List.foldl_cons, ih, register_get?, if_neg]
    · exact fun named => absent ⟨c, List.mem_cons_self, named⟩
    · rintro ⟨other, inside, named⟩
      exact absent ⟨other, List.mem_cons_of_mem c inside, named⟩

theorem registerFile_of_declared {file key} (declared : file.Declares key)
    (table table' : ClassTable) :
    (table.registerFile file).classes.get? key = (table'.registerFile file).classes.get? key := by
  obtain ⟨path, classes⟩ := file
  unfold registerFile
  induction classes generalizing table table' with
  | nil =>
    obtain ⟨c, inside, -⟩ := declared
    cases inside
  | cons c classes ih =>
    rw [List.foldl_cons, List.foldl_cons]
    by_cases later : (⟨path, classes⟩ : SourceFile).Declares key
    · exact ih _ _ later
    · have kept := registerFile_of_absent later
      unfold registerFile at kept
      obtain ⟨other, inside, named⟩ := declared
      rcases List.mem_cons.mp inside with rfl | inside
      · rw [kept, kept, register_get?, register_get?, if_pos named, if_pos named]
      · exact absurd ⟨other, inside, named⟩ later

theorem Alike.registerFile {table table' : ClassTable} (alike : table.Alike table')
    (file : SourceFile) : (table.registerFile file).Alike (table'.registerFile file) := by
  funext key
  by_cases declared : file.Declares key
  · exact registerFile_of_declared declared table table'
  · rw [registerFile_of_absent declared, registerFile_of_absent declared, alike]

theorem Alike.registerFiles {table table'} (alike : table.Alike table') (files : List SourceFile) :
    (files.foldl ClassTable.registerFile table).Alike
      (files.foldl ClassTable.registerFile table') := by
  induction files generalizing table table' with
  | nil => exact alike
  | cons file files ih => exact ih (alike.registerFile file)

theorem registerFile_comm {file file'} (apart : file.Apart file') (table : ClassTable) :
    ((table.registerFile file).registerFile file').Alike
      ((table.registerFile file').registerFile file) := by
  funext key
  by_cases declared : file.Declares key
  · rw [registerFile_of_absent (apart key declared)]
    exact registerFile_of_declared declared _ _
  · rw [registerFile_of_absent declared]
    by_cases declared' : file'.Declares key
    · exact registerFile_of_declared declared' _ _
    · rw [registerFile_of_absent declared', registerFile_of_absent declared',
        registerFile_of_absent declared]

theorem registerFiles_perm {files files' : List SourceFile} (reordered : files.Perm files')
    (apart : files.Pairwise SourceFile.Apart) (table : ClassTable) :
    (files.foldl registerFile table).Alike (files'.foldl registerFile table) := by
  induction reordered generalizing table with
  | nil => rfl
  | cons file _ ih => exact ih (List.pairwise_cons.mp apart).2 _
  | swap file file' files =>
    have first := (List.pairwise_cons.mp apart).1 file List.mem_cons_self
    exact (registerFile_comm first table).registerFiles files
  | trans first _ ih ih' =>
    have apart' := first.pairwise apart SourceFile.Apart.symm
    exact (ih apart table).trans (ih' apart' table)

end ClassTable

end EntityAudit
