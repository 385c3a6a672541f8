import EntityAudit.Builder.Method

/-! # Static types

The types that the checks see in code, query builders whose calls are all known among them. Equality
of types is structural and decidable.
-/

namespace EntityAudit

inductive Ty where
  | mixed
  | null
  | bool
  | int
  | float
  | string
  | constBool (value : Bool)
  | constInt (value : Int64)
  | constString (value : String)
  /-- Objects of a class, with its generic arguments; none means "any". -/
  | object (name : String) (args : List Ty)
  | iterable (key value : Ty)
  /-- Arrays with keys and values of given types. -/
  | array (key value : Ty)
  /-- The array with exactly these entries. -/
  | constArray (entries : List (Ty × Ty))
  | union (members : List Ty)
  | intersection (members : List Ty)
  /-- A generic parameter that is not bound. -/
  | template (name : String)
  /-- A query builder on which exactly these calls were made. -/
  | builder (calls : List (BuilderCall Ty))
  deriving Inhabited

namespace Ty

mutual
def same : Ty → Ty → Bool
  | .mixed, .mixed | .null, .null | .bool, .bool | .int, .int | .float, .float
  | .string, .string => true
  | .constBool a, .constBool b => a == b
  | .constInt a, .constInt b => a == b
  | .constString a, .constString b => a == b
  | .object n as, .object m bs => n == m && sameList as bs
  | .iterable k v, .iterable l w => same k l && same v w
  | .array k v, .array l w => same k l && same v w
  | .constArray es, .constArray fs => sameEntries es fs
  | .union as, .union bs => sameList as bs
  | .intersection as, .intersection bs => sameList as bs
  | .template n, .template m => n == m
  | .builder cs, .builder ds => sameCalls cs ds
  | _, _ => false
termination_by structural x => x

def sameList : List Ty → List Ty → Bool
  | [], [] => true
  | a :: as, b :: bs => same a b && sameList as bs
  | _, _ => false
termination_by structural x => x

def sameEntries : List (Ty × Ty) → List (Ty × Ty) → Bool
  | [], [] => true
  | (k, v) :: es, (l, w) :: fs => same k l && same v w && sameEntries es fs
  | _, _ => false
termination_by structural x => x

def sameCalls : List (BuilderCall Ty) → List (BuilderCall Ty) → Bool
  | [], [] => true
  | ⟨m, as⟩ :: cs, ⟨n, bs⟩ :: ds => m == n && sameList as bs && sameCalls cs ds
  | _, _ => false
termination_by structural x => x
end

mutual
theorem same_refl : ∀ t : Ty, same t t = true
  | .mixed | .null | .bool | .int | .float | .string => by simp [same]
  | .constBool _ | .constInt _ | .constString _ | .template _ => by simp [same]
  | .object _ args => by simp [same, sameList_refl args]
  | .iterable k v => by simp [same, same_refl k, same_refl v]
  | .array k v => by simp [same, same_refl k, same_refl v]
  | .constArray es => by simp [same, sameEntries_refl es]
  | .union ms => by simp [same, sameList_refl ms]
  | .intersection ms => by simp [same, sameList_refl ms]
  | .builder cs => by simp [same, sameCalls_refl cs]

theorem sameList_refl : ∀ ts : List Ty, sameList ts ts = true
  | [] => by simp [sameList]
  | t :: ts => by simp [sameList, same_refl t, sameList_refl ts]

theorem sameEntries_refl : ∀ es : List (Ty × Ty), sameEntries es es = true
  | [] => by simp [sameEntries]
  | (k, v) :: es => by simp [sameEntries, same_refl k, same_refl v, sameEntries_refl es]

theorem sameCalls_refl : ∀ cs : List (BuilderCall Ty), sameCalls cs cs = true
  | [] => by simp [sameCalls]
  | ⟨_, args⟩ :: cs => by simp [sameCalls, sameList_refl args, sameCalls_refl cs]
end

mutual
theorem eq_of_same : ∀ {a b : Ty}, same a b = true → a = b
  | .mixed, b, h => by cases b <;> simp [same] at h ⊢
  | .null, b, h => by cases b <;> simp [same] at h ⊢
  | .bool, b, h => by cases b <;> simp [same] at h ⊢
  | .int, b, h => by cases b <;> simp [same] at h ⊢
  | .float, b, h => by cases b <;> simp [same] at h ⊢
  | .string, b, h => by cases b <;> simp [same] at h ⊢
  | .constBool _, b, h => by cases b <;> simp [same] at h ⊢; exact h
  | .constInt _, b, h => by cases b <;> simp [same] at h ⊢; exact h
  | .constString _, b, h => by cases b <;> simp [same] at h ⊢; exact h
  | .template _, b, h => by cases b <;> simp [same] at h ⊢; exact h
  | .object _ _, b, h => by
    cases b <;> simp [same] at h ⊢
    exact ⟨h.1, eq_of_sameList h.2⟩
  | .iterable _ _, b, h => by
    cases b <;> simp [same] at h ⊢
    exact ⟨eq_of_same h.1, eq_of_same h.2⟩
  | .array _ _, b, h => by
    cases b <;> simp [same] at h ⊢
    exact ⟨eq_of_same h.1, eq_of_same h.2⟩
  | .constArray _, b, h => by
    cases b <;> simp [same] at h ⊢
    exact eq_of_sameEntries h
  | .union _, b, h => by
    cases b <;> simp [same] at h ⊢
    exact eq_of_sameList h
  | .intersection _, b, h => by
    cases b <;> simp [same] at h ⊢
    exact eq_of_sameList h
  | .builder _, b, h => by
    cases b <;> simp [same] at h ⊢
    exact eq_of_sameCalls h

theorem eq_of_sameList : ∀ {as bs : List Ty}, sameList as bs = true → as = bs
  | [], bs, h => by cases bs <;> simp [sameList] at h ⊢
  | a :: as, bs, h => by
    cases bs <;> simp [sameList] at h ⊢
    exact ⟨eq_of_same h.1, eq_of_sameList h.2⟩

theorem eq_of_sameEntries : ∀ {es fs : List (Ty × Ty)}, sameEntries es fs = true → es = fs
  | [], fs, h => by cases fs <;> simp [sameEntries] at h ⊢
  | (k, v) :: es, fs, h => by
    cases fs with
    | nil => simp [sameEntries] at h
    | cons f fs =>
      obtain ⟨l, w⟩ := f
      simp only [sameEntries, Bool.and_eq_true] at h
      rw [eq_of_same h.1.1, eq_of_same h.1.2, eq_of_sameEntries h.2]

theorem eq_of_sameCalls : ∀ {cs ds : List (BuilderCall Ty)}, sameCalls cs ds = true → cs = ds
  | [], ds, h => by cases ds <;> simp [sameCalls] at h ⊢
  | ⟨m, as⟩ :: cs, ds, h => by
    cases ds with
    | nil => simp [sameCalls] at h
    | cons d ds =>
      obtain ⟨n, bs⟩ := d
      simp only [sameCalls, Bool.and_eq_true, beq_iff_eq] at h
      rw [h.1.1, eq_of_sameList h.1.2, eq_of_sameCalls h.2]
end

theorem same_iff {a b : Ty} : same a b = true ↔ a = b :=
  ⟨eq_of_same, fun h => h ▸ same_refl a⟩

instance : DecidableEq Ty := fun a b =>
  if h : same a b = true then isTrue (same_iff.mp h) else isFalse fun e => h (same_iff.mpr e)

/-- The class of objects that query builders are, whether or not their calls are known. -/
def queryBuilderClass : String := "Doctrine\\ORM\\QueryBuilder"

def ofClass (name : String) : Ty :=
  .object name []

/-- The name of the class, for types whose values are objects of one class. -/
def className? : Ty → Option String
  | .object name _ => some name
  | .builder _ => some queryBuilderClass
  | _ => none

def members : Ty → List Ty
  | .union ms => ms
  | t => [t]

def text? : Ty → Option String
  | .constString s => some s
  | _ => none

/-- The literal texts a type consists of; empty unless every member of the type is one. -/
def texts : Ty → List String
  | .constString s => [s]
  | .union ms => (ms.mapM text?).getD []
  | _ => []

mutual
def isNullable : Ty → Bool
  | .null | .mixed => true
  | .union ms => anyNullable ms
  | _ => false
termination_by structural x => x

def anyNullable : List Ty → Bool
  | [] => false
  | t :: ts => isNullable t || anyNullable ts
termination_by structural x => x
end

end Ty

end EntityAudit
