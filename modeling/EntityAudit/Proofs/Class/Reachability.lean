import EntityAudit.Code.Decl
import EntityAudit.Proofs.Class.Ancestors

/-! # What a class can reach

A search opens each known class at most once and looks at a class before it asks whether the class
was opened. None of this loses anything: it succeeds exactly where what it looks for can be reached
along declared parents.
-/

namespace EntityAudit

namespace ClassInfo

/-- The class itself declares a method called `method`, in whatever case. -/
def HasMethod (info : ClassInfo) (method : String) : Prop :=
  Text.foldCase method ∈ info.methods.keys

/-- The class itself declares a property called exactly `property`. -/
def HasProperty (info : ClassInfo) (property : String) : Prop :=
  property ∈ info.properties.keys

instance (info : ClassInfo) (method : String) : Decidable (info.HasMethod method) :=
  inferInstanceAs (Decidable (_ ∈ _))

instance (info : ClassInfo) (property : String) : Decidable (info.HasProperty property) :=
  inferInstanceAs (Decidable (_ ∈ _))

theorem method?_isSome {info : ClassInfo} {method} :
    (info.method? method).isSome ↔ info.HasMethod method :=
  info.methods.has_iff_mem_keys _

theorem property?_isSome {info : ClassInfo} {property} :
    (info.property? property).isSome ↔ info.HasProperty property :=
  info.properties.has_iff_mem_keys property

end ClassInfo

theorem Dict.mem_keys_foldl_put {α β : Type} {key : β → String} {value : β → α} {items : List β}
    {d : Dict α} {name : String} :
    name ∈ (items.foldl (fun d b => d.put (key b) (value b)) d).keys ↔
      name ∈ d.keys ∨ ∃ b ∈ items, key b = name := by
  induction items generalizing d with
  | nil => simp
  | cons b items ih =>
    have first : name ∈ (d.put (key b) (value b)).keys ↔ name ∈ d.keys ∨ key b = name := by
      rw [← has_iff_mem_keys, ← has_iff_mem_keys, has, has, get?_put]
      split <;> simp [*]
    simp only [List.foldl_cons, ih, first, List.mem_cons, exists_eq_or_imp, or_assoc]

namespace ClassDecl

theorem toInfo_methods (c : ClassDecl) : c.toInfo.methods =
    c.methods.foldl (fun d m => Dict.put d (Text.foldCase m.name) ⟨m.name, m.returns⟩) [] := by
  have bare (properties : List PropertyDecl) (info : ClassInfo) :
      (properties.foldl (fun info p => info.withProperty p.name p.readable p.writable)
        info).methods = info.methods := by
    induction properties generalizing info with
    | nil => rfl
    | cons p properties ih => exact ih _
  have added (info : ClassInfo) :
      (c.methods.foldl (fun info m => info.withMethod m.name m.returns) info).methods =
        c.methods.foldl (fun d m => Dict.put d (Text.foldCase m.name) ⟨m.name, m.returns⟩)
          info.methods :=
    (List.foldl_hom ClassInfo.methods fun _ _ => rfl).symm
  rw [toInfo, added, bare]

theorem toInfo_properties (c : ClassDecl) : c.toInfo.properties =
    c.properties.foldl (fun d p => Dict.put d p.name ⟨p.readable, p.writable⟩) [] := by
  have kept (methods : List MethodDecl) (info : ClassInfo) :
      (methods.foldl (fun info m => info.withMethod m.name m.returns) info).properties =
        info.properties := by
    induction methods generalizing info with
    | nil => rfl
    | cons m methods ih => exact ih _
  rw [toInfo, kept]
  exact (List.foldl_hom ClassInfo.properties fun _ _ => rfl).symm

theorem hasMethod_toInfo {c : ClassDecl} {method : String} :
    c.toInfo.HasMethod method ↔ ∃ m ∈ c.methods, Text.sameFold m.name method = true := by
  rw [ClassInfo.HasMethod, toInfo_methods, Dict.mem_keys_foldl_put]
  simp [Dict.keys, Text.sameFold_iff]

theorem hasProperty_toInfo {c : ClassDecl} {property : String} :
    c.toInfo.HasProperty property ↔ ∃ p ∈ c.properties, p.name = property := by
  rw [ClassInfo.HasProperty, toInfo_properties, Dict.mem_keys_foldl_put]
  simp [Dict.keys]

end ClassDecl

namespace ClassTable

/-- A class for which `holds` is known and can be reached from `name`, which may be that class
    itself. -/
def Reaches (table : ClassTable) (name : String) (holds : ClassInfo → Prop) : Prop :=
  ∃ other info, table.Descends name other ∧ table.find? other = some info ∧ holds info

variable {table : ClassTable}

theorem find_member_isSome {α β : Type} {member? : ClassInfo → Option α} {holds : ClassInfo → Prop}
    (members : ∀ info, (member? info).isSome ↔ holds info) (answer : ClassType → ClassInfo → α → β)
    (c : ClassType) :
    ((table.find? c.name).bind fun info =>
        (member? info).bind fun found => some (answer c info found)).isSome ↔
      ∃ info, table.classes.get? (Text.foldCase c.name) = some info ∧ holds info := by
  rw [find?]
  cases table.classes.get? (Text.foldCase c.name) with
  | none => simp
  | some info =>
    rw [Option.bind_some, Option.isSome_bind]
    simp [← members]

theorem search_member_isSome {α β : Type} {expand : ClassType → ClassInfo → List ClassType}
    (follows : Follows expand) {member? : ClassInfo → Option α} {holds : ClassInfo → Prop}
    (members : ∀ info, (member? info).isSome ↔ holds info)
    {answer : ClassType → ClassInfo → α → β} {c : ClassType} :
    (search expand (fun d => (table.find? d.name).bind fun info =>
        (member? info).bind fun found => some (answer d info found)) table.classes [c]).isSome ↔
      table.Reaches c.name holds := by
  refine (search_single_isSome_iff follows
    (fun key => ∃ info, table.classes.get? key = some info ∧ holds info)
    (find_member_isSome members answer)).trans ⟨?_, ?_⟩
  · rintro ⟨other, above, info, opened, here⟩
    exact ⟨other, info, above, opened, here⟩
  · rintro ⟨other, info, above, opened, here⟩
    exact ⟨other, above, info, opened, here⟩

/-- Searches through a hierarchy find exactly what can be reached. Whatever the classes, a class
    type has a view as `ancestor` if and only if `ancestor` is its class or one above it, and that
    view is one of `ancestor`; a method, up to case, or a property has a type if and only if some
    known class that can be reached declares it. -/
theorem searches_find_reachable (table : ClassTable) :
    (∀ (c : ClassType) (ancestor : String),
      ((table.ancestor? c ancestor).isSome ↔ table.Descends c.name ancestor) ∧
      ∀ seen, table.ancestor? c ancestor = some seen → Text.sameFold seen.name ancestor = true) ∧
    (∀ (c : ClassType) (method : String), (table.methodType? c method).isSome ↔
      table.Reaches c.name (·.HasMethod method)) ∧
    (∀ className property : String, (table.propertyType? className property).isSome ↔
      table.Reaches className (·.HasProperty property)) ∧
    ∀ c : ClassDecl,
      (∀ method, c.toInfo.HasMethod method ↔
        ∃ m ∈ c.methods, Text.sameFold m.name method = true) ∧
      ∀ property, c.toInfo.HasProperty property ↔ ∃ p ∈ c.properties, p.name = property := by
  refine ⟨fun c ancestor => ⟨descends_iff, fun seen found => ?_⟩, fun c method => ?_,
    fun className property => ?_, fun c => ⟨fun _ => c.hasMethod_toInfo,
    fun _ => c.hasProperty_toInfo⟩⟩
  · have anywhere : ∀ d ∈ [c], True := fun _ _ => trivial
    obtain ⟨d, -, hit⟩ :=
      search_eq_some (fun _ _ _ _ _ _ => trivial) (fun _ _ own => own) anywhere found
    split at hit
    · rename_i folded
      cases hit
      exact folded
    · contradiction
  · exact search_member_isSome follows_parentsOf fun info => info.method?_isSome
  · exact search_member_isSome follows_reverse fun info => info.property?_isSome

end ClassTable

end EntityAudit
