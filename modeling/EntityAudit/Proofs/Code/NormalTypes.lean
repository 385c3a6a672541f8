import EntityAudit.Proofs.Class.Bindings
import EntityAudit.Proofs.Code.ArrayKeys
import EntityAudit.Proofs.Code.Scopes
import EntityAudit.Proofs.Ty.Normal

/-! # Inferred types stay normal

A property of parts that merging keeps goes from the declared types to all that are inferred, at
every point that a run of statements leads to. Being in normal form is such a property.
-/

namespace EntityAudit

open Ty (KeptByMerging everyPart everyPart_iff)

variable {ok : Ty → Bool}

namespace Ty.KeptByMerging

theorem leaf (kept : KeptByMerging ok) {t : Ty} (single : t.isUnion = false)
    (simple : t.isIntersection = false) (alone : t.parts = []) : t.everyPart ok = true := by
  apply everyPart_iff.mpr
  rw [alone]
  exact ⟨kept.plain t single simple, by simp⟩

theorem keptByBinding (kept : KeptByMerging ok) : KeptByBinding (everyPart ok · = true) where
  mixed := kept.leaf rfl rfl rfl
  substitute bound all := kept.substitute bound all

end Ty.KeptByMerging

theorem everyPart_concatType (kept : KeptByMerging ok) (left right : Ty) :
    (concatType left right).everyPart ok = true := by
  rw [concatType]
  split
  · exact kept.leaf rfl rfl rfl
  · apply kept.unite
    intro t inside
    obtain ⟨l, -, inside⟩ := List.mem_flatMap.mp inside
    obtain ⟨r, -, rfl⟩ := List.mem_map.mp inside
    exact kept.leaf rfl rfl rfl

/-- The keys and values of the entries of an array have only parts that are `ok`. -/
def EntriesOf (ok : Ty → Bool) (entries : List (Ty × Ty)) : Prop :=
  ∀ entry ∈ entries, entry.1.everyPart ok = true ∧ entry.2.everyPart ok = true

theorem EntriesOf.putEntry {entries} (all : EntriesOf ok entries) {key value}
    (first : key.everyPart ok = true) (second : value.everyPart ok = true) :
    EntriesOf ok (putEntry entries key value) := by
  induction entries with
  | nil => exact List.forall_mem_singleton.mpr ⟨first, second⟩
  | cons entry entries ih =>
    obtain ⟨k, v⟩ := entry
    obtain ⟨own, later⟩ := List.forall_mem_cons.mp all
    rw [EntityAudit.putEntry]
    split
    · exact List.forall_mem_cons.mpr ⟨⟨own.1, second⟩, later⟩
    · exact List.forall_mem_cons.mpr ⟨own, ih later⟩

namespace ArrayDraft

theorem entriesOf_put {draft noted : ArrayDraft} (all : EntriesOf ok draft.entries) {key value}
    (first : key.everyPart ok = true) (second : value.everyPart ok = true)
    (done : draft.note key = .ok noted) : EntriesOf ok (noted.put key value).entries := by
  have same : noted.entries = draft.entries := by
    rw [note_eq] at done
    split at done
    · cases done
    · cases done; rfl
  exact EntriesOf.putEntry (same ▸ all) first second

theorem everyPart_toTy (kept : KeptByMerging ok) {draft : ArrayDraft}
    (all : EntriesOf ok draft.entries) : draft.toTy.everyPart ok = true := by
  rw [toTy]
  split
  · apply everyPart_iff.mpr
    refine ⟨kept.plain _ rfl rfl, ?_⟩
    intro part inside
    obtain ⟨entry, among, here⟩ := List.mem_flatMap.mp inside
    simp only [List.mem_cons, List.not_mem_nil, or_false] at here
    rcases here with rfl | rfl
    · exact (all entry among).1
    · exact (all entry among).2
  · apply everyPart_iff.mpr
    refine ⟨kept.plain _ rfl rfl, ?_⟩
    intro part inside
    simp only [Ty.parts, List.mem_cons, List.not_mem_nil, or_false] at inside
    rcases inside with rfl | rfl
    all_goals
      apply kept.unite
      intro t among
      obtain ⟨entry, within, rfl⟩ := List.mem_map.mp among
    · exact (all entry within).1
    · exact (all entry within).2

end ArrayDraft

theorem everyPart_builderCallType (kept : KeptByMerging ok) {calls method args t}
    (called : builderCallType calls method args = .ok t) : t.everyPart ok = true := by
  rw [builderCallType] at called
  split at called
  · cases called
    exact kept.leaf rfl rfl rfl
  · split at called
    · obtain ⟨texts, -, called⟩ := except_bind_ok.mp called
      cases texts with
      | none =>
        cases called
        exact kept.leaf rfl rfl rfl
      | some texts =>
        cases called
        apply kept.unite
        intro t inside
        obtain ⟨text, -, rfl⟩ := List.mem_map.mp inside
        exact kept.leaf rfl rfl rfl
    all_goals
      cases called
      exact kept.leaf rfl rfl rfl

theorem everyPart_unknownBuilderCallType (kept : KeptByMerging ok) (method : String) :
    (unknownBuilderCallType method).everyPart ok = true := by
  rw [unknownBuilderCallType]
  split
  · exact kept.leaf rfl rfl rfl
  · exact kept.leaf rfl rfl rfl
  · exact kept.leaf rfl rfl rfl
  · split <;> exact kept.leaf rfl rfl rfl

namespace ClassTable

variable {table : ClassTable}

theorem managerMethodType?_cases {method t} (found : managerMethodType? method args = some t) :
    t = .mixed ∨ t ∈ args ∨ t = .ofClass ClassName.entityRepository ∨
      ∃ name, t = (Ty.ofClass name).addNull ∨
        t = .object ClassName.entityRepository [.ofClass name] := by
  rw [managerMethodType?] at found
  generalize looked : args.head?.bind _ = entity at found
  have named : entity = none ∨ ∃ name, entity = some (Ty.ofClass name) := by
    cases entity with
    | none => exact .inl rfl
    | some e =>
      obtain ⟨first, -, looked⟩ := Option.bind_eq_some_iff.mp looked
      split at looked
      · exact .inr ⟨_, looked.symm⟩
      · cases looked
  have given : args.head?.getD .mixed = .mixed ∨ args.head?.getD .mixed ∈ args := by
    cases args <;> simp
  rcases named with rfl | ⟨name, rfl⟩
  all_goals
    split at found <;> cases found <;> grind

variable (kept : KeptByMerging ok)

include kept
variable {args : List Ty}

theorem everyPart_managerMethodType? {method} (each : ∀ t ∈ args, t.everyPart ok = true) {t}
    (found : managerMethodType? method args = some t) : t.everyPart ok = true := by
  have named (name : String) : (Ty.ofClass name).everyPart ok = true := kept.leaf rfl rfl rfl
  rcases managerMethodType?_cases found with rfl | inside | rfl | ⟨name, rfl | rfl⟩
  · exact kept.leaf rfl rfl rfl
  · exact each t inside
  · exact named _
  · apply kept.unite
    exact List.forall_mem_cons.mpr
      ⟨named name, List.forall_mem_singleton.mpr (kept.leaf rfl rfl rfl)⟩
  · exact everyPart_iff.mpr ⟨kept.plain _ rfl rfl, List.forall_mem_singleton.mpr (named name)⟩

theorem everyPart_repositoryBuilder (repository : ClassType) (args : List Ty) :
    (table.repositoryBuilder repository args).everyPart ok = true := by
  unfold repositoryBuilder
  split <;> exact kept.leaf rfl rfl rfl

theorem everyPart_objectCallType (declares : table.Declares (everyPart ok · = true)) {object}
    (own : ∀ t ∈ object.args, t.everyPart ok = true) (each : ∀ t ∈ args, t.everyPart ok = true)
    (method : String) : (table.objectCallType object method args).everyPart ok = true := by
  rw [objectCallType]
  split
  · exact everyPart_unknownBuilderCallType kept method
  · split
    · exact kept.leaf rfl rfl rfl
    · split
      · rename_i result found
        split at found
        · exact everyPart_managerMethodType? kept each found
        · cases found
      · split
        · exact everyPart_repositoryBuilder kept object args
        · cases found : table.methodType? object method with
          | none => exact kept.leaf rfl rfl rfl
          | some t => exact declares.methodType? kept.keptByBinding own found

theorem everyPart_callOn (declares : table.Declares (everyPart ok · = true)) {receiver}
    (own : receiver.everyPart ok = true) (each : ∀ t ∈ args, t.everyPart ok = true)
    (method : String) {t} (called : table.callOn receiver method args = .ok t) :
    t.everyPart ok = true := by
  cases receiver with
  | builder calls => exact everyPart_builderCallType kept called
  | object name objectArgs =>
    cases called
    exact everyPart_objectCallType kept declares (everyPart_iff.mp own).2 each method
  | _ =>
    cases called
    exact kept.leaf rfl rfl rfl

theorem everyPart_callType (declares : table.Declares (everyPart ok · = true)) {receiver}
    (own : receiver.everyPart ok = true) (each : ∀ t ∈ args, t.everyPart ok = true)
    (method : String) {t} (called : table.callType receiver method args = .ok t) :
    t.everyPart ok = true := by
  cases receiver with
  | union members =>
    obtain ⟨results, answered, done⟩ := except_bind_ok.mp called
    cases done
    -- Each member answers for itself, and the answers are merged.
    apply kept.unite
    intro result inside
    obtain ⟨member, among, here⟩ := except_mapM_ok answered result inside
    exact everyPart_callOn kept declares ((everyPart_iff.mp own).2 member among) each method here
  | _ => exact everyPart_callOn kept declares own each method called

end ClassTable

/-- The types that a scope knows, declared ones and those of variables, have only parts that are
    `ok`. -/
structure Scope.EveryPart (ok : Ty → Bool) (s : Scope) : Prop where
  declared : s.table.Declares (everyPart ok · = true)
  locals : ∀ entry ∈ s.locals, entry.2.everyPart ok = true

namespace Scope

variable {s other after : Scope}

theorem EveryPart.varType? (known : s.EveryPart ok) {name t} (found : s.varType? name = some t) :
    t.everyPart ok = true :=
  known.locals _ (Dict.mem_of_get? found)

theorem EveryPart.propertyType (known : s.EveryPart ok) (kept : KeptByMerging ok) (object : Ty)
    (name : String) : (s.propertyType object name).everyPart ok = true := by
  rw [Scope.propertyType]
  cases found : object.className?.bind fun c => s.table.propertyType? c name with
  | none => exact kept.leaf rfl rfl rfl
  | some t =>
    obtain ⟨c, -, found⟩ := Option.bind_eq_some_iff.mp found
    exact known.declared.propertyType? found

mutual
theorem EveryPart.typeOf (known : s.EveryPart ok) (kept : KeptByMerging ok) :
    ∀ {e : Expr} {t : Ty}, s.typeOf e = .ok t → t.everyPart ok = true
  | .array items, t, typed => by
    obtain ⟨draft, added, done⟩ := except_bind_ok.mp typed
    cases done
    exact ArrayDraft.everyPart_toTy kept
      (EveryPart.addItems known kept (by intro entry inside; cases inside) added)
  | .var name, t, typed => by
    cases typed
    cases found : s.varType? name with
    | none => exact kept.leaf rfl rfl rfl
    | some t => exact known.varType? found
  | .this, t, typed => by
    cases typed
    cases s.owner <;> exact kept.leaf rfl rfl rfl
  | .property object name, t, typed => by
    obtain ⟨receiver, -, done⟩ := except_bind_ok.mp typed
    cases done
    exact known.propertyType kept receiver name
  | .call receiver method args, t, typed => by
    obtain ⟨receiverType, types, first, rest, called⟩ := typeOf_call_ok typed
    exact ClassTable.everyPart_callType kept known.declared
      (EveryPart.typeOf known kept first) (EveryPart.typesOf known kept rest) method called
  | .concat left right, t, typed => by
    obtain ⟨leftType, -, typed⟩ := except_bind_ok.mp typed
    obtain ⟨rightType, -, done⟩ := except_bind_ok.mp typed
    cases done
    exact everyPart_concatType kept leftType rightType
  | .null, t, typed | .bool _, t, typed | .int _, t, typed | .text _, t, typed
  | .classConst _, t, typed | .new _ _, t, typed | .dynamicCall _ _ _, t, typed
  | .function _ _, t, typed => by
    cases typed
    exact kept.leaf rfl rfl rfl

theorem EveryPart.typesOf (known : s.EveryPart ok) (kept : KeptByMerging ok) :
    ∀ {es : List Expr} {ts : List Ty}, s.typesOf es = .ok ts → ∀ t ∈ ts, t.everyPart ok = true
  | [], ts, typed => by
    cases typed
    simp
  | e :: es, ts, typed => by
    obtain ⟨t, first, typed⟩ := except_bind_ok.mp typed
    obtain ⟨later, rest, done⟩ := except_bind_ok.mp typed
    cases done
    exact List.forall_mem_cons.mpr
      ⟨EveryPart.typeOf known kept first, EveryPart.typesOf known kept rest⟩

theorem EveryPart.addItems (known : s.EveryPart ok) (kept : KeptByMerging ok) :
    ∀ {items : List (Option Expr × Expr)} {draft final : ArrayDraft},
      EntriesOf ok draft.entries → s.addItems draft items = .ok final → EntriesOf ok final.entries
  | [], draft, final, all, added => by
    cases added
    exact all
  | (none, value) :: items, draft, final, all, added => by
    obtain ⟨noted, done, added⟩ := except_bind_ok.mp added
    obtain ⟨t, typed, rest⟩ := except_bind_ok.mp added
    refine EveryPart.addItems known kept ?_ rest
    exact ArrayDraft.entriesOf_put all (kept.leaf rfl rfl rfl)
      (EveryPart.typeOf known kept typed) done
  | (some key, value) :: items, draft, final, all, added => by
    obtain ⟨k, keyed, added⟩ := except_bind_ok.mp added
    obtain ⟨noted, done, added⟩ := except_bind_ok.mp added
    obtain ⟨t, typed, rest⟩ := except_bind_ok.mp added
    refine EveryPart.addItems known kept ?_ rest
    exact ArrayDraft.entriesOf_put all (EveryPart.typeOf known kept keyed)
      (EveryPart.typeOf known kept typed) done
end

theorem everyPart_ofMethod {table} (declares : table.Declares (everyPart ok · = true))
    (owner : Option ClassInfo) {params} (each : ∀ p ∈ params, p.type.everyPart ok = true) :
    (ofMethod table owner params).EveryPart ok := by
  refine ⟨declares, ?_⟩
  apply List.foldlRecOn
    (motive := fun vars : Dict Ty => ∀ entry ∈ vars, entry.2.everyPart ok = true)
  · simp
  · intro vars known p inside
    exact Dict.forall_put (P := (everyPart ok · = true)) known (each p inside) p.name

theorem EveryPart.assign (known : s.EveryPart ok) {t} (all : t.everyPart ok = true)
    (name : String) :
    (s.assign name t).EveryPart ok :=
  ⟨known.declared, Dict.forall_put (P := (everyPart ok · = true)) known.locals all name⟩

theorem EveryPart.advance (known : s.EveryPart ok) (kept : KeptByMerging ok) {e}
    (passed : s.advance e = .ok after) : after.EveryPart ok := by
  rcases advance_cases passed with rfl | ⟨chain, _, _, new, -, -, -, -, typed, rfl⟩
  · exact known
  · exact known.assign (known.typeOf kept typed) chain.root

theorem EveryPart.apply (known : s.EveryPart ok) (kept : KeptByMerging ok) {stmt}
    (passed : s.apply stmt = .ok after) : after.EveryPart ok := by
  cases stmt with
  | expr value line => exact known.advance kept passed
  | branch condition holds fails line => exact known.advance kept passed
  | assign name value line =>
    obtain ⟨t, typed, later⟩ := except_bind_ok.mp passed
    obtain ⟨next, evaluated, done⟩ := except_bind_ok.mp later
    cases done
    exact (known.advance kept evaluated).assign (known.typeOf kept typed) name
  | ret value line =>
    cases value with
    | none =>
      cases passed
      exact known
    | some value => exact known.advance kept passed

theorem everyPart_join (kept : KeptByMerging ok) {known}
    (all : ∀ entry ∈ known, entry.2.everyPart ok = true) {entry}
    (here : entry.2.everyPart ok = true) :
    ∀ met ∈ merge.join known entry, met.2.everyPart ok = true := by
  rw [merge.join]
  split
  · rename_i t found
    apply Dict.forall_put (P := (everyPart ok · = true)) all
    apply kept.unite
    intro u inside
    simp only [List.mem_cons, List.not_mem_nil, or_false] at inside
    rcases inside with rfl | rfl
    · exact all _ (Dict.mem_of_get? found)
    · exact here
  · exact Dict.forall_put (P := (everyPart ok · = true)) all here entry.1

theorem EveryPart.merge (known : s.EveryPart ok) (kept : KeptByMerging ok)
    (others : ∀ entry ∈ other.locals, entry.2.everyPart ok = true) :
    (s.merge other).EveryPart ok := by
  refine ⟨known.declared, ?_⟩
  apply List.foldlRecOn
    (motive := fun vars : Dict Ty => ∀ entry ∈ vars, entry.2.everyPart ok = true)
  · exact known.locals
  · intro vars before entry inside
    exact everyPart_join kept before (others entry inside)

/-- The scopes that come about where declared types have the property `P`: at the start of a method,
    where a variable is given such a type, after a statement that is not rejected, and where two
    branches meet. -/
inductive Reached (P : Ty → Prop) : Scope → Prop
  | start {table params} (owner : Option ClassInfo) :
      table.Declares P → (∀ p ∈ params, P p.type) → Reached P (ofMethod table owner params)
  | assign {s t} (name : String) : Reached P s → P t → Reached P (s.assign name t)
  | apply {s after stmt} : Reached P s → s.apply stmt = .ok after →
      Reached P after
  | merge {s other : Scope} : Reached P s → Reached P other → Reached P (s.merge other)

theorem Reached.everyPart (kept : KeptByMerging ok)
    (reached : Reached (Ty.everyPart ok · = true) s) : s.EveryPart ok := by
  induction reached with
  | start owner declares each => exact everyPart_ofMethod declares owner each
  | assign name _ all ih => exact ih.assign all name
  | apply _ passed ih => exact ih.apply kept passed
  | merge _ _ ih other => exact ih.merge kept other.locals

/-- Wherever declared types are normal, so are the types of all expressions and variables. -/
theorem typeOf_normal (reached : Reached (Ty.isNormal · = true) s) :
    (∀ e t, s.typeOf e = .ok t → t.isNormal = true) ∧
      ∀ name t, s.varType? name = some t → t.isNormal = true := by
  have known := reached.everyPart Ty.keptByMerging_normal
  constructor
  · intro e t typed
    exact known.typeOf Ty.keptByMerging_normal typed
  · intro name t found
    exact known.varType? found

/-- The end of a branch that adds `text` to a new builder and keeps it in a variable. -/
def selecting (text : String) : Scope :=
  { table := .builtin,
    locals := [("qb", .builder [⟨.select, [.constString text]⟩]), ("kind", .constString text)] }

theorem typeOf_normal_selecting :
    Reached (Ty.isNormal · = true) ((selecting "a").merge (selecting "b")) ∧
      ((selecting "a").merge (selecting "b")).typeOf (.concat (.var "kind") (.text "!")) =
        .ok (.union [.constString "a!", .constString "b!"]) ∧
      (Ty.union [.constString "a!", .constString "b!"]).isNormal = true ∧
      ((selecting "a").merge (selecting "b")).varType? "qb" =
        some (.union [.builder [⟨.select, [.constString "a"]⟩],
          .builder [⟨.select, [.constString "b"]⟩]]) ∧
      (Ty.union [.builder [⟨.select, [.constString "a"]⟩],
        .builder [⟨.select, [.constString "b"]⟩]]).isNormal = true := by
  have declares : ClassTable.builtin.Declares (Ty.isNormal · = true) := by decide +kernel
  have start : Reached (Ty.isNormal · = true)
      (ofMethod .builtin none [⟨"qb", .builder []⟩, ⟨"kind", .unite [.string, .null]⟩]) :=
    .start none declares (by decide)
  have branch (text : String) : Reached (Ty.isNormal · = true) (selecting text) := by
    have keeps : Scope.apply { selecting text with
        locals := (selecting text).locals.put "kind" (.unite [.string, .null]) }
          (.assign "kind" (.text text) 2) = .ok (selecting text) := rfl
    have selects : (ofMethod .builtin none
        [⟨"qb", .builder []⟩, ⟨"kind", .unite [.string, .null]⟩]).apply
          (.expr (.call (.var "qb") "select" [.text text]) 1) = .ok _ := rfl
    exact (start.apply selects).apply keeps
  have reached := (branch "a").merge (branch "b")
  have normal := typeOf_normal reached
  exact ⟨reached, rfl, normal.1 (.concat (.var "kind") (.text "!")) _ rfl, rfl,
    normal.2 "qb" _ rfl⟩

end Scope

end EntityAudit
