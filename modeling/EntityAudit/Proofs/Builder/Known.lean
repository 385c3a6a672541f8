import EntityAudit.Proofs.Builder.Product
import EntityAudit.Proofs.Ty.Union
import EntityAudit.Rule.BuilderQuery

/-! # Types of known builders

A known builder has the type of one or more lists of recorded calls. Uniting such types joins the
lists, a builder call extends every list, and the text of the query is that of all lists together.
-/

namespace EntityAudit

variable {builderMethod : BuilderMethod} {method : String}

/-- What the texts of a builder depend on in a call: the method and the literals its arguments may
    be. -/
def BuilderCall.outline (call : BuilderCall Ty) : BuilderMethod × List (Option (List Literal)) :=
  (call.method, call.args.map Literal.choices?)

theorem foldlM_addChoices?_congr {args others : List Ty}
    (same : args.map Literal.choices? = others.map Literal.choices?)
    (filled : List (List Literal)) :
    args.foldlM addChoices? filled = others.foldlM addChoices? filled := by
  induction args generalizing others filled with
  | nil =>
    rw [List.map_nil, eq_comm, List.map_eq_nil_iff] at same
    rw [same]
  | cons arg args ih =>
    cases others with
    | nil => simp at same
    | cons other others =>
      rw [List.map_cons, List.map_cons, List.cons.injEq] at same
      have step : addChoices? filled arg = addChoices? filled other := by
        rw [addChoices?, addChoices?, same.1]
      rw [List.foldlM_cons, List.foldlM_cons, step]
      exact bind_congr fun next => ih same.2 next

theorem replaySteps_congr {calls others}
    (same : calls.map BuilderCall.outline = others.map BuilderCall.outline) (total : Nat) :
    replaySteps total calls = replaySteps total others := by
  induction calls generalizing others total with
  | nil =>
    rw [List.map_nil, eq_comm, List.map_eq_nil_iff] at same
    rw [same]
  | cons call calls ih =>
    cases others with
    | nil => simp at same
    | cons other others =>
      rw [List.map_cons, List.map_cons, List.cons.injEq, BuilderCall.outline,
        BuilderCall.outline, Prod.mk.injEq] at same
      obtain ⟨⟨method, args⟩, rest⟩ := same
      have choices : argumentChoices? call.args = argumentChoices? other.args :=
        foldlM_addChoices?_congr args [[]]
      have length : call.args.length = other.args.length := by
        simpa using congrArg List.length args
      have complete : call.isComplete = other.isComplete := by
        rw [BuilderCall.isComplete, BuilderCall.isComplete, method, length]
      simp only [replaySteps_cons, complete, method, choices, length, ih rest]

theorem queryCandidates_congr {calls others}
    (same : calls.map BuilderCall.outline = others.map BuilderCall.outline) :
    queryCandidates calls = queryCandidates others := by
  rw [queryCandidates, queryCandidates, replaySteps_congr same]

/-- An answer holds exactly the texts of several outcomes. It is a rejection if one of them is, and
    it has no texts at all if one of them is not known. -/
def ExactTexts (outcomes : List (Except Fault (Option (List String)))) :
    Except Fault Ty → Prop
  | .error fault => .error fault ∈ outcomes
  | .ok type =>
    (∀ fault, .error fault ∉ outcomes) ∧ ∀ text, text ∈ type.texts ↔
      .ok none ∉ outcomes ∧ ∃ texts, .ok (some texts) ∈ outcomes ∧ text ∈ texts

theorem ExactTexts.congr {outcomes others} (same : ∀ outcome, outcome ∈ outcomes ↔ outcome ∈ others)
    {answer} (precise : ExactTexts outcomes answer) : ExactTexts others answer := by
  cases answer with
  | error fault => exact (same _).mp precise
  | ok type => simpa only [ExactTexts, same] using precise

namespace Ty

theorem isKnownBuilder_iff {t : Ty} :
    t.isKnownBuilder = true ↔
      t.members ≠ [] ∧ ∀ m ∈ t.members, ∃ calls, m = .builder calls := by
  simp only [isKnownBuilder, Bool.and_eq_true, Bool.not_eq_true', List.isEmpty_eq_false_iff,
    List.all_eq_true]
  refine and_congr_right fun _ => forall₂_congr fun m _ => ?_
  cases m <;> simp

theorem choices?_of_isKnownBuilder {t : Ty} (known : t.isKnownBuilder = true) :
    Literal.choices? t = none := by
  obtain ⟨some, builders⟩ := isKnownBuilder_iff.mp known
  cases t with
  | builder calls => rfl
  | union ms =>
    cases ms with
    | nil => simp [members] at some
    | cons m ms =>
      obtain ⟨calls, rfl⟩ := builders m (by simp [members])
      rfl
  | _ => simp [isKnownBuilder, members] at known

theorem unite_knownBuilders {types} (some : types ≠ [])
    (known : ∀ t ∈ types, t.isKnownBuilder = true) :
    (unite types).isKnownBuilder = true ∧
      ∀ m, m ∈ (unite types).members ↔ ∃ t ∈ types, m ∈ t.members := by
  have builders : ∀ m ∈ types.flatMap members, ∃ calls, m = .builder calls := by
    intro m inside
    obtain ⟨t, own, member⟩ := List.mem_flatMap.mp inside
    exact (isKnownBuilder_iff.mp (known t own)).2 m member
  have nonempty : types.flatMap members ≠ [] := by
    obtain ⟨t, own⟩ := List.exists_mem_of_ne_nil _ some
    obtain ⟨m, member⟩ := List.exists_mem_of_ne_nil _ (isKnownBuilder_iff.mp (known t own)).1
    exact List.ne_nil_of_mem (List.mem_flatMap.mpr ⟨t, own, member⟩)
  have all : ∀ m, m ∈ (unite types).members ↔ m ∈ types.flatMap members := fun m =>
    mem_members_unite nonempty
      (fun mixed => by obtain ⟨calls, same⟩ := builders _ mixed; contradiction)
      (fun u inside => by obtain ⟨calls, rfl⟩ := builders u inside; rfl)
  refine ⟨isKnownBuilder_iff.mpr ⟨?_, fun m inside => builders m ((all m).mp inside)⟩, fun m => ?_⟩
  · obtain ⟨m, inside⟩ := List.exists_mem_of_ne_nil _ nonempty
    exact List.ne_nil_of_mem ((all m).mpr inside)
  · rw [all, List.mem_flatMap]

theorem unite_two_knownBuilders {a b} (first : a.isKnownBuilder = true)
    (second : b.isKnownBuilder = true) :
    (unite [a, b]).isKnownBuilder = true ∧
      ∀ m, m ∈ (unite [a, b]).members ↔ m ∈ a.members ∨ m ∈ b.members := by
  simpa using unite_knownBuilders (List.cons_ne_nil a [b]) (by simp [first, second])

end Ty

theorem exists_map_builder {ms : List Ty} (builders : ∀ m ∈ ms, ∃ calls, m = .builder calls) :
    ∃ shapes : List (List (BuilderCall Ty)), ms = shapes.map .builder := by
  induction ms with
  | nil => exact ⟨[], rfl⟩
  | cons m ms ih =>
    obtain ⟨calls, rfl⟩ := builders m (by simp)
    obtain ⟨shapes, rfl⟩ := ih fun u inside => builders u (by simp [inside])
    exact ⟨calls :: shapes, rfl⟩

theorem callType_of_not_union {t} (single : t.isUnion = false) (table : ClassTable)
    (method : String) (args : List Ty) :
    table.callType t method args = table.callOn t method args := by
  cases t <;> first | rfl | simp [Ty.isUnion] at single

theorem callOn_builderMethod (named : BuilderMethod.ofName? method = some builderMethod)
    (table : ClassTable) (calls : List (BuilderCall Ty)) (args : List Ty) :
    table.callOn (.builder calls) method args =
      .ok (.builder (calls ++ [⟨builderMethod, args⟩])) := by
  simp only [ClassTable.callOn, builderCallType, named]

theorem callType_builderMethod (named : BuilderMethod.ofName? method = some builderMethod)
    (table : ClassTable) {t : Ty} (known : t.isKnownBuilder = true) (args : List Ty) :
    ∃ next, table.callType t method args = .ok next ∧ next.isKnownBuilder = true ∧
      ∀ calls, .builder calls ∈ next.members ↔
        ∃ before, .builder before ∈ t.members ∧ calls = before ++ [⟨builderMethod, args⟩] := by
  obtain ⟨some, builders⟩ := Ty.isKnownBuilder_iff.mp known
  cases t with
  | builder calls =>
    refine ⟨.builder (calls ++ [⟨builderMethod, args⟩]), ?_, rfl, fun after => ?_⟩
    · rw [callType_of_not_union rfl, callOn_builderMethod named]
    · simp [Ty.members]
  | union ms =>
    obtain ⟨shapes, rfl⟩ := exists_map_builder builders
    let next := shapes.map fun calls => Ty.builder (calls ++ [⟨builderMethod, args⟩])
    have nonempty : next ≠ [] := by
      simpa [next, Ty.members] using some
    have each : ∀ t ∈ next, t.isKnownBuilder = true := by
      simp [next, Ty.isKnownBuilder, Ty.members]
    obtain ⟨united, members⟩ := Ty.unite_knownBuilders nonempty each
    refine ⟨.unite next, ?_, united, fun calls => ?_⟩
    · simp only [ClassTable.callType, List.mapM_map, Function.comp_def,
        callOn_builderMethod named]
      exact congrArg (· >>= fun types => .ok (Ty.unite types)) (List.mapM_pure (m := Except _))
    · rw [members]
      simp only [next, List.mem_map, Ty.members]
      constructor
      · rintro ⟨_, ⟨before, inside, rfl⟩, member⟩
        simp only [List.mem_singleton, Ty.builder.injEq] at member
        exact ⟨before, ⟨before, inside, rfl⟩, member⟩
      · rintro ⟨before, ⟨own, inside, same⟩, rfl⟩
        rw [Ty.builder.injEq] at same
        exact ⟨_, ⟨own, inside, rfl⟩, by simp [same]⟩
  | _ => simp [Ty.isKnownBuilder, Ty.members] at known

def textType : Option (List String) → Ty
  | some texts => .unite (texts.map .constString)
  | none => .string

theorem BuilderMethod.ofName?_congr {name other} (same : Text.sameFold name other = true) :
    ofName? name = ofName? other := by
  rw [Text.sameFold_iff] at same
  simp only [ofName?, Text.sameFold, same]

theorem callOn_getDQL (table : ClassTable) (calls : List (BuilderCall Ty))
    (asks : Text.foldCase method = "getdql") (args : List Ty) :
    table.callOn (.builder calls) method args = textType <$> queryCandidates calls := by
  have other : BuilderMethod.ofName? method = none := by
    rw [BuilderMethod.ofName?_congr (Text.sameFold_iff (b := "getdql") |>.mpr asks)]
    decide
  simp only [ClassTable.callOn, builderCallType, other, asks]
  rcases queryCandidates calls with fault | (_ | texts) <;> rfl

theorem flatMap_members_constString (texts : List String) :
    (texts.map Ty.constString).flatMap Ty.members = texts.map .constString :=
  Ty.flatMap_members (by simp [Ty.isUnion])

theorem mem_members_textType {texts} (filled : texts ≠ []) {m} :
    m ∈ (textType (some texts)).members ↔ ∃ text ∈ texts, m = .constString text := by
  rw [textType, Ty.mem_members_unite, flatMap_members_constString, List.mem_map]
  · simp only [eq_comm]
  · simpa [flatMap_members_constString] using filled
  · simp [flatMap_members_constString]
  · simp [flatMap_members_constString, Ty.isUnion]

theorem mem_texts_textType {texts? text} :
    text ∈ (textType texts?).texts ↔ ∃ texts, texts? = some texts ∧ text ∈ texts := by
  cases texts? with
  | none => simp [textType, Ty.texts]
  | some texts =>
    rw [textType, Ty.mem_texts_unite, flatMap_members_constString]
    · simp [Ty.text?]
    · simp [flatMap_members_constString, Ty.isUnion]

/-- The text of several queries together: all their texts, or none if one is not known. -/
theorem mem_texts_unite_textType {outcomes : List (Option (List String))}
    (filled : some [] ∉ outcomes) {text} :
    text ∈ (Ty.unite (outcomes.map textType)).texts ↔
      none ∉ outcomes ∧ ∃ texts, some texts ∈ outcomes ∧ text ∈ texts := by
  have members : ∀ m, m ∈ (outcomes.map textType).flatMap Ty.members ↔
      (none ∈ outcomes ∧ m = .string) ∨
        ∃ texts, some texts ∈ outcomes ∧ ∃ text ∈ texts, m = .constString text := by
    intro m
    simp only [List.mem_flatMap, List.mem_map]
    constructor
    · rintro ⟨_, ⟨_ | texts, inside, rfl⟩, member⟩
      · exact .inl ⟨inside, by simpa [textType, Ty.members] using member⟩
      · have nonempty : texts ≠ [] := fun empty => filled (empty ▸ inside)
        exact .inr ⟨texts, inside, (mem_members_textType nonempty).mp member⟩
    · rintro (⟨inside, rfl⟩ | ⟨texts, inside, member⟩)
      · exact ⟨_, ⟨none, inside, rfl⟩, by simp [textType, Ty.members]⟩
      · have nonempty : texts ≠ [] := fun empty => filled (empty ▸ inside)
        exact ⟨_, ⟨some texts, inside, rfl⟩, (mem_members_textType nonempty).mpr member⟩
  have flat : ∀ m ∈ (outcomes.map textType).flatMap Ty.members, m.isUnion = false := by
    intro m inside
    rcases (members m).mp inside with ⟨-, rfl⟩ | ⟨-, -, -, -, rfl⟩ <;> rfl
  rw [Ty.mem_texts_unite flat]
  simp only [members]
  constructor
  · rintro ⟨literal, ⟨-, other⟩ | ⟨texts, inside, own, member, same⟩⟩
    · contradiction
    · refine ⟨fun unknown => ?_, texts, inside, ?_⟩
      · simpa [Ty.text?] using literal .string (.inl ⟨unknown, rfl⟩)
      · rw [Ty.constString.injEq] at same
        exact same ▸ member
  · rintro ⟨known, texts, inside, member⟩
    refine ⟨?_, .inr ⟨texts, inside, text, member, rfl⟩⟩
    rintro m (⟨unknown, -⟩ | ⟨-, -, own, -, rfl⟩)
    · contradiction
    · rfl

theorem mapM_map_right {ε α β γ : Type} (f : α → Except ε β) (g : β → γ) (xs : List α) :
    (xs.mapM fun x => g <$> f x) = List.map g <$> xs.mapM f := by
  induction xs with
  | nil => rfl
  | cons x xs ih =>
    rw [List.mapM_cons, List.mapM_cons, ih]
    cases f x with
    | error fault => rfl
    | ok y => cases xs.mapM f <;> rfl

theorem map_eq_of_mapM_ok {ε α β : Type} {f : α → Except ε β} {xs : List α} {ys : List β}
    (found : xs.mapM f = .ok ys) : xs.map f = ys.map .ok := by
  induction xs generalizing ys with
  | nil =>
    cases found
    rfl
  | cons x xs ih =>
    rw [List.mapM_cons] at found
    cases first : f x with
    | error fault => rw [first] at found; cases found
    | ok y =>
      cases rest : xs.mapM f with
      | error fault => rw [first, rest] at found; cases found
      | ok others =>
        rw [first, rest] at found
        cases found
        rw [List.map_cons, List.map_cons, first, ih rest]

theorem mem_of_mapM_error {ε α β : Type} {f : α → Except ε β} {xs : List α} {fault : ε}
    (failed : xs.mapM f = .error fault) : ∃ x ∈ xs, f x = .error fault := by
  induction xs with
  | nil => cases failed
  | cons x xs ih =>
    rw [List.mapM_cons] at failed
    cases first : f x with
    | error other =>
      rw [first] at failed
      cases failed
      exact ⟨x, by simp, first⟩
    | ok y =>
      cases rest : xs.mapM f with
      | ok others => rw [first, rest] at failed; cases failed
      | error other =>
        rw [first, rest] at failed
        cases failed
        obtain ⟨u, inside, same⟩ := ih rest
        exact ⟨u, by simp [inside], same⟩

theorem exactTexts_getDQL (table : ClassTable) {t : Ty} (known : t.isKnownBuilder = true)
    {shapes : List (List (BuilderCall Ty))} (recorded : t.members = shapes.map .builder) :
    ExactTexts (shapes.map queryCandidates) (table.callType t "getDQL" []) := by
  cases t with
  | builder calls =>
    obtain ⟨rfl⟩ : shapes = [calls] := by
      cases shapes with
      | nil => simp [Ty.members] at recorded
      | cons shape rest => simpa [Ty.members, eq_comm] using recorded
    rw [callType_of_not_union rfl, callOn_getDQL table calls (by decide)]
    rcases found : queryCandidates calls with fault | texts?
    · exact List.mem_singleton.mpr found.symm
    · refine ⟨by simp [found], fun text => ?_⟩
      rw [mem_texts_textType]
      cases texts? <;> simp [found]
  | union ms =>
    obtain rfl : ms = shapes.map .builder := recorded
    have called : table.callType (.union (shapes.map .builder)) "getDQL" [] =
        (Ty.unite ∘ List.map textType) <$> shapes.mapM queryCandidates := by
      have folded : Text.foldCase "getDQL" = "getdql" := by decide
      simp only [ClassTable.callType, List.mapM_map, Function.comp_def, callOn_getDQL _ _ folded,
        mapM_map_right]
      cases shapes.mapM queryCandidates <;> rfl
    rw [called]
    cases found : shapes.mapM queryCandidates with
    | error fault =>
      obtain ⟨calls, inside, same⟩ := mem_of_mapM_error found
      exact List.mem_map.mpr ⟨calls, inside, same⟩
    | ok outcomes =>
      have all := map_eq_of_mapM_ok found
      have nonempty : some [] ∉ outcomes := by
        intro empty
        have inside : Except.ok (some []) ∈ shapes.map queryCandidates := by
          rw [all]
          exact List.mem_map_of_mem empty
        obtain ⟨calls, own, same⟩ := List.mem_map.mp inside
        exact queryCandidates_ne_nil same rfl
      rw [all]
      refine ⟨by simp, fun text => ?_⟩
      simpa using mem_texts_unite_textType nonempty
  | _ => simp [Ty.isKnownBuilder, Ty.members] at known

/-- A type stands for several lists of calls: its members are builders with the outlines of these
    lists, no more and no fewer. -/
structure Ty.Represents (t : Ty) (shapes : List (List (BuilderCall Ty))) : Prop where
  known : t.isKnownBuilder = true
  /-- Their calls have the outlines of the lists. -/
  outlines : ∀ outline, (∃ calls, .builder calls ∈ t.members ∧
    calls.map BuilderCall.outline = outline) ↔
      ∃ shape ∈ shapes, shape.map BuilderCall.outline = outline

namespace Ty.Represents

variable {t : Ty} {shapes : List (List (BuilderCall Ty))}

theorem builder (calls : List (BuilderCall Ty)) : (Ty.builder calls).Represents [calls] :=
  ⟨rfl, by simp [Ty.members]⟩

theorem call (represents : t.Represents shapes)
    (named : BuilderMethod.ofName? method = some builderMethod) (table : ClassTable) {args others}
    (same : args.map Literal.choices? = others.map Literal.choices?) :
    ∃ next, table.callType t method args = .ok next ∧
      next.Represents (shapes.map (· ++ [⟨builderMethod, others⟩])) := by
  obtain ⟨next, called, known, members⟩ := callType_builderMethod named table represents.known args
  refine ⟨next, called, known, fun outline => ?_⟩
  have last : BuilderCall.outline ⟨builderMethod, args⟩ =
      BuilderCall.outline ⟨builderMethod, others⟩ := by
    rw [BuilderCall.outline, BuilderCall.outline, same]
  constructor
  · rintro ⟨_, member, rfl⟩
    obtain ⟨before, inside, rfl⟩ := (members _).mp member
    obtain ⟨shape, own, alike⟩ := (represents.outlines _).mp ⟨before, inside, rfl⟩
    exact ⟨_, List.mem_map_of_mem own, by simp [alike, last]⟩
  · rintro ⟨_, member, rfl⟩
    obtain ⟨shape, own, rfl⟩ := List.mem_map.mp member
    obtain ⟨before, inside, alike⟩ := (represents.outlines _).mpr ⟨shape, own, rfl⟩
    exact ⟨_, (members _).mpr ⟨before, inside, rfl⟩, by simp [alike, last]⟩

theorem unite {other more both} (first : t.Represents shapes) (second : other.Represents more)
    (all : ∀ shape, shape ∈ both ↔ shape ∈ shapes ∨ shape ∈ more) :
    (Ty.unite [t, other]).Represents both := by
  obtain ⟨known, members⟩ := Ty.unite_two_knownBuilders first.known second.known
  refine ⟨known, fun outline => ?_⟩
  simp only [members, all, or_and_right, exists_or, first.outlines, second.outlines]

theorem getDQL (represents : t.Represents shapes) (table : ClassTable) :
    ExactTexts (shapes.map queryCandidates) (table.callType t "getDQL" []) := by
  obtain ⟨recorded, members⟩ := exists_map_builder (Ty.isKnownBuilder_iff.mp represents.known).2
  have alike : ∀ outcome, outcome ∈ recorded.map queryCandidates ↔
      outcome ∈ shapes.map queryCandidates := by
    intro outcome
    simp only [List.mem_map]
    constructor
    · rintro ⟨calls, inside, rfl⟩
      have member : Ty.builder calls ∈ t.members := members ▸ List.mem_map_of_mem inside
      obtain ⟨shape, own, same⟩ := (represents.outlines _).mp ⟨calls, member, rfl⟩
      exact ⟨shape, own, queryCandidates_congr same⟩
    · rintro ⟨shape, own, rfl⟩
      obtain ⟨calls, member, same⟩ := (represents.outlines _).mpr ⟨shape, own, rfl⟩
      rw [members, List.mem_map] at member
      obtain ⟨_, inside, ⟨⟩⟩ := member
      exact ⟨calls, inside, queryCandidates_congr same⟩
  exact (exactTexts_getDQL table represents.known members).congr alike

end Ty.Represents

namespace Ty

theorem flat_of_isMerged {t : Ty} (merged : t.isMerged = true) :
    t.members ≠ [] ∧ ∀ m ∈ t.members, m.isUnion = false := by
  simp only [isMerged, Bool.and_eq_true, List.all_eq_true, Bool.not_eq_true', beq_iff_eq] at merged
  refine ⟨fun empty => ?_, merged.1⟩
  rw [empty] at merged
  rw [← merged.2] at empty
  contradiction

theorem areBuilders_iff {ts} : areBuilders ts = true ↔ ∀ t ∈ ts, t.isBuilder = true := by
  induction ts with
  | nil => simp [areBuilders]
  | cons t ts ih => simp [areBuilders, ih]

theorem isBuilder_of_isKnownBuilder {t : Ty} (known : t.isKnownBuilder = true) :
    t.isBuilder = true := by
  obtain ⟨-, builders⟩ := isKnownBuilder_iff.mp known
  cases t with
  | builder calls => rfl
  | union ms =>
    rw [isBuilder, areBuilders_iff]
    intro m inside
    obtain ⟨calls, rfl⟩ := builders m inside
    rfl
  | _ => simp [isKnownBuilder, members] at known

theorem isKnownBuilder_of_isMerged {t : Ty} (merged : t.isMerged = true)
    (builder : t.isBuilder = true) : t.isKnownBuilder = true := by
  obtain ⟨some, flat⟩ := flat_of_isMerged merged
  refine isKnownBuilder_iff.mpr ⟨some, fun m inside => ?_⟩
  cases t with
  | builder calls => exact ⟨calls, by simpa [members] using inside⟩
  | union ms =>
    have own := areBuilders_iff.mp builder m inside
    have single := flat m inside
    cases m <;> simp_all [isBuilder, isUnion]
  | _ => simp [isBuilder] at builder

/-- Whether a variable declared with one type may have another without having been assigned: only
    the calls made on builders change. -/
def IsLike (declared t : Ty) : Prop :=
  t = declared ∨ declared.isKnownBuilder = true ∧ t.isKnownBuilder = true

theorem IsLike.choices? {declared t} (like : declared.IsLike t) :
    Literal.choices? t = Literal.choices? declared := by
  rcases like with rfl | ⟨known, still⟩
  · rfl
  · rw [choices?_of_isKnownBuilder known, choices?_of_isKnownBuilder still]

theorem IsLike.isKnownBuilder {declared t : Ty} (merged : declared.isMerged = true)
    (like : declared.IsLike t) (builder : t.isBuilder = true) :
    declared.isKnownBuilder = true ∧ t.isKnownBuilder = true := by
  rcases like with rfl | both
  · have known := isKnownBuilder_of_isMerged merged builder
    exact ⟨known, known⟩
  · exact both

theorem IsLike.unite {declared a b : Ty} (merged : declared.isMerged = true)
    (first : declared.IsLike a) (second : declared.IsLike b) :
    declared.IsLike (unite [a, b]) := by
  by_cases known : declared.isKnownBuilder = true
  · have left : a.isKnownBuilder = true := by
      rcases first with rfl | ⟨-, still⟩ <;> assumption
    have right : b.isKnownBuilder = true := by
      rcases second with rfl | ⟨-, still⟩ <;> assumption
    exact .inr ⟨known, (unite_two_knownBuilders left right).1⟩
  · have left : a = declared := first.resolve_right fun both => known both.1
    have right : b = declared := second.resolve_right fun both => known both.1
    rw [left, right]
    exact .inl (unite_self merged)

end Ty

end EntityAudit
