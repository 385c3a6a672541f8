import EntityAudit.Builder.QueryParts
import EntityAudit.Proofs.Builder.Reading

/-! # What a condition under construction means

Each call that sets, narrows or widens a condition has a plain meaning. The text written for the
tree that such calls build, read with `AND` before `OR`, says exactly that. The texts given to the
calls are phrases: atoms joined by `AND` and `OR`, without parentheses.
-/

namespace EntityAudit

open ConditionText

variable {holds : String → Bool}

/-- A text without parentheses and connectives. -/
abbrev Atom := { text : String // isAtom text = true }

/-- Alternatives of one or more atoms each. -/
structure Phrase where
  alternatives : List (List Atom)
  filled : alternatives ≠ []
  eachFilled : ∀ atoms ∈ alternatives, atoms ≠ []

theorem mentionsConnective_joined (connective : Connective) (first second : String)
    (texts : List String) :
    Condition.mentionsConnective (connective.separator.intercalate (first :: second :: texts)) =
      true := by
  have inside : connective.separator.toList <:+:
      (Text.raiseCase (connective.separator.intercalate (first :: second :: texts))).toList := by
    have upper : connective.separator.toList.map Char.toUpper = connective.separator.toList := by
      cases connective <;> rfl
    rw [Text.raiseCase, String.toList_ofList, String.intercalate_cons_cons, String.toList_append,
      String.toList_append, List.map_append, List.map_append, upper]
    exact List.infix_append ..
  rw [Condition.mentionsConnective, Bool.or_eq_true, Text.occursIn_iff, Text.occursIn_iff]
  cases connective with
  | and => exact .inr inside
  | or => exact .inl inside

namespace Phrase

/-- The alternatives joined by `OR`, the atoms of each by `AND`. -/
def text (phrase : Phrase) : String :=
  Connective.or.separator.intercalate (phrase.alternatives.map fun atoms =>
    Connective.and.separator.intercalate (atoms.map (·.val)))

def value (holds : String → Bool) (phrase : Phrase) : Bool :=
  phrase.alternatives.any fun atoms => atoms.all fun atom => holds atom.val

theorem isSequence (phrase : Phrase) : IsSequence holds phrase.text (phrase.value holds) := by
  apply isSequence_any phrase.filled
  intro atoms inside
  exact isSequence_all (phrase.eachFilled atoms inside) fun atom _ => isOperand_atom atom.property

theorem isOperand {phrase : Phrase} (plain : Condition.mentionsConnective phrase.text = false) :
    IsOperand holds phrase.text (phrase.value holds) := by
  obtain ⟨alternatives, filled, eachFilled⟩ := phrase
  cases alternatives with
  | nil => contradiction
  | cons atoms alternatives =>
    cases alternatives with
    | cons others alternatives =>
      rw [text, List.map_cons, List.map_cons, mentionsConnective_joined] at plain
      contradiction
    | nil =>
      cases atoms with
      | nil => exact absurd rfl (eachFilled [] (by simp))
      | cons atom atoms =>
        cases atoms with
        | cons other atoms =>
          rw [text, List.map_singleton, String.intercalate_singleton, List.map_cons,
            List.map_cons, mentionsConnective_joined] at plain
          contradiction
        | nil => simpa [text, value] using isOperand_atom atom.property

def ofAtom (atom : Atom) : Phrase :=
  ⟨[[atom]], by simp, by simp⟩

end Phrase

/-- Whether all of several values hold, or one of them. -/
def Connective.combine : Connective → List Bool → Bool
  | .and, values => values.all id
  | .or, values => values.any id

theorem Connective.combine_and_map {α : Type} (items : List α) (value : α → Bool) :
    Connective.and.combine (items.map value) = items.all value :=
  List.all_map

theorem Connective.combine_or_map {α : Type} (items : List α) (value : α → Bool) :
    Connective.or.combine (items.map value) = items.any value :=
  List.any_map

theorem Connective.combine_append (connective : Connective) (before after : List Bool) :
    connective.combine (before ++ after) =
      connective.combine (connective.combine before :: after) := by
  cases connective <;> simp [combine]

namespace Condition

/-- A condition whose text comes to a value, by itself and among other parts. -/
structure Means (holds : String → Bool) (condition : Condition) (value : Bool) : Prop where
  filled : condition.isEmpty = false
  reads : IsSequence holds condition.render value
  /-- It does so next to a connective if there is none in its text. -/
  plain : mentionsConnective condition.render = false → IsOperand holds condition.render value

theorem nested_cases (part : Condition) (text : String) :
    part.nested text = "(" ++ text ++ ")" ∨
      part.nested text = text ∧ mentionsConnective text = false := by
  cases mentions : mentionsConnective text with
  | true => simp [Condition.nested, mentions]
  | false =>
    cases part with
    | text value => simp [Condition.nested, mentions]
    | compound connective parts =>
      by_cases many : parts.length > 1
      · simp [Condition.nested, many]
      · simp [Condition.nested, many, mentions]

theorem Means.nested {condition : Condition} {value} (means : condition.Means holds value) :
    IsOperand holds (condition.nested condition.render) value := by
  rcases nested_cases condition condition.render with grouped | ⟨bare, plain⟩
  · rw [grouped]
    exact means.reads.parenthesized
  · rw [bare]
    exact means.plain plain

theorem means_text (phrase : Phrase) : (text phrase.text).Means holds (phrase.value holds) :=
  ⟨rfl, phrase.isSequence, Phrase.isOperand⟩

theorem renderAll_eq_map (parts : List Condition) : renderAll parts = parts.map render := by
  induction parts with
  | nil => rfl
  | cons part parts ih => rw [renderAll, ih, List.map_cons]

theorem render_single (connective : Connective) (part : Condition) :
    (compound connective [part]).render = part.render := by
  rw [render, renderAll_eq_map]
  rfl

theorem render_joined (connective : Connective) (first second : Condition)
    (parts : List Condition) :
    (compound connective (first :: second :: parts)).render =
      connective.separator.intercalate
        ((first :: second :: parts).map fun part => part.nested part.render) := by
  rw [render, renderAll_eq_map]
  have texts : List.zipWith Condition.nested (first :: second :: parts)
      ((first :: second :: parts).map render) =
        (first :: second :: parts).map fun part => part.nested part.render := by
    rw [List.zipWith_map_right, List.zipWith_self]
  rw [← texts]
  rfl

theorem means_compound (connective : Connective) {entries : List (Condition × Bool)}
    (filled : entries ≠ []) (means : ∀ entry ∈ entries, entry.1.Means holds entry.2) :
    (compound connective (entries.map (·.1))).Means holds
      (connective.combine (entries.map (·.2))) := by
  cases entries with
  | nil => contradiction
  | cons entry entries =>
    cases entries with
    | nil =>
      have own := means entry (by simp)
      have same : connective.combine [entry.2] = entry.2 := by
        cases connective <;> simp [Connective.combine]
      rw [List.map_singleton, List.map_singleton, same]
      refine ⟨rfl, ?_, ?_⟩
      · rw [render_single]
        exact own.reads
      · rw [render_single]
        exact own.plain
    | cons other entries =>
      have operands : ∀ e ∈ entry :: other :: entries,
          IsOperand holds (e.1.nested e.1.render) e.2 :=
        fun e inside => (means e inside).nested
      refine ⟨rfl, ?_, ?_⟩
      · rw [List.map_cons, List.map_cons, render_joined, ← List.map_cons, ← List.map_cons,
          List.map_map]
        cases connective with
        | and =>
          rw [Connective.combine_and_map]
          exact isSequence_all filled operands
        | or =>
          rw [Connective.combine_or_map]
          exact isSequence_any filled fun e inside => (operands e inside).isSequence
      · intro plain
        rw [List.map_cons, List.map_cons, render_joined, List.map_cons, List.map_cons,
          mentionsConnective_joined] at plain
        contradiction

/-- A condition as calls build it: some parts under a connective. -/
def IsBuilt (holds : String → Bool) (condition : Condition) (value : Bool) : Prop :=
  ∃ (connective : Connective) (entries : List (Condition × Bool)), entries ≠ [] ∧
    (∀ entry ∈ entries, entry.1.Means holds entry.2) ∧
    condition = compound connective (entries.map (·.1)) ∧
    value = connective.combine (entries.map (·.2))

theorem IsBuilt.means {condition : Condition} {value} (built : condition.IsBuilt holds value) :
    condition.Means holds value := by
  obtain ⟨connective, entries, filled, means, rfl, rfl⟩ := built
  exact means_compound connective filled means

theorem isBuilt_ofParts (connective : Connective) (entries : List (Condition × Bool))
    (filled : entries ≠ []) (means : ∀ entry ∈ entries, entry.1.Means holds entry.2) :
    (ofParts connective (entries.map (·.1))).IsBuilt holds
      (connective.combine (entries.map (·.2))) := by
  have kept : (entries.map (·.1)).filter (!·.isEmpty) = entries.map (·.1) := by
    rw [List.filter_eq_self]
    intro part inside
    obtain ⟨entry, known, rfl⟩ := List.mem_map.mp inside
    rw [(means entry known).filled]
    rfl
  exact ⟨connective, entries, filled, means, by rw [ofParts, kept], rfl⟩

def phraseEntries (holds : String → Bool) (phrases : List Phrase) : List (Condition × Bool) :=
  phrases.map fun phrase => (text phrase.text, phrase.value holds)

theorem means_phraseEntries {phrases} :
    ∀ entry ∈ phraseEntries holds phrases, entry.1.Means holds entry.2 := by
  intro entry inside
  obtain ⟨phrase, -, rfl⟩ := List.mem_map.mp inside
  exact means_text phrase

theorem map_fst_phraseEntries (holds : String → Bool) (phrases : List Phrase) :
    (phraseEntries holds phrases).map (·.1) = phrases.map fun phrase => text phrase.text := by
  rw [phraseEntries, List.map_map]
  rfl

theorem map_snd_phraseEntries (holds : String → Bool) (phrases : List Phrase) :
    (phraseEntries holds phrases).map (·.2) = phrases.map (·.value holds) := by
  rw [phraseEntries, List.map_map]
  rfl

theorem isBuilt_phrases (connective : Connective) {phrases : List Phrase} (filled : phrases ≠ []) :
    (ofParts connective (phrases.map fun phrase => text phrase.text)).IsBuilt holds
      (connective.combine (phrases.map (·.value holds))) := by
  rw [← map_fst_phraseEntries holds, ← map_snd_phraseEntries]
  exact isBuilt_ofParts connective _ (by simpa [phraseEntries] using filled) means_phraseEntries

theorem isBuilt_extend (connective : Connective) {condition value}
    (built : condition.IsBuilt holds value) (phrases : List Phrase) :
    (extend connective (some condition) (phrases.map fun phrase => text phrase.text)).IsBuilt holds
      (connective.combine (value :: phrases.map (·.value holds))) := by
  have own := built.means
  obtain ⟨before, entries, filled, means, rfl, rfl⟩ := built
  rw [← map_fst_phraseEntries holds, ← map_snd_phraseEntries, extend]
  split
  · rename_i same
    rw [← same, ← Connective.combine_append, ← List.map_append, ← List.map_append]
    apply isBuilt_ofParts before _ (by simp [filled])
    intro entry inside
    rcases List.mem_append.mp inside with old | new
    · exact means entry old
    · exact means_phraseEntries entry new
  · refine isBuilt_ofParts connective ((_, _) :: phraseEntries holds phrases) (by simp) ?_
    intro entry inside
    rcases List.mem_cons.mp inside with rfl | new
    · exact own
    · exact means_phraseEntries entry new

end Condition

/-- A call that sets, narrows or widens a condition, with the phrases its arguments are. -/
structure ConditionCall where
  onGroups : Bool
  /-- What joins the phrases to the condition; none if they replace it. -/
  connective : Option Connective
  args : List Literal
  phrases : List Phrase
  texts : QueryParts.allTexts args = phrases.map (·.text)
  filled : phrases ≠ []

namespace ConditionCall

def ofPhrase (onGroups : Bool) (connective : Option Connective) (phrase : Phrase) : ConditionCall :=
  { onGroups, connective, args := [.text phrase.text], phrases := [phrase], texts := rfl,
    filled := by simp }

def method (call : ConditionCall) : BuilderMethod :=
  match call.onGroups, call.connective with
  | false, none => .where
  | false, some .and => .andWhere
  | false, some .or => .orWhere
  | true, none => .having
  | true, some .and => .andHaving
  | true, some .or => .orHaving

/-- What a call says, given whether the condition held before, if there was one. -/
def value (holds : String → Bool) (call : ConditionCall) (current : Option Bool) : Bool :=
  match call.connective with
  | none => call.phrases.all (·.value holds)
  | some .and => current.getD true && call.phrases.all (·.value holds)
  | some .or => current.getD false || call.phrases.any (·.value holds)

/-- Whether the condition, or the condition on groups, holds after some calls; none if no call was
    about it. -/
def meaning (holds : String → Bool) (onGroups : Bool) (calls : List ConditionCall)
    (current : Option Bool) : Option Bool :=
  calls.foldl (fun current call =>
    if call.onGroups = onGroups then some (call.value holds current) else current) current

def condition (call : ConditionCall) (current : Option Condition) : Condition :=
  match call.connective with
  | none => .ofParts .and (QueryParts.conditions call.args)
  | some connective => .extend connective current (QueryParts.conditions call.args)

theorem conditions_args (call : ConditionCall) :
    QueryParts.conditions call.args = call.phrases.map fun phrase => .text phrase.text := by
  rw [QueryParts.conditions, call.texts, List.map_map]
  rfl

theorem apply_eq (call : ConditionCall) (parts : QueryParts) :
    parts.apply call.method call.args = .ok (match call.onGroups with
      | false => { parts with filter := some (call.condition parts.filter) }
      | true => { parts with groupFilter := some (call.condition parts.groupFilter) }) := by
  obtain ⟨onGroups, connective, args, phrases, texts, filled⟩ := call
  rcases onGroups with _ | _ <;> rcases connective with _ | (_ | _) <;> rfl

/-- A call that replaces the condition combines its phrases, and one that extends it combines them with
    the condition, if there is one. -/
theorem value_eq (call : ConditionCall) (held : Option Bool) :
    call.value holds held = match call.connective with
      | none => Connective.and.combine (call.phrases.map (·.value holds))
      | some connective => connective.combine (held.toList ++ call.phrases.map (·.value holds)) := by
  obtain ⟨onGroups, connective, args, phrases, texts, filled⟩ := call
  rcases connective with _ | (_ | _)
  · exact (Connective.combine_and_map ..).symm
  · cases held with
    | none => exact (Bool.true_and _).trans (Connective.combine_and_map ..).symm
    | some before => exact congrArg (before && ·) (Connective.combine_and_map ..).symm
  · cases held with
    | none => exact (Bool.false_or _).trans (Connective.combine_or_map ..).symm
    | some before => exact congrArg (before || ·) (Connective.combine_or_map ..).symm

theorem isBuilt_condition (call : ConditionCall) {current held}
    (agree : Option.Rel (Condition.IsBuilt holds) current held) :
    (call.condition current).IsBuilt holds (call.value holds held) := by
  rw [value_eq, condition, conditions_args]
  cases call.connective with
  | none => exact Condition.isBuilt_phrases .and call.filled
  | some connective =>
    cases agree with
    | none => exact Condition.isBuilt_phrases connective call.filled
    | some built => exact Condition.isBuilt_extend connective built call.phrases

/-- Calls of conditions are all taken, change nothing but the two conditions, and make of them what they
    say. -/
theorem foldlM_apply (parts : QueryParts) (calls : List ConditionCall)
    (filter groupFilter : Option Condition) :
    ∃ filter' groupFilter',
      calls.foldlM (fun (parts : QueryParts) call => parts.apply call.method call.args)
        { parts with filter, groupFilter } =
          .ok { parts with filter := filter', groupFilter := groupFilter' } ∧
      ∀ holds held heldOnGroups, Option.Rel (Condition.IsBuilt holds) filter held →
        Option.Rel (Condition.IsBuilt holds) groupFilter heldOnGroups →
        Option.Rel (Condition.IsBuilt holds) filter' (meaning holds false calls held) ∧
        Option.Rel (Condition.IsBuilt holds) groupFilter'
          (meaning holds true calls heldOnGroups) := by
  induction calls generalizing filter groupFilter with
  | nil => exact ⟨filter, groupFilter, rfl, fun _ _ _ first second => ⟨first, second⟩⟩
  | cons call calls ih =>
    cases side : call.onGroups with
    | false =>
      obtain ⟨filter', groupFilter', run, agrees⟩ := ih (some (call.condition filter)) groupFilter
      refine ⟨filter', groupFilter', ?_, ?_⟩
      · rw [List.foldlM_cons, apply_eq, side]
        exact run
      · intro holds held heldOnGroups first second
        simp only [meaning, List.foldl_cons, side, if_true, Bool.false_eq_true, if_false]
        exact agrees holds _ _ (.some (isBuilt_condition call first)) second
    | true =>
      obtain ⟨filter', groupFilter', run, agrees⟩ := ih filter (some (call.condition groupFilter))
      refine ⟨filter', groupFilter', ?_, ?_⟩
      · rw [List.foldlM_cons, apply_eq, side]
        exact run
      · intro holds held heldOnGroups first second
        simp only [meaning, List.foldl_cons, side, if_true, Bool.true_eq_false, if_false]
        exact agrees holds _ _ first (.some (isBuilt_condition call second))

theorem value?_of_rel {condition held}
    (agree : Option.Rel (Condition.IsBuilt holds) condition held) :
    (condition.map fun condition => value? holds condition.render) = held.map some := by
  cases agree with
  | none => rfl
  | some built => exact congrArg some built.means.reads.value?_eq

/-- Calls that set, narrow or widen the conditions of a query are all taken and change nothing else.
    Whatever atoms hold, the text of each condition comes to the value that the calls say. -/
theorem value?_render_conditions (parts : QueryParts) (calls : List ConditionCall) :
    ∃ filter groupFilter,
      calls.foldlM (fun (parts : QueryParts) call => parts.apply call.method call.args)
        { parts with filter := none, groupFilter := none } =
          .ok { parts with filter, groupFilter } ∧
      ∀ holds,
        (filter.map fun condition => value? holds condition.render) =
          (meaning holds false calls none).map some ∧
        (groupFilter.map fun condition => value? holds condition.render) =
          (meaning holds true calls none).map some := by
  obtain ⟨filter, groupFilter, run, agrees⟩ := foldlM_apply parts calls none none
  refine ⟨filter, groupFilter, run, ?_⟩
  intro holds
  obtain ⟨first, second⟩ := agrees holds none none .none .none
  exact ⟨value?_of_rel first, value?_of_rel second⟩

/-- Two alternatives are narrowed and then widened. -/
theorem value?_render_conditions_regrouped :
    ∃ filter groupFilter,
      [ofPhrase false none ⟨[[⟨"e.a = 1", rfl⟩], [⟨"e.b = 2", rfl⟩]], by simp, by simp⟩,
        ofPhrase false (some .and) (.ofAtom ⟨"e.c = 3", rfl⟩),
        ofPhrase false (some .or) (.ofAtom ⟨"e.d = 4", rfl⟩)].foldlM
          (fun (parts : QueryParts) call => parts.apply call.method call.args) {} =
        .ok { filter, groupFilter } ∧
      filter.map (·.render) = some "((e.a = 1 OR e.b = 2) AND e.c = 3) OR e.d = 4" ∧
      ∀ holds, (filter.map fun condition => value? holds condition.render) =
        some (some ((holds "e.a = 1" || holds "e.b = 2") && holds "e.c = 3" ||
          holds "e.d = 4")) := by
  obtain ⟨filter, groupFilter, run, values⟩ := value?_render_conditions {}
    [ofPhrase false none ⟨[[⟨"e.a = 1", rfl⟩], [⟨"e.b = 2", rfl⟩]], by simp, by simp⟩,
      ofPhrase false (some .and) (.ofAtom ⟨"e.c = 3", rfl⟩),
      ofPhrase false (some .or) (.ofAtom ⟨"e.d = 4", rfl⟩)]
  refine ⟨filter, groupFilter, run, ?_, ?_⟩
  · have built := congrArg QueryParts.filter (Except.ok.inj run)
    dsimp only at built
    rw [← built]
    rfl
  · intro holds
    rw [(values holds).1]
    simp [meaning, ConditionCall.value, Phrase.value, ofPhrase, Phrase.ofAtom]

end ConditionCall

end EntityAudit
