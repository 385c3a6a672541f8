import EntityAudit.Builder.Condition
import EntityAudit.Text.Blank

/-! # Reading a condition

The text of a condition is a truth function of its atoms. A text that is read to one value whatever
stands before it is an operand (`IsOperand`); one that is read to a value only behind a parenthesis,
an `OR` or nothing is a sequence (`IsSequence`). Operands joined by `AND` are a sequence, sequences
joined by `OR` are one, and a sequence in parentheses is an operand.
-/

namespace EntityAudit.ConditionText

def isBorder (c : Char) : Bool :=
  Text.isAsciiBlank c || c == '(' || c == ')'

/-- The first word of a text, and the others with the character before each. Words may be empty. -/
def words : List Char → List Char × List (Char × List Char)
  | [] => ([], [])
  | c :: cs =>
    if isBorder c then ([], (c, (words cs).1) :: (words cs).2)
    else (c :: (words cs).1, (words cs).2)

/-- The words of a text with the character before each, the first as if after a blank. -/
def marks (text : String) : List (Char × List Char) :=
  (' ', (words text.toList).1) :: (words text.toList).2

/-- The connective that a word stands for, in any ASCII case. -/
def connective? (word : List Char) : Option Connective :=
  if word.map Char.toUpper = ['A', 'N', 'D'] then some .and
  else if word.map Char.toUpper = ['O', 'R'] then some .or
  else none

/-- Whether a word is no connective and comes after a blank. -/
def isPlain (mark : Char × List Char) : Bool :=
  Text.isAsciiBlank mark.1 && (connective? mark.2).isNone

/-- Whether a text has no parentheses and no connective among its words. -/
def isAtom (text : String) : Bool :=
  (marks text).all isPlain

theorem words_append {border} (ends : isBorder border = true) (before after : List Char) :
    words (before ++ border :: after) =
      ((words before).1, (words before).2 ++ (border, (words after).1) :: (words after).2) := by
  induction before with
  | nil => simp [words, ends]
  | cons c cs ih =>
    rw [List.cons_append, words, words, ih]
    split <;> rfl

theorem flatten_words (cs : List Char) :
    (words cs).1 ++ (words cs).2.flatMap (fun mark => mark.1 :: mark.2) = cs := by
  induction cs with
  | nil => rfl
  | cons c cs ih =>
    rw [words]
    split
    · simp [ih]
    · rw [List.cons_append, ih]

/-- What is read of a text at one level of parentheses: whether an alternative before the last `OR`
    holds, and whether all operands after it do. -/
structure Level where
  done : Bool := false
  run : Bool := true

def Level.close (level : Level) (value : Bool) : Bool :=
  level.done || (level.run && value)

def Level.link (level : Level) (value : Bool) : Connective → Level
  | .and => { level with run := level.run && value }
  | .or => { done := level.close value }

theorem Level.close_link_and (level : Level) (value last : Bool) :
    (level.link value .and).close last = level.close (value && last) := by
  simp only [link, close, Bool.and_assoc]

theorem Level.close_link_or {level inner : Level} (begins : level.run = true) {value read}
    (closed : inner.close read = level.close value) (last : Bool) :
    (inner.link read .or).close last = level.close (value || last) := by
  rw [link, closed]
  simp only [close, begins, Bool.true_and, Bool.or_assoc]

/-- What stands between connectives. -/
inductive Operand where
  | missing
  | atom (text : List Char)
  | group (value : Bool)

def Operand.value? (holds : String → Bool) : Operand → Option Bool
  | .missing => none
  | .atom text => some (holds (String.ofList text))
  | .group value => some value

/-- A text read up to some point. -/
structure Reading where
  outer : List Level := []
  level : Level := {}
  operand : Operand := .missing

namespace Reading

def link? (holds : String → Bool) (reading : Reading) (connective : Connective) : Option Reading :=
  (reading.operand.value? holds).map fun value =>
    { reading with level := reading.level.link value connective, operand := .missing }

def word? (holds : String → Bool) (reading : Reading) (blank : Char) (word : List Char) :
    Option Reading :=
  match connective? word, reading.operand with
  | some connective, _ => reading.link? holds connective
  | none, .missing => some { reading with operand := .atom word }
  | none, .atom text => some { reading with operand := .atom (text ++ blank :: word) }
  | none, .group _ => if word.isEmpty then some reading else none

def close? (holds : String → Bool) (reading : Reading) : Option Reading :=
  match reading.operand.value? holds, reading.outer with
  | some value, level :: outer =>
    some { outer, level, operand := .group (reading.level.close value) }
  | _, _ => none

def next? (holds : String → Bool) (reading : Reading) (mark : Char × List Char) : Option Reading :=
  if mark.1 = '(' then
    match reading.operand with
    | .missing | .atom [] => word? holds { outer := reading.level :: reading.outer } ' ' mark.2
    | _ => none
  else if mark.1 = ')' then
    if mark.2.isEmpty then reading.close? holds else none
  else reading.word? holds mark.1 mark.2

def resume? (holds : String → Bool) (reading : Reading) (text : String) : Option Reading :=
  (marks text).foldlM (next? holds) reading

end Reading

open Reading

def value? (holds : String → Bool) (text : String) : Option Bool := do
  let reading ← resume? holds {} text
  if reading.outer.isEmpty then
    return reading.level.close (← reading.operand.value? holds)
  else none

variable {holds : String → Bool}

theorem resume?_link (reading : Reading) (connective : Connective) (before after : String) :
    resume? holds reading (before ++ connective.separator ++ after) =
      resume? holds reading before >>= fun first =>
        first.link? holds connective >>= fun second => resume? holds second after := by
  obtain ⟨word, spelled, plain, known⟩ : ∃ word, connective.separator.toList = ' ' :: word ++ [' '] ∧
      words word = (word, []) ∧ connective? word = some connective := by
    cases connective with
    | and => exact ⟨['A', 'N', 'D'], rfl, rfl, rfl⟩
    | or => exact ⟨['O', 'R'], rfl, rfl, rfl⟩
  have cut : marks (before ++ connective.separator ++ after) =
      marks before ++ (' ', word) :: marks after := by
    rw [marks, String.toList_append, String.toList_append, spelled, List.append_assoc,
      List.cons_append, List.cons_append, words_append rfl, List.append_assoc,
      List.singleton_append, words_append rfl, plain]
    rfl
  have linked : ∀ first, ((' ', word) :: marks after).foldlM (next? holds) first =
      first.link? holds connective >>= fun second => resume? holds second after := by
    intro first
    have links : next? holds first (' ', word) = first.link? holds connective := by
      change first.word? holds ' ' word = _
      rw [word?, known]
    rw [List.foldlM_cons, links]
    rfl
  rw [resume?, cut, List.foldlM_append]
  simp only [linked]
  rfl

theorem resume?_group {reading} (awaits : reading.operand = .missing) (text : String) :
    resume? holds reading ("(" ++ text ++ ")") =
      resume? holds { outer := reading.level :: reading.outer } text >>= close? holds := by
  have cut : marks ("(" ++ text ++ ")") =
      (' ', []) :: ('(', (words text.toList).1) :: ((words text.toList).2 ++ [(')', [])]) := by
    rw [marks, String.toList_append, String.toList_append, List.append_assoc]
    change (' ', (words ([] ++ '(' :: (text.toList ++ [')']))).1) ::
      (words ([] ++ '(' :: (text.toList ++ [')']))).2 = _
    rw [words_append rfl, words_append rfl]
    rfl
  have started : next? holds reading (' ', []) = pure { reading with operand := .atom [] } := by
    change reading.word? holds ' ' [] = _
    rw [word?, awaits]
    rfl
  have closed : ∀ inner, [(')', [])].foldlM (next? holds) inner = inner.close? holds := by
    intro inner
    rw [List.foldlM_cons]
    exact bind_pure _
  have opened : ∀ word, next? holds { reading with operand := .atom [] } ('(', word) =
      next? holds { outer := reading.level :: reading.outer } (' ', word) := fun word => rfl
  rw [resume?, cut, List.foldlM_cons, started, pure_bind, List.foldlM_cons, opened, resume?, marks,
    List.foldlM_cons, bind_assoc]
  simp [closed]

theorem next?_plain {mark} (plain : isPlain mark = true) (reading : Reading) (start : List Char) :
    next? holds { reading with operand := .atom start } mark =
      some { reading with operand := .atom (start ++ mark.1 :: mark.2) } := by
  rw [isPlain, Bool.and_eq_true, Option.isNone_iff_eq_none] at plain
  obtain ⟨blank, other⟩ := plain
  have opens : mark.1 ≠ '(' := by
    intro same
    rw [same] at blank
    cases blank
  have closes : mark.1 ≠ ')' := by
    intro same
    rw [same] at blank
    cases blank
  rw [next?, if_neg opens, if_neg closes, word?, other]

theorem foldlM_next?_plain {later : List (Char × List Char)} (plain : later.all isPlain = true)
    (reading : Reading) (start : List Char) :
    later.foldlM (next? holds) { reading with operand := .atom start } =
      some { reading with
        operand := .atom (start ++ later.flatMap fun mark => mark.1 :: mark.2) } := by
  induction later generalizing start with
  | nil => simp
  | cons mark later ih =>
    rw [List.all_cons, Bool.and_eq_true] at plain
    rw [List.foldlM_cons, next?_plain plain.1]
    refine (ih plain.2 (start ++ mark.1 :: mark.2)).trans ?_
    rw [List.append_assoc, List.flatMap_cons]

theorem resume?_atom {reading} (awaits : reading.operand = .missing) {text}
    (atom : isAtom text = true) :
    resume? holds reading text = some { reading with operand := .atom text.toList } := by
  rw [isAtom, marks, List.all_cons, Bool.and_eq_true, isPlain, Bool.and_eq_true,
    Option.isNone_iff_eq_none] at atom
  obtain ⟨⟨-, other⟩, later⟩ := atom
  have first : next? holds reading (' ', (words text.toList).1) =
      some { reading with operand := .atom (words text.toList).1 } := by
    change reading.word? holds ' ' _ = _
    rw [word?, other, awaits]
  rw [resume?, marks, List.foldlM_cons, first]
  exact (foldlM_next?_plain later reading _).trans (by rw [flatten_words])

/-- Whether a text comes to `value` wherever an operand is awaited. -/
def IsOperand (holds : String → Bool) (text : String) (value : Bool) : Prop :=
  ∀ reading : Reading, reading.operand = .missing →
    ∃ operand, operand.value? holds = some value ∧
      resume? holds reading text = some { reading with operand }

/-- Whether a text comes to `value` wherever an alternative begins. -/
def IsSequence (holds : String → Bool) (text : String) (value : Bool) : Prop :=
  ∀ reading : Reading, reading.operand = .missing → reading.level.run = true →
    ∃ level operand last, operand.value? holds = some last ∧
      level.close last = reading.level.close value ∧
      resume? holds reading text = some { reading with level, operand }

theorem isOperand_atom {text} (atom : isAtom text = true) : IsOperand holds text (holds text) := by
  intro reading awaits
  refine ⟨.atom text.toList, ?_, resume?_atom awaits atom⟩
  rw [Operand.value?, String.ofList_toList]

theorem IsOperand.isSequence {text value} (operand : IsOperand holds text value) :
    IsSequence holds text value := by
  intro reading awaits _
  obtain ⟨last, known, resumed⟩ := operand reading awaits
  exact ⟨reading.level, last, value, known, rfl, resumed⟩

theorem IsSequence.parenthesized {text value} (sequence : IsSequence holds text value) :
    IsOperand holds ("(" ++ text ++ ")") value := by
  intro reading awaits
  obtain ⟨level, operand, last, known, closed, resumed⟩ :=
    sequence { outer := reading.level :: reading.outer } rfl rfl
  refine ⟨.group value, rfl, ?_⟩
  have whole : level.close last = value := by
    rw [closed]
    rfl
  rw [resume?_group awaits, resumed, Option.bind_eq_bind, Option.bind_some, close?, known]
  dsimp only
  rw [whole]

theorem IsSequence.value?_eq {text value} (sequence : IsSequence holds text value) :
    value? holds text = some value := by
  obtain ⟨level, operand, last, known, closed, resumed⟩ := sequence {} rfl rfl
  have whole : level.close last = value := by
    rw [closed]
    rfl
  rw [value?, resumed]
  simp [known, whole]

variable {α : Type} {items : List α} {text : α → String} {value : α → Bool}

theorem isSequence_all (filled : items ≠ [])
    (operands : ∀ item ∈ items, IsOperand holds (text item) (value item)) :
    IsSequence holds (Connective.and.separator.intercalate (items.map text)) (items.all value) := by
  -- The operands before may or may not hold: each one leaves the level with its value.
  suffices joined : ∀ reading : Reading, reading.operand = .missing →
      ∃ level operand last, operand.value? holds = some last ∧
        level.close last = reading.level.close (items.all value) ∧
        resume? holds reading (Connective.and.separator.intercalate (items.map text)) =
          some { reading with level, operand } from
    fun reading awaits _ => joined reading awaits
  induction items with
  | nil => contradiction
  | cons item items ih =>
    intro reading awaits
    obtain ⟨operand, known, resumed⟩ := operands item (by simp) reading awaits
    cases items with
    | nil => exact ⟨reading.level, operand, value item, known, by simp, by simpa using resumed⟩
    | cons other items =>
      obtain ⟨level, last, lastValue, lastKnown, closed, rest⟩ :=
        ih (by simp) (fun i inside => operands i (by simp [inside]))
          { reading with level := reading.level.link (value item) .and, operand := .missing } rfl
      refine ⟨level, last, lastValue, lastKnown, ?_, ?_⟩
      · exact closed.trans (Level.close_link_and ..)
      · rw [List.map_cons, List.map_cons, String.intercalate_cons_cons, resume?_link, resumed,
          Option.bind_eq_bind, Option.bind_some, link?, known]
        exact rest

theorem isSequence_any (filled : items ≠ [])
    (sequences : ∀ item ∈ items, IsSequence holds (text item) (value item)) :
    IsSequence holds (Connective.or.separator.intercalate (items.map text)) (items.any value) := by
  induction items with
  | nil => contradiction
  | cons item items ih =>
    intro reading awaits begins
    obtain ⟨level, operand, last, known, closed, resumed⟩ :=
      sequences item (by simp) reading awaits begins
    cases items with
    | nil => exact ⟨level, operand, last, known, by simpa using closed, by simpa using resumed⟩
    | cons other items =>
      obtain ⟨later, final, finalValue, finalKnown, finalClosed, rest⟩ :=
        ih (by simp) (fun i inside => sequences i (by simp [inside]))
          { reading with level := level.link last .or, operand := .missing } rfl rfl
      refine ⟨later, final, finalValue, finalKnown, ?_, ?_⟩
      · exact finalClosed.trans (Level.close_link_or begins closed _)
      · rw [List.map_cons, List.map_cons, String.intercalate_cons_cons, resume?_link, resumed,
          Option.bind_eq_bind, Option.bind_some, link?, known]
        exact rest

example : value? (fun atom => atom == "e.a = 1") "e.a = 1 OR e.b = 2 and e.c = 3" = some true := by
  decide

example : value? (fun atom => atom == "e.a = 1") "(e.a = 1 OR e.b = 2) AND e.c = 3" = some false := by
  decide

end EntityAudit.ConditionText
