import EntityAudit.Command.Arguments
import Mathlib.Data.List.Basic

/-! # Two spellings of an option

An option and its value are two arguments, or one with an equals sign in between. A value that is
itself such an argument of the same option is the exception: joined to the option, it loses what it
begins with.
-/

namespace EntityAudit

/-- An option that has a value. -/
inductive ValueOption where
  | config
  | mapping

namespace ValueOption

def word : ValueOption → String
  | .config => "--config"
  | .mapping => "--mapping"

/-- What an argument starts with that holds the value as well. -/
def mark (option : ValueOption) : List Char :=
  option.word.toList ++ ['=']

def joined (option : ValueOption) (value : String) : String :=
  String.ofList (option.mark ++ value.toList)

def give : ValueOption → ArgumentDraft → String → ArgumentDraft
  | .config => .withConfig
  | .mapping => .withMapping

end ValueOption

def isOptionWord (word : String) : Bool :=
  word == "--config" || word == "--mapping"

/-- Whether the last argument is an option that still needs its value. -/
def awaitsValue : List String → Bool
  | [] => false
  | [word] => isOptionWord word
  | word :: value :: rest =>
      if isOptionWord word then awaitsValue rest else awaitsValue (value :: rest)

theorem exists_option {word} (isOption : isOptionWord word = true) :
    ∃ option : ValueOption, word = option.word := by
  simp only [isOptionWord, Bool.or_eq_true, beq_iff_eq] at isOption
  rcases isOption with rfl | rfl
  · exact ⟨.config, rfl⟩
  · exact ⟨.mapping, rfl⟩

section
variable {mark rest : List Char}

theorem dropMarks_replicate (plain : ¬mark <+: rest) {count fuel} (enough : count ≤ fuel) :
    dropMarks mark fuel ((List.replicate count mark).flatten ++ rest) = rest := by
  induction count generalizing fuel with
  | zero =>
    cases fuel with
    | zero => rfl
    | succ fuel => exact if_neg (by simpa using plain)
  | succ count ih =>
    obtain ⟨fuel, rfl⟩ : ∃ n, fuel = n + 1 := ⟨fuel - 1, by omega⟩
    rw [List.replicate_succ, List.flatten_cons, List.append_assoc, dropMarks, if_pos (by simp),
      List.drop_left, ih (by omega)]

theorem exists_marks (filled : 0 < mark.length) (cs : List Char) :
    ∃ (count : Nat) (rest : String),
      cs = (List.replicate count mark).flatten ++ rest.toList ∧ ¬mark <+: rest.toList := by
  by_cases starts : mark <+: cs
  · obtain ⟨later, rfl⟩ := starts
    obtain ⟨count, rest, split, plain⟩ := exists_marks filled later
    exact ⟨count + 1, rest, by rw [split]; simp [List.replicate_succ], plain⟩
  · exact ⟨0, .ofList cs, by simp, by simpa using starts⟩
termination_by cs.length
decreasing_by
  subst cs
  simpa using filled

end

variable {option : ValueOption} {value rest : String} {command : CommandWord}
  {draft : ArgumentDraft}

theorem valueOf?_joined {count}
    (marks : value.toList = (List.replicate count option.mark).flatten ++ rest.toList)
    (plain : ¬option.mark <+: rest.toList) :
    valueOf? option.word (option.joined value) = some rest := by
  have filled : 0 < option.mark.length := by simp [ValueOption.mark]
  have again : option.mark ++ value.toList =
      (List.replicate (count + 1) option.mark).flatten ++ rest.toList := by
    rw [marks, List.replicate_succ, List.flatten_cons, List.append_assoc]
  have enough : count + 1 ≤ (option.mark ++ value.toList).length := by
    rw [again, List.length_append, List.length_flatten, List.map_replicate, List.sum_replicate_nat]
    exact Nat.le_add_right_of_le (Nat.le_mul_of_pos_right _ filled)
  rw [valueOf?, ← ValueOption.mark, ValueOption.joined, String.toList_ofList,
    if_pos (List.isPrefixOf_iff_prefix.mpr (List.prefix_append _ _)), again,
    dropMarks_replicate plain (again ▸ enough), String.ofList_toList]

namespace ArgumentDraft

/-- Go on with the draft that some arguments led to, unless they ask for help. -/
def andThen (read : Except UsageFault (HelpTopic ⊕ ArgumentDraft))
    (next : ArgumentDraft → Except UsageFault (HelpTopic ⊕ ArgumentDraft)) :
    Except UsageFault (HelpTopic ⊕ ArgumentDraft) :=
  read.bind fun found => found.elim (.ok <| .inl ·) next

theorem andThen_assoc (read : Except UsageFault (HelpTopic ⊕ ArgumentDraft))
    (next last : ArgumentDraft → Except UsageFault (HelpTopic ⊕ ArgumentDraft)) :
    andThen (andThen read next) last = andThen read fun draft => andThen (next draft) last := by
  rcases read with _ | _ | _ <;> rfl

/-- What an argument does that is no option with its value after it. -/
def takeWord (command : CommandWord) (draft : ArgumentDraft) (word : String) :
    Except UsageFault (HelpTopic ⊕ ArgumentDraft) :=
  match valueOf? "--config" word, valueOf? "--mapping" word with
  | some path, _ => .ok (.inr (draft.withConfig path))
  | none, some path => .ok (.inr (draft.withMapping path))
  | none, none =>
    if word == "-h" || word == "--help" then .ok (.inl (draft.helpTopic command))
    else .inr <$> draft.addWord command word

theorem read_option (value : String) (rest : List String) :
    draft.read command (option.word :: value :: rest) =
      (option.give draft value).read command rest := by
  cases option <;> rfl

theorem read_other {word} (other : isOptionWord word = false) (rest : List String) :
    draft.read command (word :: rest) =
      andThen (draft.takeWord command word) fun draft => draft.read command rest := by
  simp only [isOptionWord, Bool.or_eq_false_iff, beq_eq_false_iff_ne] at other
  rw [read.eq_6 _ _ _ _ (by simp [other]) (by simp [other]) (by simp [other]) (by simp [other]),
    takeWord]
  cases valueOf? "--config" word with
  | some path => rfl
  | none =>
    cases valueOf? "--mapping" word with
    | some path => rfl
    | none =>
      by_cases help : (word == "-h" || word == "--help") = true
      · simp only [if_pos help]
        rfl
      · simp only [if_neg help]
        cases draft.addWord command word <;> rfl

/-- What stands before an option is read first, if the option is not its last value. -/
theorem read_append {front} (settled : awaitsValue front = false) (back : List String) :
    draft.read command (front ++ back) =
      andThen (draft.read command front) fun draft => draft.read command back := by
  fun_induction awaitsValue front generalizing draft with
  | case1 => rfl
  | case2 word =>
    rw [List.singleton_append, read_other settled, read_other settled, andThen_assoc]
    rfl
  | case3 word value rest isOption ih =>
    obtain ⟨option, rfl⟩ := exists_option isOption
    rw [List.cons_append, List.cons_append, read_option, read_option, ih settled]
  | case4 word value rest other ih =>
    have plain := Bool.eq_false_iff.mpr other
    rw [List.cons_append, read_other plain, read_other plain, andThen_assoc]
    exact congrArg _ (funext fun draft => ih settled)

theorem takeWord_joined (valued : valueOf? option.word (option.joined value) = some rest) :
    draft.takeWord command (option.joined value) = .ok (.inr (option.give draft rest)) := by
  cases option with
  | config => rw [takeWord, ← ValueOption.word.eq_1, valued]; rfl
  | mapping =>
    have other : valueOf? "--config" (ValueOption.mapping.joined value) = none := by
      simp only [valueOf?, ValueOption.joined, String.toList_ofList]
      rfl
    rw [takeWord, ← ValueOption.word.eq_2, valued, other]; rfl

theorem isOptionWord_joined : isOptionWord (option.joined value) = false := by
  have differs (other : ValueOption) : option.joined value ≠ other.word := by
    intro same
    have same := congrArg String.toList same
    rw [ValueOption.joined, String.toList_ofList] at same
    cases option <;> cases other <;> simp [ValueOption.mark, ValueOption.word] at same
  simp only [isOptionWord, Bool.or_eq_false_iff, beq_eq_false_iff_ne]
  exact ⟨differs .config, differs .mapping⟩

theorem read_joined (valued : valueOf? option.word (option.joined value) = some rest)
    (back : List String) : draft.read command (option.joined value :: back) =
      draft.read command (option.word :: rest :: back) := by
  rw [read_other isOptionWord_joined, takeWord_joined valued, read_option]
  rfl

end ArgumentDraft

namespace Command

theorem ofArguments_congr {word front back later} (settled : awaitsValue front = false)
    (same : ∀ (command : CommandWord) (draft : ArgumentDraft),
      draft.read command back = draft.read command later) :
    ofArguments (word :: (front ++ back)) = ofArguments (word :: (front ++ later)) := by
  have alike (command : CommandWord) :
      ofWord command (front ++ back) = ofWord command (front ++ later) := by
    simp only [ofWord, ArgumentDraft.read_append settled, same]
  simp only [ofArguments, alike]

/-- The value of a joined spelling is what is left of it without the beginnings it repeats. It is
    the value of the other spelling for all arguments around it just if it has none. -/
theorem ofArguments_joined (option : ValueOption) (value : String) :
    ∃ (count : Nat) (rest : String),
      value.toList = (List.replicate count option.mark).flatten ++ rest.toList ∧
      ¬option.mark <+: rest.toList ∧
      (∀ (word : String) (front back : List String), awaitsValue front = false →
        ofArguments (word :: (front ++ option.joined value :: back)) =
          ofArguments (word :: (front ++ option.word :: rest :: back))) ∧
      ((∀ (word : String) (front back : List String), awaitsValue front = false →
        ofArguments (word :: (front ++ option.joined value :: back)) =
          ofArguments (word :: (front ++ option.word :: value :: back))) ↔ count = 0) := by
  have filled : 0 < option.mark.length := by simp [ValueOption.mark]
  obtain ⟨count, rest, marks, plain⟩ := exists_marks filled value.toList
  have joined (word : String) (front back : List String) (settled : awaitsValue front = false) :
      ofArguments (word :: (front ++ option.joined value :: back)) =
        ofArguments (word :: (front ++ option.word :: rest :: back)) :=
    ofArguments_congr settled fun _ _ =>
      ArgumentDraft.read_joined (valueOf?_joined marks plain) back
  refine ⟨count, rest, marks, plain, joined, fun agree => ?_, fun none => ?_⟩
  · have same := (agree "dql" ["check"] [] rfl).symm.trans (joined "dql" ["check"] [] rfl)
    have whole : value = rest := by
      cases option with
      | config =>
        injection same with same
        injection same with options
        exact congrArg CommandOptions.config options
      | mapping =>
        injection same with same
        injection same with options
        exact Option.some.inj (congrArg CommandOptions.mapping options)
    rcases count with _ | count
    · rfl
    · refine absurd ?_ plain
      rw [← whole, marks, List.replicate_succ, List.flatten_cons, List.append_assoc]
      exact List.prefix_append _ _
  · subst none
    have whole : value = rest := String.toList_inj.mp marks
    rw [← whole] at joined
    exact joined

/-- An option's value that is such an argument itself. -/
theorem ofArguments_twice_joined :
    ofArguments ["dql", "check", "--config=--config=x"] ≠
      ofArguments ["dql", "check", "--config", "--config=x"] := by
  decide

end Command

end EntityAudit
