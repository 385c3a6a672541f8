import EntityAudit.Settings
import Mathlib.Data.List.TakeWhile

/-! # Expansion of references

A text is cut into references, from `$` and `{` to the next `}`, and single characters. Expansion
replaces each piece on its own, so texts may be expanded in parts.
-/

namespace EntityAudit.Settings

/-- A piece of a text: a character, a reference to a variable, or one that is never closed. -/
inductive Piece where
  | char (c : Char)
  | reference (name : List Char)
  | unclosed (name : List Char)

namespace Piece

def source : Piece → List Char
  | .char c => [c]
  | .reference name => '$' :: '{' :: name ++ ['}']
  | .unclosed name => '$' :: '{' :: name

def value (env : Environment) : Piece → Except ConfigurationFault (List Char)
  | .char c => .ok [c]
  | .reference name =>
    if name.isEmpty then .error .emptyReference
    else
      match env (String.ofList name) with
      | some value => .ok value.toList
      | none => .error (.unsetVariable (String.ofList name))
  | .unclosed name => .error (.openReference (String.ofList name))

/-- A character stands for itself, a reference for the value of the variable it names. -/
def HasValue (env : Environment) : Piece → Prop
  | .char _ => True
  | .reference name => name ≠ [] ∧ (env (String.ofList name)).isSome
  | .unclosed _ => False

theorem isOk_value {env} {piece : Piece} :
    (∃ value, piece.value env = .ok value) ↔ piece.HasValue env := by
  fun_cases value env piece with
  | case1 c => simp [HasValue]
  | case2 name empty => simp_all [HasValue]
  | case3 name filled value found => simp_all [HasValue]
  | case4 name filled missing => simp_all [HasValue]
  | case5 name => simp [HasValue]

end Piece

/-- The pieces of a text from left to right. -/
def pieces : List Char → List Piece
  | [] => []
  | '$' :: '{' :: rest =>
    if '}' ∈ rest then
      .reference (rest.takeWhile (· ≠ '}')) :: pieces (rest.dropWhile (· ≠ '}')).tail
    else [.unclosed rest]
  | c :: rest => .char c :: pieces rest
termination_by cs => cs.length
decreasing_by
  · have := (List.dropWhile_suffix (l := rest) (· ≠ '}')).length_le
    simp only [List.length_tail, List.length_cons]
    omega
  · simp

/-- What pieces are replaced by, one after the other. -/
def join (env : Environment) : List Piece → Except ConfigurationFault (List Char)
  | [] => .ok []
  | piece :: cut => do return (← piece.value env) ++ (← join env cut)

variable {env : Environment} {name later : List Char}

theorem join_ok {cut} : (∃ out, join env cut = .ok out) ↔ ∀ piece ∈ cut, piece.HasValue env := by
  induction cut with
  | nil => simp [join]
  | cons piece cut ih =>
    rw [List.forall_mem_cons, ← ih, ← Piece.isOk_value, join]
    cases piece.value env with
    | error fault => simp [bind, Except.bind]
    | ok value => cases join env cut <;> simp [pure, Except.pure, bind, Except.bind]

theorem join_append (front cut : List Piece) :
    join env (front ++ cut) = do return (← join env front) ++ (← join env cut) := by
  induction front with
  | nil => exact (bind_pure _).symm
  | cons piece front ih =>
    rw [List.cons_append, join, join, ih]
    cases piece.value env with
    | error fault => rfl
    | ok value =>
      cases join env front with
      | error fault => rfl
      | ok out => cases join env cut <;> simp [pure, Except.pure, bind, Except.bind]

theorem cut_at_close (inside : '}' ∉ name) :
    (name ++ '}' :: later).takeWhile (· ≠ '}') = name ∧
      ((name ++ '}' :: later).dropWhile (· ≠ '}')).tail = later := by
  have keeps : ∀ c ∈ name, decide (c ≠ '}') = true := fun c member =>
    decide_eq_true fun same => inside (same ▸ member)
  rw [List.takeWhile_append_of_pos keeps, List.dropWhile_append_of_pos keeps]
  simp

theorem pieces_reference (inside : '}' ∉ name) :
    pieces ('$' :: '{' :: (name ++ '}' :: later)) = .reference name :: pieces later := by
  rw [pieces, if_pos (by simp), (cut_at_close inside).1, (cut_at_close inside).2]

theorem pieces_unclosed (inside : '}' ∉ name) :
    pieces ('$' :: '{' :: name) = [.unclosed name] := by
  rw [pieces, if_neg inside]

theorem text_induction {motive : List Char → Prop} (nil : motive [])
    (reference : ∀ name later, '}' ∉ name → motive later →
      motive ('$' :: '{' :: (name ++ '}' :: later)))
    (unclosed : ∀ name, '}' ∉ name → motive ('$' :: '{' :: name))
    (char : ∀ c rest, (∀ later, c = '$' → rest = '{' :: later → False) → motive rest →
      motive (c :: rest)) (cs : List Char) : motive cs := by
  fun_induction pieces cs with
  | case1 => exact nil
  | case2 rest closed ih =>
    obtain ⟨name, later, rfl, inside⟩ := List.eq_append_cons_of_mem closed
    rw [(cut_at_close inside).2] at ih
    exact reference name later inside ih
  | case3 rest inside => exact unclosed rest inside
  | case4 c rest plain ih => exact char c rest plain ih

theorem source_pieces (cs : List Char) : (pieces cs).flatMap Piece.source = cs := by
  induction cs using text_induction with
  | nil => rw [pieces]; rfl
  | reference name later inside ih => simp [pieces_reference inside, Piece.source, ih]
  | unclosed name inside => simp [pieces_unclosed inside, Piece.source]
  | char c rest plain ih => simp [pieces.eq_3 _ _ plain, Piece.source, ih]

theorem expandFrom_reference (inside : '}' ∉ name) (read : List Char) :
    expandFrom env (some read) (name ++ '}' :: later) = do
      let value ← (Piece.reference (read.reverse ++ name)).value env
      return value ++ (← expandFrom env none later) := by
  induction name generalizing read with
  | nil =>
    rw [List.nil_append, List.append_nil, expandFrom]
    rw [Piece.value, List.isEmpty_reverse]
    split
    · rfl
    · cases env (String.ofList read.reverse) <;> rfl
  | cons c name ih =>
    rw [List.mem_cons, not_or] at inside
    rw [List.cons_append, expandFrom, ih inside.2, List.reverse_cons, List.append_assoc]
    · rfl
    · exact fun same => inside.1 same.symm

theorem expandFrom_unclosed (inside : '}' ∉ name) (read : List Char) :
    expandFrom env (some read) name = (Piece.unclosed (read.reverse ++ name)).value env := by
  induction name generalizing read with
  | nil => rw [List.append_nil]; rfl
  | cons c name ih =>
    rw [List.mem_cons, not_or] at inside
    rw [expandFrom, ih inside.2, List.reverse_cons, List.append_assoc]
    · rfl
    · exact fun same => inside.1 same.symm

theorem expandFrom_none (cs : List Char) : expandFrom env none cs = join env (pieces cs) := by
  induction cs using text_induction with
  | nil => rw [pieces]; rfl
  | reference name later inside ih =>
    rw [expandFrom, expandFrom_reference inside, pieces_reference inside, ih, join]
    rfl
  | unclosed name inside =>
    rw [expandFrom, expandFrom_unclosed inside, pieces_unclosed inside]
    rfl
  | char c rest plain ih =>
    rw [expandFrom.eq_3 _ _ _ plain, pieces.eq_3 _ _ plain, ih, join]
    rfl

theorem pieces_append {x y} (defined : ∀ piece ∈ pieces x, piece.HasValue env)
    (ends : ¬['$'] <:+ x) :
    pieces (x ++ y) = pieces x ++ pieces y := by
  induction x using text_induction with
  | nil => rw [pieces]; rfl
  | reference name later inside ih =>
    rw [pieces_reference inside] at defined ⊢
    have ended := ih (fun piece member => defined piece (.tail _ member))
      fun ended => ends (ended.trans ⟨'$' :: '{' :: (name ++ ['}']), by simp⟩)
    simp [pieces_reference inside, ended]
  | unclosed name inside =>
    rw [pieces_unclosed inside] at defined
    exact (defined _ (.head _)).elim
  | char c rest plain ih =>
    rw [pieces.eq_3 _ _ plain] at defined ⊢
    have still : ∀ later, c = '$' → rest ++ y = '{' :: later → False := by
      rintro later rfl same
      cases rest with
      | nil => exact ends (List.suffix_refl _)
      | cons d rest => exact plain rest rfl (by injection same with same; rw [same])
    rw [List.cons_append, pieces.eq_3 _ _ still, List.cons_append,
      ih (fun piece member => defined piece (.tail _ member))
        fun ended => ends (ended.trans (List.suffix_cons c rest))]

/-- Expansion replaces the pieces of a text, and succeeds if each of them has a value; what is
    replaced is not looked into. A text that does not end in `$` is expanded apart from what
    follows it. -/
theorem expand_pieces (env : Environment) (text : String) :
    (pieces text.toList).flatMap Piece.source = text.toList ∧
    expand env text = (join env (pieces text.toList)).map String.ofList ∧
    ((∃ out, expand env text = .ok out) ↔ ∀ piece ∈ pieces text.toList, piece.HasValue env) ∧
    ∀ front out : String, expand env front = .ok out → ¬['$'] <:+ front.toList →
      expand env (front ++ text) = (expand env text).map (out ++ ·) := by
  have replaced (text : String) :
      expand env text = (join env (pieces text.toList)).map String.ofList := by
    rw [expand, expandFrom_none]
  refine ⟨source_pieces _, replaced text, ?_, ?_⟩
  · rw [← join_ok, replaced]
    cases join env (pieces text.toList) <;> simp [Except.map]
  · intro front out expanded ends
    rw [replaced] at expanded
    cases joined : join env (pieces front.toList) with
    | error fault => rw [joined] at expanded; cases expanded
    | ok value =>
      rw [joined] at expanded
      cases expanded
      rw [replaced, String.toList_append, pieces_append (join_ok.mp ⟨_, joined⟩) ends,
        join_append, joined, replaced]
      cases join env (pieces text.toList) with
      | error fault => rfl
      | ok later => exact congrArg Except.ok String.ofList_append

end EntityAudit.Settings
