import EntityAudit.Query.Token
import Mathlib.Data.List.Forall2

/-! # The case of reserved words

When two lists of tokens are the same but for the case of reserved words. The case counts after a
point, where a word is a property, and between curly brackets, where it is a field.
-/

namespace EntityAudit.Text

theorem raiseCase_congr {a b} (same : foldCase a = foldCase b) : raiseCase a = raiseCase b := by
  rw [← raiseCase_foldCase a, same, raiseCase_foldCase]

end EntityAudit.Text

namespace EntityAudit.Query

/-- The words are the same, or one reserved word in two cases. -/
def WordAlike (a b : String) : Prop :=
  a = b ∨ isReserved a = true ∧ Text.foldCase a = Text.foldCase b

namespace WordAlike

variable {a b : String}

theorem foldCase_eq (alike : WordAlike a b) : Text.foldCase a = Text.foldCase b := by
  rcases alike with rfl | ⟨-, same⟩
  · rfl
  · exact same

theorem isReserved_eq (alike : WordAlike a b) : isReserved a = isReserved b := by
  rw [isReserved, isReserved, Text.raiseCase_congr alike.foldCase_eq]

theorem eq_of_not_isReserved (alike : WordAlike a b) (free : isReserved a = false) : a = b := by
  rcases alike with same | ⟨reserved, -⟩
  · exact same
  · rw [free] at reserved
    cases reserved

end WordAlike

namespace Token

/-- Two tokens with the same role: their texts are the same, or one reserved word in two cases. -/
structure Alike (t t' : Token) : Prop where
  kind : t.kind = t'.kind
  value : WordAlike t.value t'.value
  literal : t.kind ≠ .identifier → t.value = t'.value

/-- Two tokens that may differ only in where they stand. -/
structure Same (t t' : Token) : Prop where
  kind : t.kind = t'.kind
  value : t.value = t'.value

theorem values_eq {ts ts'} (same : List.Forall₂ Same ts ts') :
    ts.map (·.value) = ts'.map (·.value) := by
  induction same with
  | nil => rfl
  | cons here _ ih => rw [List.map_cons, List.map_cons, here.value, ih]

namespace Alike

variable {t t' : Token}

variable (alike : t.Alike t')

include alike

theorem raiseCase_eq : Text.raiseCase t.value = Text.raiseCase t'.value :=
  Text.raiseCase_congr alike.value.foldCase_eq

theorem isWord_eq (word : String) : t.isWord word = t'.isWord word := by
  rw [isWord, isWord, alike.kind, alike.raiseCase_eq]

theorem isAlias_eq : t.isAlias = t'.isAlias := by
  rw [isAlias, isAlias, alike.kind, alike.value.isReserved_eq]

theorem isName_eq : t.isName = t'.isName := by
  rw [isName, isName, alike.kind]

theorem same_of_isAlias (named : t.isAlias = true) : t.Same t' := by
  simp only [isAlias, Bool.and_eq_true, Bool.not_eq_true'] at named
  exact ⟨alike.kind, alike.value.eq_of_not_isReserved named.2⟩

end Alike

def isBrace (t : Token) : Bool :=
  t.kind == .openCurly || t.kind == .closeCurly

/-- Whether the last curly bracket before a place is an opening one; what stands nearest comes
    first. -/
def opensBrace (before : List Token) : Bool :=
  (before.find? isBrace).any (·.kind == .openCurly)

/-- Whether the next curly bracket is a closing one. -/
def closesBrace (after : List Token) : Bool :=
  (after.find? isBrace).any (·.kind == .closeCurly)

/-- Whether a token is a reserved word, neither after a point nor between curly brackets. -/
def isFreeWord (before : List Token) (t : Token) (after : List Token) : Bool :=
  t.kind == .identifier && isReserved t.value && !before.head?.any (·.kind == .dot) &&
    !(opensBrace before && closesBrace after)

/-- Whether two lists of tokens, after `before` in reverse, are the same but for where the tokens
    stand and for the case of free words. -/
def alikeFrom (before : List Token) : List Token → List Token → Bool
  | [], [] => true
  | t :: rest, t' :: rest' =>
    t.kind == t'.kind &&
      (t.value == t'.value || isFreeWord before t rest && Text.sameFold t.value t'.value) &&
      alikeFrom (t :: before) rest rest'
  | _, _ => false

/-- What it takes for a token to be like another one, given its surroundings. -/
structure AlikeAt (before : List Token) (t : Token) (after : List Token) (t' : Token) : Prop where
  alike : t.Alike t'
  fixed : isFreeWord before t after = false → t.value = t'.value

theorem alikeFrom_cons {before rest rest' t t'} :
    alikeFrom before (t :: rest) (t' :: rest') = true ↔
      AlikeAt before t rest t' ∧ alikeFrom (t :: before) rest rest' = true := by
  have here : (t.kind == t'.kind &&
      (t.value == t'.value || isFreeWord before t rest && Text.sameFold t.value t'.value)) =
        true ↔ AlikeAt before t rest t' := by
    simp only [Bool.and_eq_true, beq_iff_eq, Bool.or_eq_true, Text.sameFold_iff]
    constructor
    · rintro ⟨kind, same | ⟨free, folded⟩⟩
      · exact ⟨⟨kind, .inl same, fun _ => same⟩, fun _ => same⟩
      · have word := free
        simp only [isFreeWord, Bool.and_eq_true, beq_iff_eq] at word
        refine ⟨⟨kind, .inr ⟨word.1.1.2, folded⟩, fun other => absurd word.1.1.1 other⟩, ?_⟩
        intro fixed
        rw [free] at fixed
        cases fixed
    · rintro ⟨⟨kind, value, -⟩, fixed⟩
      refine ⟨kind, ?_⟩
      cases free : isFreeWord before t rest with
      | false => exact .inl (fixed free)
      | true => exact .inr ⟨rfl, value.foldCase_eq⟩
  rw [alikeFrom, Bool.and_eq_true, here]

theorem AlikeAt.same_of_dot {before after t t' point} (at_ : AlikeAt (point :: before) t after t')
    (dotted : point.kind = .dot) : t.Same t' := by
  refine ⟨at_.alike.kind, at_.fixed ?_⟩
  simp [isFreeWord, dotted]

theorem AlikeAt.same_of_braces {before after t t'} (at_ : AlikeAt before t after t')
    (opens : opensBrace before = true) (closes : closesBrace after = true) : t.Same t' := by
  refine ⟨at_.alike.kind, at_.fixed ?_⟩
  simp [isFreeWord, opens, closes]

theorem length_of_alikeFrom {before ts ts'} (alike : alikeFrom before ts ts' = true) :
    ts.length = ts'.length := by
  induction ts generalizing before ts' with
  | nil =>
    cases ts' with
    | nil => rfl
    | cons => cases alike
  | cons t rest ih =>
    cases ts' with
    | nil => cases alike
    | cons t' rest' =>
      rw [List.length_cons, List.length_cons, ih (alikeFrom_cons.mp alike).2]

end Token

end EntityAudit.Query
