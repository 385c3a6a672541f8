import EntityAudit.Query.Token
import EntityAudit.Query.Tree

/-! # Depth of parentheses

Balance is stated by counting: no beginning of a list closes more parentheses than it opens, and the
whole closes as many. `depthAfter` follows the depth instead, and the two agree.
-/

namespace EntityAudit.Query

variable {c : Char}

/-- A parenthesis. -/
inductive Side where
  | opening
  | closing
  deriving DecidableEq

section Balance

variable {α : Type} (side? : α → Option Side)

def countSide (side : Side) (xs : List α) : Nat :=
  xs.countP (side? · == some side)

/-- Whether parentheses match, where `side?` tells which items are some. -/
def IsBalanced (xs : List α) : Prop :=
  (∀ before, before <+: xs → countSide side? .closing before ≤ countSide side? .opening before) ∧
    countSide side? .opening xs = countSide side? .closing xs

end Balance

/-- The depth after some parentheses that start at the depth `depth`; none if one closes nothing. -/
def depthAfter (depth : Nat) : List Side → Option Nat
  | [] => some depth
  | .opening :: rest => depthAfter (depth + 1) rest
  | .closing :: rest =>
    match depth with
    | 0 => none
    | depth + 1 => depthAfter depth rest

theorem depthAfter_append {xs ys d d' d''} (first : depthAfter d xs = some d')
    (second : depthAfter d' ys = some d'') : depthAfter d (xs ++ ys) = some d'' := by
  fun_induction depthAfter d xs with
  | case1 => cases first; exact second
  | case2 d rest ih => exact ih first
  | case3 => cases first
  | case4 rest d ih => exact ih first

theorem depthAfter_add {xs d d'} (deeper : Nat) (known : depthAfter d xs = some d') :
    depthAfter (d + deeper) xs = some (d' + deeper) := by
  fun_induction depthAfter d xs with
  | case1 => cases known; rfl
  | case2 d rest ih =>
    have next := ih known
    rwa [Nat.add_right_comm] at next
  | case3 => cases known
  | case4 rest d ih =>
    rw [Nat.succ_add]
    exact ih known

section Counting

variable {α : Type} {side? : α → Option Side}

theorem forall_prefix_cons {P : List α → Prop} {x xs} :
    (∀ before, before <+: x :: xs → P before) ↔
      P [] ∧ ∀ before, before <+: xs → P (x :: before) := by
  constructor
  · intro all
    exact ⟨all [] (List.nil_prefix), fun before within =>
      all _ (List.cons_prefix_cons.mpr ⟨rfl, within⟩)⟩
  · rintro ⟨start, later⟩ before within
    rcases List.prefix_cons_iff.mp within with rfl | ⟨rest, rfl, inner⟩
    · exact start
    · exact later rest inner

theorem countSide_cons (side : Side) (x : α) (xs : List α) :
    countSide side? side (x :: xs) =
      countSide side? side xs + if side? x = some side then 1 else 0 := by
  simp [countSide, List.countP_cons]

theorem depthAfter_eq_some_iff {xs d d'} :
    depthAfter d (xs.filterMap side?) = some d' ↔
      (∀ before, before <+: xs →
        countSide side? .closing before ≤ d + countSide side? .opening before) ∧
      d + countSide side? .opening xs = d' + countSide side? .closing xs := by
  induction xs generalizing d with
  | nil => simp [depthAfter, countSide]
  | cons x xs ih =>
    rw [forall_prefix_cons]
    simp only [countSide_cons]
    cases found : side? x with
    | none =>
      rw [List.filterMap_cons_none found, ih]
      simp [countSide]
    | some side =>
      rw [List.filterMap_cons_some found]
      cases side with
      | opening =>
        rw [depthAfter, ih]
        simp only [reduceCtorEq, if_false, if_true, Option.some.injEq]
        constructor
        · rintro ⟨all, total⟩
          refine ⟨⟨by simp [countSide], fun before within => ?_⟩, by omega⟩
          have := all before within
          omega
        · rintro ⟨⟨-, all⟩, total⟩
          exact ⟨fun before within => by have := all before within; omega, by omega⟩
      | closing =>
        simp only [reduceCtorEq, if_false, if_true, Option.some.injEq]
        cases d with
        | zero =>
          simp only [depthAfter, reduceCtorEq, false_iff]
          rintro ⟨⟨-, all⟩, -⟩
          have := all [] List.nil_prefix
          simp [countSide] at this
        | succ d =>
          rw [depthAfter, ih]
          constructor
          · rintro ⟨all, total⟩
            exact ⟨⟨by simp [countSide],
              fun before within => by have := all before within; omega⟩, by omega⟩
          · rintro ⟨⟨-, all⟩, total⟩
            exact ⟨fun before within => by have := all before within; omega, by omega⟩

theorem isBalanced_iff {xs} : IsBalanced side? xs ↔ depthAfter 0 (xs.filterMap side?) = some 0 := by
  rw [depthAfter_eq_some_iff]
  simp [IsBalanced]

instance (xs : List α) : Decidable (IsBalanced side? xs) :=
  decidable_of_iff _ isBalanced_iff.symm

end Counting

/-- Which parenthesis tokens of a kind are. -/
def TokenKind.side? : TokenKind → Option Side
  | .openParen => some .opening
  | .closeParen => some .closing
  | _ => none

def Token.side? (t : Token) : Option Side :=
  t.kind.side?

def Piece.side? : Piece → Option Side
  | .opening => some .opening
  | .closing => some .closing
  | _ => none

def charSide? (c : Char) : Option Side :=
  if c == '(' then some .opening else if c == ')' then some .closing else none

/-- The characters of a text that stand outside quoted literals. A quote that is never closed starts
    no literal. -/
def unquoted : List Char → List Char
  | [] => []
  | c :: cs =>
    if c == '\'' then
      match _found : quoted? cs with
      | some (_, rest) => unquoted rest
      | none => c :: unquoted cs
    else
      c :: unquoted cs
termination_by cs => cs.length
decreasing_by
  · have := (quoted?_suffix _found).length_le
    simp only [List.length_cons]
    omega
  · simp
  · simp

/-- A character that is neither a quote nor a parenthesis. -/
def IsInert (c : Char) : Prop :=
  c ≠ '\'' ∧ charSide? c = none

/-- An inert character that has no meaning of its own in SQL either. -/
def IsLexical (c : Char) : Prop :=
  IsInert c ∧ c ≠ '"' ∧ c ≠ '$'

theorem unquoted_cons {cs} (other : c ≠ '\'') : unquoted (c :: cs) = c :: unquoted cs := by
  rw [unquoted, if_neg (by simpa using other)]

theorem unquoted_quote (cs : List Char) :
    unquoted ('\'' :: cs) =
      match quoted? cs with
      | some (_, rest) => unquoted rest
      | none => '\'' :: unquoted cs := by
  rw [unquoted, if_pos (by rfl)]
  split <;> simp [*]

theorem sides_unquoted_append {inert} (all : ∀ c ∈ inert, IsInert c) (rest : List Char) :
    (unquoted (inert ++ rest)).filterMap charSide? = (unquoted rest).filterMap charSide? := by
  induction inert with
  | nil => rfl
  | cons c cs ih =>
    obtain ⟨other, no⟩ := all c (by simp)
    rw [List.cons_append, unquoted_cons other, List.filterMap_cons_none no,
      ih fun d inside => all d (by simp [inside])]

instance (c : Char) : Decidable (IsInert c) :=
  inferInstanceAs (Decidable (_ ∧ _))

instance (c : Char) : Decidable (IsLexical c) :=
  inferInstanceAs (Decidable (_ ∧ _))

theorem isLexical_of_isAlphanum (word : c.isAlphanum = true) : IsLexical c := by
  have other (d : Char) (no : d.isAlphanum = false) : c ≠ d := by
    rintro rfl
    exact absurd word (by simp [no])
  refine ⟨⟨other _ (by decide), ?_⟩, other _ (by decide), other _ (by decide)⟩
  simp [charSide?, other '(' (by decide), other ')' (by decide)]

theorem isLexical_of_isWordChar (word : isWordChar c = true) : IsLexical c := by
  simp only [isWordChar, Bool.or_eq_true, beq_iff_eq] at word
  rcases word with (alnum | rfl) | rfl
  · exact isLexical_of_isAlphanum alnum
  · decide
  · decide

theorem isLexical_of_isDigit (digit : c.isDigit = true) : IsLexical c :=
  isLexical_of_isAlphanum (by simp [Char.isAlphanum, digit])

theorem isLexical_of_takeWhile {p} (lexical : ∀ {c}, p c = true → IsLexical c) (cs : List Char) :
    ∀ c ∈ cs.takeWhile p, IsLexical c :=
  fun c inside => lexical (List.all_eq_true.mp List.all_takeWhile c inside)

theorem fraction_append (cs : List Char) :
    cs = (fraction cs).1 ++ (fraction cs).2 ∧ ∀ c ∈ (fraction cs).1, IsLexical c := by
  fun_cases fraction cs with
  | case1 d rest digit =>
    refine ⟨by simp, fun c inside => ?_⟩
    simp only [List.mem_cons] at inside
    rcases inside with rfl | rfl | later
    · decide
    · exact isLexical_of_isDigit digit
    · exact isLexical_of_takeWhile isLexical_of_isDigit _ c later
  | case2 => exact ⟨rfl, by simp⟩
  | case3 => exact ⟨rfl, by simp⟩

theorem exponentSign_append (cs : List Char) :
    cs = (exponentSign cs).1 ++ (exponentSign cs).2 ∧ ∀ c ∈ (exponentSign cs).1, IsLexical c := by
  fun_cases exponentSign cs with
  | case1 rest =>
    refine ⟨rfl, fun c inside => ?_⟩
    rw [List.mem_singleton.mp inside]
    decide
  | case2 rest =>
    refine ⟨rfl, fun c inside => ?_⟩
    rw [List.mem_singleton.mp inside]
    decide
  | case3 => exact ⟨rfl, by simp⟩

theorem exponent_append (cs : List Char) :
    cs = (exponent cs).1 ++ (exponent cs).2 ∧ ∀ c ∈ (exponent cs).1, IsLexical c := by
  fun_cases exponent cs with
  | case1 e rest letter sign digits parts none => exact ⟨rfl, by simp⟩
  | case2 e rest letter sign digits parts some =>
    obtain ⟨whole, lexical⟩ := exponentSign_append rest
    rw [parts] at whole lexical
    refine ⟨by simp [whole], fun c inside => ?_⟩
    simp only [List.cons_append, List.mem_cons, List.mem_append] at inside
    rcases inside with rfl | among | later
    · simp only [Bool.or_eq_true, beq_iff_eq] at letter
      rcases letter with rfl | rfl <;> decide
    · exact lexical c among
    · exact isLexical_of_takeWhile isLexical_of_isDigit _ c later
  | case3 => exact ⟨rfl, by simp⟩
  | case4 => exact ⟨rfl, by simp⟩

theorem side?_symbolKind (c : Char) : (symbolKind c).side? = charSide? c := by
  fun_cases symbolKind c with
  | case15 _ _ _ opening closing =>
    rw [charSide?, if_neg (by simpa using opening), if_neg (by simpa using closing)]
    rfl
  | _ => rfl

/-- A lexeme starts with `c`, which alone may be a parenthesis; lexical characters follow. -/
structure Lexeme.Starts (l : Lexeme) (c : Char) (cs : List Char) : Prop where
  side : l.kind.side? = charSide? c
  tail : ∃ tail, cs = tail ++ l.rest ∧ ∀ d ∈ tail, IsLexical d

theorem wordLexeme_starts (lexical : IsLexical c) (cs : List Char) :
    (wordLexeme c cs).Starts c cs where
  side := by
    rw [lexical.1.2, wordLexeme]
    dsimp only
    split <;> rfl
  tail := ⟨cs.takeWhile isWordChar, (List.takeWhile_append_dropWhile).symm,
    isLexical_of_takeWhile isLexical_of_isWordChar cs⟩

theorem numberLexeme_starts (lexical : IsLexical c) (cs : List Char) :
    (numberLexeme c cs).Starts c cs where
  side := by
    rw [lexical.1.2, numberLexeme]
    dsimp only
    split <;> rfl
  tail := by
    obtain ⟨frac, lexicalFrac⟩ := fraction_append (cs.dropWhile Char.isDigit)
    obtain ⟨exp, lexicalExp⟩ := exponent_append (fraction (cs.dropWhile Char.isDigit)).2
    refine ⟨cs.takeWhile Char.isDigit ++ (fraction (cs.dropWhile Char.isDigit)).1 ++
      (exponent (fraction (cs.dropWhile Char.isDigit)).2).1, ?_, fun d inside => ?_⟩
    · calc cs
        _ = cs.takeWhile Char.isDigit ++ cs.dropWhile Char.isDigit :=
            List.takeWhile_append_dropWhile.symm
        _ = cs.takeWhile Char.isDigit ++ ((fraction (cs.dropWhile Char.isDigit)).1 ++
              ((exponent (fraction (cs.dropWhile Char.isDigit)).2).1 ++
                (exponent (fraction (cs.dropWhile Char.isDigit)).2).2)) := by rw [← exp, ← frac]
        _ = _ := by rw [List.append_assoc, List.append_assoc]; rfl
    · simp only [List.mem_append] at inside
      rcases inside with (digit | among) | later
      · exact isLexical_of_takeWhile isLexical_of_isDigit cs d digit
      · exact lexicalFrac d among
      · exact lexicalExp d later

theorem symbolLexeme_starts (c : Char) (cs : List Char) : (symbolLexeme c cs).Starts c cs := by
  fun_cases symbolLexeme c cs with
  | case1 d rest pair =>
    simp only [isOperatorPair, Bool.or_eq_true, Bool.and_eq_true, beq_iff_eq] at pair
    have first : charSide? c = none := by
      rcases pair with ⟨rfl, -⟩ | ⟨rfl | rfl, -⟩ <;> rfl
    have second : IsLexical d := by
      rcases pair with ⟨-, rfl | rfl⟩ | ⟨-, rfl⟩ <;> decide
    exact ⟨first.symm, [d], rfl, by simpa using second⟩
  | case2 d rest => exact ⟨side?_symbolKind c, [], rfl, by simp⟩
  | case3 => exact ⟨side?_symbolKind c, [], rfl, by simp⟩

theorem isLexical_of_isParameterChar (char : isParameterChar c = true) : IsLexical c := by
  simp only [isParameterChar, Bool.or_eq_true, beq_iff_eq] at char
  rcases char with alnum | rfl
  · exact isLexical_of_isAlphanum alnum
  · decide

theorem colonLexeme_starts (cs : List Char) : (colonLexeme cs).Starts ':' cs := by
  fun_cases colonLexeme cs with
  | case1 d rest start =>
    have first : isParameterChar d = true := by
      simp only [isParameterStart, Bool.or_eq_true] at start
      simp only [isParameterChar, Char.isAlphanum, Bool.or_eq_true]
      exact start.imp_left .inl
    refine ⟨rfl, d :: rest.takeWhile isParameterChar, by simp, fun c inside => ?_⟩
    rcases List.mem_cons.mp inside with rfl | later
    · exact isLexical_of_isParameterChar first
    · exact isLexical_of_takeWhile isLexical_of_isParameterChar rest c later
  | case2 d rest => exact symbolLexeme_starts _ _
  | case3 => exact symbolLexeme_starts _ _

theorem isWordChar_of_isWordStart (start : isWordStart c = true) : isWordChar c = true := by
  simp only [isWordStart, Bool.or_eq_true] at start
  simp only [isWordChar, Char.isAlphanum, Bool.or_eq_true]
  exact start.imp_left (·.imp_left .inl)

theorem lexeme_starts (other : c ≠ '\'') (cs : List Char) : (lexeme c cs).Starts c cs := by
  fun_cases lexeme c cs with
  | case1 word =>
    exact wordLexeme_starts (isLexical_of_isWordChar (isWordChar_of_isWordStart word)) cs
  | case2 _ digit => exact numberLexeme_starts (isLexical_of_isDigit digit) cs
  | case3 _ _ quote => exact absurd (eq_of_beq quote) other
  | case4 _ _ quote => exact absurd (eq_of_beq quote) other
  | case5 _ _ _ colon =>
    obtain rfl := eq_of_beq colon
    exact colonLexeme_starts cs
  | case6 _ _ _ _ mark =>
    obtain rfl := eq_of_beq mark
    exact ⟨rfl, _, List.takeWhile_append_dropWhile.symm,
      isLexical_of_takeWhile isLexical_of_isDigit cs⟩
  | case7 => exact symbolLexeme_starts c cs

theorem lexeme_quote (cs : List Char) :
    lexeme '\'' cs =
      match quoted? cs with
      | some (text, rest) => ⟨.string, text, rest⟩
      | none => ⟨.unknown, ['\''], cs⟩ := rfl

theorem isInert_of_isAsciiBlank (blank : Text.isAsciiBlank c = true) : IsInert c := by
  simp only [Text.isAsciiBlank, Bool.or_eq_true, beq_iff_eq] at blank
  rcases blank with (((rfl | rfl) | rfl) | rfl) | rfl <;> decide

theorem sides_lexeme (c : Char) (cs : List Char) :
    (lexeme c cs).kind.side?.toList ++ (unquoted (lexeme c cs).rest).filterMap charSide? =
      (unquoted (c :: cs)).filterMap charSide? := by
  by_cases quote : c = '\''
  · subst quote
    rw [unquoted_quote, lexeme_quote]
    cases quoted? cs with
    | none => rfl
    | some literal => rfl
  · obtain ⟨side, inert, parts, all⟩ := lexeme_starts quote cs
    have after := sides_unquoted_append (fun d inside => (all d inside).1) (lexeme c cs).rest
    rw [← parts] at after
    rw [unquoted_cons quote, ← after, side]
    cases found : charSide? c with
    | none => rw [List.filterMap_cons_none found]; rfl
    | some side => rw [List.filterMap_cons_some found]; rfl

/-- The tokens of a text have the parentheses that stand outside its literals, in order. -/
theorem sides_scanFrom (position : Nat) (cs : List Char) :
    (Token.scanFrom position cs).filterMap Token.side? = (unquoted cs).filterMap charSide? := by
  fun_induction Token.scanFrom position cs with
  | case1 => rw [unquoted]; rfl
  | case2 position c cs blank ih =>
    obtain ⟨other, no⟩ := isInert_of_isAsciiBlank blank
    rw [ih, unquoted_cons other, List.filterMap_cons_none no]
  | case3 position c cs solid found ih =>
    rw [← sides_lexeme c cs, ← ih]
    cases side : (lexeme c cs).kind.side? with
    | none => exact List.filterMap_cons_none side
    | some side' => exact List.filterMap_cons_some side

theorem isBalanced_scan_iff (text : String) :
    IsBalanced Token.side? (Token.scan text) ↔ IsBalanced charSide? (unquoted text.toList) := by
  rw [isBalanced_iff, isBalanced_iff, Token.scan, sides_scanFrom]

end EntityAudit.Query
