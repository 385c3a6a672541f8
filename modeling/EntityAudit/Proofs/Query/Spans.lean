import EntityAudit.Proofs.Query.Depth

/-! # Where tokens stand in a text

The characters that a token was read from stand in the text at the byte it says, and what stands
between two tokens is blank. `Tiles` states this for a whole list of tokens.
-/

namespace EntityAudit.Query

theorem byteSize_append (cs ds : List Char) : byteSize (cs ++ ds) = byteSize cs + byteSize ds := by
  induction cs with
  | nil => rw [List.nil_append, byteSize, Nat.zero_add]
  | cons c cs ih => rw [List.cons_append, byteSize, byteSize, ih, Nat.add_assoc]

theorem utf8ByteSize_ofList (cs : List Char) : (String.ofList cs).utf8ByteSize = byteSize cs := by
  induction cs with
  | nil => rfl
  | cons c cs ih =>
    rw [String.ofList_cons, String.utf8ByteSize_append, String.utf8ByteSize_singleton, ih,
      byteSize]

theorem byteSize_pos {cs} (nonempty : cs ≠ []) : 0 < byteSize cs := by
  cases cs with
  | nil => contradiction
  | cons c cs =>
    have first := c.utf8Size_pos
    rw [byteSize]
    omega

def Lexeme.source (l : Lexeme) : List Char :=
  sourceOf l.kind l.value

theorem Lexeme.source_of_ne {l : Lexeme} (plain : l.kind ≠ .string) : l.source = l.value := by
  obtain ⟨kind, value, rest⟩ := l
  cases kind with
  | string => contradiction
  | _ => rfl

theorem quoted?_eq_some {cs text rest} (closed : quoted? cs = some (text, rest)) :
    cs = doubleQuotes text ++ '\'' :: rest := by
  fun_induction quoted? cs generalizing text rest with
  | case1 => cases closed
  | case2 tail ih =>
    obtain ⟨⟨inner, after⟩, found, same⟩ := Option.map_eq_some_iff.mp closed
    cases same
    rw [doubleQuotes, if_pos (beq_self_eq_true _), ih found]
    rfl
  | case3 c tail _ quote =>
    cases closed
    rw [eq_of_beq quote]
    rfl
  | case4 c tail _ other ih =>
    obtain ⟨⟨inner, after⟩, found, same⟩ := Option.map_eq_some_iff.mp closed
    cases same
    rw [doubleQuotes, if_neg other, ih found]
    rfl

theorem symbolKind_ne_string (c : Char) : symbolKind c ≠ .string := by
  fun_cases symbolKind c <;> exact TokenKind.noConfusion

theorem symbolLexeme_kind (c : Char) (cs : List Char) : (symbolLexeme c cs).kind ≠ .string := by
  fun_cases symbolLexeme c cs with
  | case1 => exact TokenKind.noConfusion
  | case2 => exact symbolKind_ne_string c
  | case3 => exact symbolKind_ne_string c

theorem symbolLexeme_value (c : Char) (cs : List Char) :
    (symbolLexeme c cs).value ++ (symbolLexeme c cs).rest = c :: cs := by
  fun_cases symbolLexeme c cs <;> rfl

theorem lexeme_kind {c} (other : c ≠ '\'') (cs : List Char) : (lexeme c cs).kind ≠ .string := by
  fun_cases lexeme c cs with
  | case1 word =>
    rw [wordLexeme]
    dsimp only
    split <;> exact TokenKind.noConfusion
  | case2 _ digit =>
    rw [numberLexeme]
    dsimp only
    split <;> exact TokenKind.noConfusion
  | case3 _ _ quote => exact absurd (eq_of_beq quote) other
  | case4 _ _ quote => exact absurd (eq_of_beq quote) other
  | case5 =>
    fun_cases colonLexeme cs with
    | case1 => exact TokenKind.noConfusion
    | case2 => exact symbolLexeme_kind _ _
    | case3 => exact symbolLexeme_kind _ _
  | case6 => exact TokenKind.noConfusion
  | case7 => exact symbolLexeme_kind c cs

theorem numberLexeme_value (c : Char) (cs : List Char) :
    (numberLexeme c cs).value ++ (numberLexeme c cs).rest = c :: cs := by
  have whole : cs.takeWhile Char.isDigit ++ cs.dropWhile Char.isDigit = cs :=
    List.takeWhile_append_dropWhile
  have frac := (fraction_append (cs.dropWhile Char.isDigit)).1
  have exp := (exponent_append (fraction (cs.dropWhile Char.isDigit)).2).1
  calc (numberLexeme c cs).value ++ (numberLexeme c cs).rest
    _ = c :: (cs.takeWhile Char.isDigit ++ ((fraction (cs.dropWhile Char.isDigit)).1 ++
          ((exponent (fraction (cs.dropWhile Char.isDigit)).2).1 ++
            (exponent (fraction (cs.dropWhile Char.isDigit)).2).2))) := by
        simp [numberLexeme]
    _ = c :: cs := by rw [← exp, ← frac, whole]

theorem lexeme_value {c} (other : c ≠ '\'') (cs : List Char) :
    (lexeme c cs).value ++ (lexeme c cs).rest = c :: cs := by
  fun_cases lexeme c cs with
  | case1 => simp [wordLexeme]
  | case2 => exact numberLexeme_value c cs
  | case3 _ _ quote => exact absurd (eq_of_beq quote) other
  | case4 _ _ quote => exact absurd (eq_of_beq quote) other
  | case5 _ _ _ colon =>
    rw [eq_of_beq colon]
    fun_cases colonLexeme cs with
    | case1 d rest start => simp
    | case2 d rest => exact symbolLexeme_value _ _
    | case3 => exact symbolLexeme_value _ _
  | case6 _ _ _ _ mark =>
    rw [eq_of_beq mark]
    simp
  | case7 => exact symbolLexeme_value c cs

theorem lexeme_spelled {c} (other : c ≠ '\'') (cs : List Char) :
    ∃ tail, (lexeme c cs).value = c :: tail ∧ ∀ d ∈ tail, IsLexical d := by
  obtain ⟨-, inert, parts, all⟩ := lexeme_starts other cs
  have whole : (lexeme c cs).value ++ (lexeme c cs).rest = c :: inert ++ (lexeme c cs).rest := by
    rw [lexeme_value other cs, List.cons_append, ← parts]
  exact ⟨inert, List.append_cancel_right whole, all⟩

theorem lexeme_source (c : Char) (cs : List Char) :
    (lexeme c cs).source ++ (lexeme c cs).rest = c :: cs := by
  by_cases quote : c = '\''
  · subst quote
    rw [lexeme_quote]
    cases found : quoted? cs with
    | none => rfl
    | some literal =>
      obtain ⟨text, rest⟩ := literal
      rw [quoted?_eq_some found]
      simp [Lexeme.source, sourceOf]
  · rw [Lexeme.source_of_ne (lexeme_kind quote cs), lexeme_value quote cs]

theorem byteSize_lexeme (c : Char) (cs : List Char) :
    byteSize (c :: cs) - byteSize (lexeme c cs).rest = byteSize (lexeme c cs).source := by
  rw [← lexeme_source c cs, byteSize_append, Nat.add_sub_cancel]

theorem lexeme_source_ne_nil (c : Char) (cs : List Char) : (lexeme c cs).source ≠ [] := by
  intro empty
  have whole := lexeme_source c cs
  have shorter := (lexeme_suffix c cs).length_le
  rw [empty, List.nil_append] at whole
  rw [whole, List.length_cons] at shorter
  omega

/-- Tokens lie in the characters that start at byte `position`: each where it says and spelled as it
    should be, with nothing but blanks before, between and after them. -/
inductive Tiles : Nat → List Token → List Char → Prop
  | blank {position gap} (blanks : ∀ c ∈ gap, Text.isAsciiBlank c = true) : Tiles position [] gap
  | token {position gap rest t ts} (blanks : ∀ c ∈ gap, Text.isAsciiBlank c = true)
      (nonempty : t.source ≠ []) (starts : t.position = position + byteSize gap)
      (later : Tiles (t.position + byteSize t.source) ts rest) :
      Tiles position (t :: ts) (gap ++ t.source ++ rest)

theorem utf8Size_of_isAsciiBlank {c} (blank : Text.isAsciiBlank c = true) : c.utf8Size = 1 := by
  simp only [Text.isAsciiBlank, Bool.or_eq_true, beq_iff_eq] at blank
  rcases blank with (((rfl | rfl) | rfl) | rfl) | rfl <;> rfl

namespace Tiles

variable {position : Nat} {ts : List Token} {cs : List Char}

theorem cons_blank {c} (blank : Text.isAsciiBlank c = true) (tiles : Tiles (position + 1) ts cs) :
    Tiles position ts (c :: cs) := by
  cases tiles with
  | blank blanks => exact .blank (List.forall_mem_cons.mpr ⟨blank, blanks⟩)
  | @token _ gap rest t ts blanks nonempty starts later =>
    have moved : t.position = position + byteSize (c :: gap) := by
      rw [byteSize, utf8Size_of_isAsciiBlank blank, starts]
      omega
    exact .token (List.forall_mem_cons.mpr ⟨blank, blanks⟩) nonempty moved later

theorem split {t} (tiles : Tiles position ts cs) (inside : t ∈ ts) :
    t.source ≠ [] ∧ ∃ before after, cs = before ++ t.source ++ after ∧
      t.position = position + byteSize before := by
  induction tiles with
  | blank => cases inside
  | @token position gap rest u us blanks nonempty starts later ih =>
    rcases List.mem_cons.mp inside with rfl | further
    · exact ⟨nonempty, gap, rest, rfl, starts⟩
    · obtain ⟨solid, before, after, parts, place⟩ := ih further
      refine ⟨solid, gap ++ u.source ++ before, after, ?_, ?_⟩
      · rw [parts]
        simp
      · rw [byteSize_append, byteSize_append, place, starts]
        omega

theorem pairwise (tiles : Tiles position ts cs) :
    ts.Pairwise fun t u => t.position + byteSize t.source ≤ u.position := by
  induction tiles with
  | blank => exact List.Pairwise.nil
  | token blanks nonempty starts later ih =>
    refine List.Pairwise.cons ?_ ih
    intro u further
    obtain ⟨-, before, after, -, place⟩ := later.split further
    omega

end Tiles

theorem Token.scanFrom_tiles (position : Nat) (cs : List Char) :
    Tiles position (scanFrom position cs) cs := by
  fun_induction scanFrom position cs with
  | case1 => exact .blank (by simp)
  | case2 position c cs blank ih => exact ih.cons_blank blank
  | case3 position c cs solid found ih =>
    rw [byteSize_lexeme] at ih ⊢
    have spelled : source ⟨found.kind, String.ofList found.value, position⟩ = found.source := by
      rw [source, String.toList_ofList, Lexeme.source]
    have tiles : Tiles position
        (⟨found.kind, String.ofList found.value, position⟩ ::
          scanFrom (position + byteSize found.source) found.rest)
        ([] ++ source ⟨found.kind, String.ofList found.value, position⟩ ++ found.rest) := by
      apply Tiles.token
      · simp
      · rw [spelled]
        exact lexeme_source_ne_nil c cs
      · rfl
      · rw [spelled]
        exact ih
    rwa [List.nil_append, spelled, lexeme_source] at tiles

end EntityAudit.Query
