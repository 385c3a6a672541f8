import EntityAudit.Proofs.Query.Respacing
import EntityAudit.Query.Script

/-! # Scripts and their tokens

A script is cut into statements by counting quotes, and a query is read by following each literal to
its end. Where every quote has a partner the two agree on what is inside a literal, so the tokens of
the statements are the tokens of the script between its semicolons.
-/

namespace EntityAudit.Query

variable {cs : List Char}

/-- Some characters are at an end, or a semicolon or a blank comes first. No lexeme other than a
    literal goes on there. -/
def Stops (after : List Char) : Prop :=
  ∀ c ∈ after.head?, c = ';' ∨ Text.isAsciiBlank c = true

variable {after : List Char}
variable {p : Char → Bool}

theorem Stops.ends (stops : Stops after)
    (none : [';', ' ', '\t', '\n', '\x0c', '\r'].all (!p ·) = true) :
    ∀ c ∈ after.head?, p c = false := by
  intro c first
  rw [← Bool.not_eq_true']
  apply List.all_eq_true.mp none
  rcases stops c first with rfl | blank
  · simp
  · simp only [Text.isAsciiBlank, Bool.or_eq_true, beq_iff_eq] at blank
    rcases blank with (((rfl | rfl) | rfl) | rfl) | rfl <;> simp

theorem span_before (cs : List Char) (ends : ∀ c ∈ after.head?, p c = false) :
    (cs ++ after).takeWhile p = cs.takeWhile p ∧
      (cs ++ after).dropWhile p = cs.dropWhile p ++ after := by
  induction cs with
  | nil =>
    have all : ∀ c ∈ ([] : List Char), p c = true := by simp
    exact span_append all ends
  | cons c cs ih =>
    by_cases goes : p c = true
    · simp [goes, ih]
    · simp [goes]

/-- A lexeme with more characters behind what follows it. -/
def Lexeme.before (l : Lexeme) (after : List Char) : Lexeme :=
  { l with rest := l.rest ++ after }

theorem fraction_of_plain (plain : ∀ d rest, cs = '.' :: d :: rest → d.isDigit = false) :
    fraction cs = ([], cs) := by
  fun_cases fraction cs with
  | case1 d rest digit => exact absurd digit (by simp [plain d rest rfl])
  | case2 => rfl
  | case3 => rfl

theorem fraction_before (cs : List Char) (stops : Stops after) :
    fraction (cs ++ after) = ((fraction cs).1, (fraction cs).2 ++ after) := by
  have ends := stops.ends (p := Char.isDigit) rfl
  fun_cases fraction cs with
  | case1 d rest digit =>
    obtain ⟨taken, left⟩ := span_before rest ends
    rw [List.cons_append, List.cons_append, fraction, if_pos digit, taken, left]
  | case2 d rest other => rw [List.cons_append, List.cons_append, fraction, if_neg other]
  | case3 cs short =>
    apply fraction_of_plain
    intro d rest parts
    cases cs with
    | nil =>
      rw [List.nil_append] at parts
      have point := stops.ends (p := (· == '.')) rfl '.' (by rw [parts]; rfl)
      cases point
    | cons c cs =>
      obtain rfl : c = '.' := (List.cons.inj parts).1
      cases cs with
      | nil =>
        have alone : after = d :: rest := (List.cons.inj parts).2
        exact ends d (by rw [alone]; rfl)
      | cons e cs => exact (short e cs rfl).elim

theorem exponentSign_before (cs : List Char) (stops : Stops after) :
    exponentSign (cs ++ after) = ((exponentSign cs).1, (exponentSign cs).2 ++ after) := by
  fun_cases exponentSign cs with
  | case1 rest => rfl
  | case2 rest => rfl
  | case3 cs noPlus noMinus =>
    have other : ∀ sign ∈ ['+', '-'], ∀ rest, cs ++ after ≠ sign :: rest := by
      intro sign either rest parts
      cases cs with
      | nil =>
        rw [List.nil_append] at parts
        have first := stops.ends (p := (['+', '-'].contains ·)) rfl sign
          (by rw [parts]; rfl)
        simp [either] at first
      | cons c cs =>
        obtain ⟨rfl, -⟩ := List.cons.inj parts
        simp only [List.mem_cons, List.not_mem_nil, or_false] at either
        rcases either with rfl | rfl
        · exact noPlus cs rfl
        · exact noMinus cs rfl
    rw [exponentSign]
    · exact other '+' (by simp)
    · exact other '-' (by simp)

theorem exponent_before (cs : List Char) (stops : Stops after) :
    exponent (cs ++ after) = ((exponent cs).1, (exponent cs).2 ++ after) := by
  have ends := stops.ends (p := Char.isDigit) rfl
  cases cs with
  | nil =>
    cases after with
    | nil => rfl
    | cons e rest =>
      have letter := stops.ends (p := fun e => e == 'e' || e == 'E') rfl e rfl
      simp [exponent, letter]
  | cons e rest =>
    obtain ⟨taken, left⟩ := span_before (exponentSign rest).2 ends
    simp only [List.cons_append, exponent, exponentSign_before rest stops, taken, left]
    split
    · split
      · rfl
      · rfl
    · rfl

theorem numberLexeme_before (c : Char) (cs : List Char) (stops : Stops after) :
    numberLexeme c (cs ++ after) = (numberLexeme c cs).before after := by
  obtain ⟨taken, left⟩ := span_before cs (stops.ends (p := Char.isDigit) rfl)
  simp only [numberLexeme, taken, left, fraction_before _ stops, exponent_before _ stops]
  rfl

theorem symbolLexeme_before (c : Char) (cs : List Char) (stops : Stops after) :
    symbolLexeme c (cs ++ after) = (symbolLexeme c cs).before after := by
  cases cs with
  | nil =>
    cases after with
    | nil => rfl
    | cons d rest =>
      have single := stops.ends (p := fun d => d == '>' || d == '=') rfl d rfl
      simp only [Bool.or_eq_false_iff] at single
      rw [List.nil_append, symbolLexeme, if_neg (by simp [isOperatorPair, single])]
      rfl
  | cons d rest =>
    rw [List.cons_append, symbolLexeme, symbolLexeme]
    split
    · rfl
    · rfl

theorem colonLexeme_before (cs : List Char) (stops : Stops after) :
    colonLexeme (cs ++ after) = (colonLexeme cs).before after := by
  cases cs with
  | nil =>
    cases after with
    | nil => rfl
    | cons d rest =>
      have start := stops.ends (p := isParameterStart) rfl d rfl
      rw [List.nil_append, colonLexeme, if_neg (by simp [start])]
      exact symbolLexeme_before ':' [] stops
  | cons d rest =>
    obtain ⟨taken, left⟩ := span_before rest (stops.ends (p := isParameterChar) rfl)
    rw [List.cons_append, colonLexeme, colonLexeme, taken, left]
    split
    · rfl
    · exact symbolLexeme_before ':' (d :: rest) stops

theorem quoted?_before {text rest} (closed : quoted? cs = some (text, rest)) (stops : Stops after) :
    quoted? (cs ++ after) = some (text, rest ++ after) := by
  fun_induction quoted? cs generalizing text rest with
  | case1 => cases closed
  | case2 tail ih =>
    obtain ⟨⟨inner, left⟩, found, same⟩ := Option.map_eq_some_iff.mp closed
    cases same
    rw [List.cons_append, List.cons_append, quoted?, ih found]
    rfl
  | case3 c tail single quote =>
    cases closed
    rw [eq_of_beq quote, List.cons_append]
    apply quoted?_closing
    intro d first same
    cases tail with
    | nil =>
      have other := stops.ends (p := (· == '\'')) rfl d first
      simp [same] at other
    | cons d tail =>
      cases first
      exact single tail (eq_of_beq quote) (by rw [same])
  | case4 c tail single other ih =>
    obtain ⟨⟨inner, left⟩, found, same⟩ := Option.map_eq_some_iff.mp closed
    cases same
    rw [List.cons_append, quoted?, if_neg other, ih found]
    · rfl
    · rintro rest rfl
      exact absurd rfl other

/-- Where it stops, more text does not change a lexeme: a closed literal stops anywhere. -/
theorem lexeme_before (c : Char) (cs : List Char) (stops : Stops after)
    (closed : c = '\'' → quoted? cs ≠ none) :
    lexeme c (cs ++ after) = (lexeme c cs).before after := by
  unfold lexeme
  split
  · obtain ⟨taken, left⟩ := span_before cs (stops.ends (p := isWordChar) rfl)
    rw [wordLexeme, taken, left]
    rfl
  split
  · exact numberLexeme_before c cs stops
  split
  · cases found : quoted? cs with
    | none => exact absurd found (closed (eq_of_beq ‹_›))
    | some literal =>
      obtain ⟨text, rest⟩ := literal
      rw [quoted?_before found stops]
      rfl
  split
  · exact colonLexeme_before cs stops
  split
  · obtain ⟨taken, left⟩ := span_before cs (stops.ends (p := Char.isDigit) rfl)
    rw [taken, left]
    rfl
  · exact symbolLexeme_before c cs stops

/-- Whether quotes come in pairs. -/
def IsPaired (cs : List Char) : Prop :=
  cs.count '\'' % 2 = 0

theorem quoted?_of_odd (odd : cs.count '\'' % 2 = 1) :
    ∃ text rest, quoted? cs = some (text, rest) ∧ IsPaired rest := by
  fun_induction quoted? cs with
  | case1 => simp at odd
  | case2 tail ih =>
    rw [List.count_cons_self, List.count_cons_self] at odd
    obtain ⟨text, rest, closed, paired⟩ := ih (by omega)
    exact ⟨'\'' :: text, rest, by rw [closed]; rfl, paired⟩
  | case3 c tail _ quote =>
    rw [eq_of_beq quote, List.count_cons_self] at odd
    exact ⟨[], tail, rfl, by rw [IsPaired]; omega⟩
  | case4 c tail _ other ih =>
    rw [List.count_cons_of_ne (by simpa using other)] at odd
    obtain ⟨text, rest, closed, paired⟩ := ih odd
    exact ⟨c :: text, rest, by rw [closed]; rfl, paired⟩

/-- Where quotes come in pairs a literal is closed, and they come in pairs after each lexeme. -/
theorem lexeme_paired {c} (paired : IsPaired (c :: cs)) :
    (c = '\'' → quoted? cs ≠ none) ∧ IsPaired (lexeme c cs).rest := by
  rw [IsPaired] at paired
  by_cases quote : c = '\''
  · subst quote
    rw [List.count_cons_self] at paired
    have odd : cs.count '\'' % 2 = 1 := by omega
    obtain ⟨text, rest, closed, later⟩ := quoted?_of_odd odd
    rw [lexeme_quote, closed]
    exact ⟨fun _ => Option.some_ne_none _, later⟩
  · refine ⟨fun same => absurd same quote, ?_⟩
    have none : (lexeme c cs).source.count '\'' = 0 :=
      List.count_eq_zero.mpr fun inside => lexeme_source_plain quote cs _ inside rfl
    rwa [← lexeme_source, List.count_append, none, Nat.zero_add] at paired

namespace Token

theorem lexeme_induction {motive : List Char → Prop} (nil : motive [])
    (blank : ∀ c cs, Text.isAsciiBlank c = true → motive cs → motive (c :: cs))
    (lexeme : ∀ c cs, ¬Text.isAsciiBlank c = true → motive (lexeme c cs).rest → motive (c :: cs))
    (cs : List Char) : motive cs :=
  scanFrom.induct (fun _ cs => motive cs) (fun _ => nil) (fun _ => blank) (fun _ => lexeme) 0 cs

/-- What the tokens of some characters say apart from where they stand. -/
def contents (cs : List Char) : List (TokenKind × String) :=
  (scanFrom 0 cs).map content

theorem contents_toList (text : String) : contents text.toList = (scan text).map content :=
  rfl

@[simp] theorem contents_nil : contents [] = [] := by
  rw [contents, scanFrom, List.map_nil]

theorem contents_blank {c} (blank : Text.isAsciiBlank c = true) (cs : List Char) :
    contents (c :: cs) = contents cs := by
  rw [contents, scanFrom, if_pos blank, content_scanFrom _ 0, contents]

theorem contents_lexeme {c} (solid : ¬Text.isAsciiBlank c = true) (cs : List Char) :
    contents (c :: cs) =
      ((lexeme c cs).kind, String.ofList (lexeme c cs).value) :: contents (lexeme c cs).rest := by
  rw [contents, scanFrom, if_neg solid, List.map_cons, content_scanFrom _ 0, contents]
  rfl

/-- Where quotes come in pairs, a blank or a semicolon cuts the tokens in two. -/
theorem contents_append (paired : IsPaired cs) (stops : Stops after) :
    contents (cs ++ after) = contents cs ++ contents after := by
  induction cs using lexeme_induction with
  | nil => rw [List.nil_append, contents_nil, List.nil_append]
  | blank c cs blank ih =>
    have other : c ≠ '\'' := (isInert_of_isAsciiBlank blank).1
    rw [IsPaired, List.count_cons_of_ne other] at paired
    rw [List.cons_append, contents_blank blank, contents_blank blank, ih paired]
  | lexeme c cs solid ih =>
    obtain ⟨closed, later⟩ := lexeme_paired paired
    rw [List.cons_append, contents_lexeme solid, contents_lexeme solid,
      lexeme_before c cs stops closed, List.cons_append, ← ih later]
    rfl

/-- What a semicolon outside literals is read as. -/
def divider : TokenKind × String :=
  (.unknown, ";")

theorem lexeme_semicolon (cs : List Char) : lexeme ';' cs = ⟨.unknown, [';'], cs⟩ := by
  cases cs with
  | nil => rfl
  | cons d cs => rfl

theorem contents_semicolon (cs : List Char) : contents (';' :: cs) = divider :: contents cs := by
  rw [contents_lexeme (by decide), lexeme_semicolon]
  rfl

theorem exists_cut (paired : IsPaired cs) (inside : divider ∈ contents cs) :
    ∃ before behind, cs = before ++ ';' :: behind ∧ IsPaired before := by
  induction cs using lexeme_induction with
  | nil => simp at inside
  | blank c cs blank ih =>
    have other : c ≠ '\'' := (isInert_of_isAsciiBlank blank).1
    rw [IsPaired, List.count_cons_of_ne other] at paired
    rw [contents_blank blank] at inside
    obtain ⟨before, behind, rfl, even⟩ := ih paired inside
    refine ⟨c :: before, behind, rfl, ?_⟩
    rwa [IsPaired, List.count_cons_of_ne other]
  | lexeme c cs solid ih =>
    obtain ⟨-, later⟩ := lexeme_paired paired
    have whole := lexeme_source c cs
    rw [contents_lexeme solid, List.mem_cons] at inside
    rcases inside with here | further
    · obtain ⟨kind, value⟩ := Prod.mk.inj here
      have spelled : (lexeme c cs).source = [';'] := by
        rw [Lexeme.source, ← kind, ← String.toList_ofList (l := (lexeme c cs).value), ← value]
        rfl
      rw [spelled] at whole
      exact ⟨[], (lexeme c cs).rest, whole.symm, rfl⟩
    · obtain ⟨before, behind, parts, even⟩ := ih later further
      refine ⟨(lexeme c cs).source ++ before, behind, ?_, ?_⟩
      · rw [List.append_assoc, ← parts, whole]
      · rw [IsPaired, ← whole, List.count_append] at paired
        rw [IsPaired] at even later
        rw [IsPaired, List.count_append]
        omega

/-- Outside literals a token has no semicolon in it, unless it is one. -/
theorem semicolon_of_mem_source {c} (inside : ';' ∈ (lexeme c cs).source) :
    (lexeme c cs).kind = .string ∨ c = ';' := by
  by_cases quote : c = '\''
  · subst quote
    rw [lexeme_quote] at inside ⊢
    cases found : quoted? cs with
    | some literal => exact .inl rfl
    | none =>
      rw [found] at inside
      have same : ';' = '\'' := List.mem_singleton.mp inside
      cases same
  right
  by_cases later : ';' ∈ cs
  · -- The lexeme stops before the first semicolon, so it is made of what stands before that.
    obtain ⟨before, behind, rfl, first⟩ := List.eq_append_cons_of_mem later
    rw [lexeme_before c before (by simp [Stops]) fun same => absurd same quote] at inside
    have whole : (lexeme c before).source ++ (lexeme c before).rest = c :: before :=
      lexeme_source c before
    have among : ';' ∈ c :: before := by
      rw [← whole]
      exact List.mem_append_left _ inside
    rcases List.mem_cons.mp among with same | before
    · exact same.symm
    · exact absurd before first
  · have among : ';' ∈ c :: cs := by
      rw [← lexeme_source]
      exact List.mem_append_left _ inside
    rcases List.mem_cons.mp among with same | behind
    · exact same.symm
    · exact absurd behind later

theorem kind_of_semicolon {position t} (read : t ∈ scanFrom position cs) (inside : ';' ∈ t.source) :
    t.kind = .string ∨ t.content = divider := by
  fun_induction scanFrom position cs with
  | case1 => cases read
  | case2 position c cs blank ih => exact ih read
  | case3 position c cs solid found ih =>
    rcases List.mem_cons.mp read with rfl | later
    · rw [source, String.toList_ofList] at inside
      rcases semicolon_of_mem_source inside with literal | rfl
      · exact .inl literal
      · right
        simp only [content, found, lexeme_semicolon]
        rfl
    · exact ih later

end Token

/-- Whether a place is inside quotes, where `inText` says so of the place before `cs`. -/
def textAfter (inText : Bool) (cs : List Char) : Bool :=
  cs.foldl (fun within c => within != (c == '\'')) inText

theorem textAfter_eq (inText : Bool) (cs : List Char) :
    textAfter inText cs = (inText != (cs.count '\'' % 2 == 1)) := by
  induction cs generalizing inText with
  | nil => simp [textAfter]
  | cons c cs ih =>
    have step : textAfter inText (c :: cs) = textAfter (inText != (c == '\'')) cs := rfl
    rw [step, ih]
    by_cases quote : c = '\''
    · subst quote
      have flips : ((cs.count '\'' + 1) % 2 == 1) = !(cs.count '\'' % 2 == 1) := by
        rcases Nat.mod_two_eq_zero_or_one (cs.count '\'') with even | odd
        · rw [Nat.add_mod, even]
          rfl
        · rw [Nat.add_mod, odd]
          rfl
      rw [List.count_cons_self, flips]
      cases inText <;> simp
    · rw [List.count_cons_of_ne quote, beq_eq_false_iff_ne.mpr quote, Bool.bne_false]

theorem textAfter_of_isPaired : textAfter false cs = false ↔ IsPaired cs := by
  rw [textAfter_eq, IsPaired]
  rcases Nat.mod_two_eq_zero_or_one (cs.count '\'') with even | odd
  · simp [even]
  · simp [odd]

theorem scriptPieces_ne_nil (inText : Bool) (cs : List Char) : scriptPieces inText cs ≠ [] := by
  fun_cases scriptPieces inText cs <;> simp

theorem scriptPieces_cons (inText : Bool) (c : Char) (cs : List Char) :
    scriptPieces inText (c :: cs) =
      if c == ';' && !inText then [] :: scriptPieces inText cs
      else (scriptPieces (inText != (c == '\'')) cs).modifyHead (c :: ·) := by
  rw [scriptPieces]
  cases found : scriptPieces (inText != (c == '\'')) cs with
  | nil => exact absurd found (scriptPieces_ne_nil _ _)
  | cons piece pieces => rfl

theorem scriptPieces_append {inText before} (behind : List Char)
    (outside : textAfter inText before = false) :
    scriptPieces inText (before ++ ';' :: behind) =
      scriptPieces inText before ++ scriptPieces false behind := by
  induction before generalizing inText with
  | nil =>
    obtain rfl : inText = false := outside
    rw [List.nil_append, scriptPieces_cons, if_pos (by decide)]
    rfl
  | cons c before ih =>
    rw [List.cons_append, scriptPieces_cons, scriptPieces_cons]
    split
    · rename_i cut
      have quote : (c == '\'') = false := by
        simp only [Bool.and_eq_true, beq_iff_eq] at cut
        rw [cut.1]
        rfl
      have after : textAfter inText before = false := by
        rw [← outside, ← Bool.bne_false inText, ← quote]
        simp [textAfter, quote]
      rw [ih after, List.cons_append]
    · rw [ih outside]
      cases found : scriptPieces (inText != (c == '\'')) before with
      | nil => exact absurd found (scriptPieces_ne_nil _ _)
      | cons piece pieces => rfl

theorem scriptPieces_eq_singleton {inText}
    (inside : ∀ before behind, cs = before ++ ';' :: behind → textAfter inText before = true) :
    scriptPieces inText cs = [cs] := by
  induction cs generalizing inText with
  | nil => rfl
  | cons c cs ih =>
    have whole : ¬(c == ';' && !inText) = true := by
      intro cut
      simp only [Bool.and_eq_true, beq_iff_eq, Bool.not_eq_true'] at cut
      have within : inText = true := inside [] cs (by rw [cut.1]; rfl)
      simp [within] at cut
    rw [scriptPieces_cons, if_neg whole, ih]
    · rfl
    · rintro before behind rfl
      exact inside (c :: before) behind rfl

open Token in
/-- A script with its quotes in pairs is one statement both for the pieces and for the tokens, or
    both are cut at a semicolon. -/
@[elab_as_elim]
theorem cut_induction {motive : List Char → Prop}
    (single : ∀ cs, IsPaired cs → scriptPieces false cs = [cs] → divider ∉ contents cs → motive cs)
    (cut : ∀ before behind, IsPaired before →
      scriptPieces false (before ++ ';' :: behind) =
        scriptPieces false before ++ scriptPieces false behind →
      contents (before ++ ';' :: behind) = contents before ++ divider :: contents behind →
      motive before → motive behind → motive (before ++ ';' :: behind))
    (cs : List Char) (paired : IsPaired cs) : motive cs := by
  have tokens : ∀ {before} behind, IsPaired before →
      contents (before ++ ';' :: behind) = contents before ++ divider :: contents behind := by
    intro before behind even
    rw [contents_append even (by simp [Stops]), contents_semicolon]
  by_cases inside : divider ∈ contents cs
  · obtain ⟨before, behind, rfl, even⟩ := exists_cut paired inside
    have later : IsPaired behind := by
      rw [IsPaired, List.count_append, List.count_cons_of_ne (by decide)] at paired
      rw [IsPaired] at even ⊢
      omega
    exact cut before behind even (scriptPieces_append behind (textAfter_of_isPaired.mpr even))
      (tokens behind even) (cut_induction single cut before even)
      (cut_induction single cut behind later)
  · refine single cs paired (scriptPieces_eq_singleton ?_) inside
    rintro before behind rfl
    apply Decidable.byContradiction
    intro outside
    have even := textAfter_of_isPaired.mp (Bool.eq_false_iff.mpr outside)
    rw [tokens behind even] at inside
    exact inside (by simp)
termination_by cs.length

open Token in
theorem map_contents_scriptPieces (paired : IsPaired cs) :
    (scriptPieces false cs).map contents = (contents cs).splitOn divider := by
  refine cut_induction ?_ ?_ cs paired
  · intro cs _ whole none
    rw [whole, List.map_singleton]
    refine (List.splitOnP_eq_singleton fun token inside => ?_).symm
    apply beq_eq_false_iff_ne.mpr
    rintro rfl
    exact none inside
  · intro before behind _ pieces tokens first later
    rw [pieces, tokens, List.map_append, first, later]
    exact (List.splitOnP_append_cons (p := (· == divider)) (contents before) (contents behind)
      (beq_self_eq_true divider)).symm

open Token in
theorem forall_scriptPieces (paired : IsPaired cs) :
    ∀ piece ∈ scriptPieces false cs,
      IsPaired piece ∧ divider ∉ contents piece ∧ ∀ c ∈ piece, c ∈ cs := by
  refine cut_induction ?_ ?_ cs paired
  · intro cs paired whole none piece inside
    rw [whole, List.mem_singleton] at inside
    subst inside
    exact ⟨paired, none, fun c inside => inside⟩
  · intro before behind _ pieces _ ofBefore ofBehind piece inside
    rw [pieces, List.mem_append] at inside
    rcases inside with first | later
    · obtain ⟨even, none, among⟩ := ofBefore piece first
      exact ⟨even, none, fun c inside => by simp [among c inside]⟩
    · obtain ⟨even, none, among⟩ := ofBehind piece later
      exact ⟨even, none, fun c inside => by simp [among c inside]⟩

theorem trimChars_parts (cs : List Char) :
    ∃ lead trail, cs = lead ++ (Text.trimChars cs ++ trail) ∧
      ∀ c ∈ lead ++ trail, Text.isBlank c = true := by
  let core := cs.dropWhile Text.isBlank
  refine ⟨cs.takeWhile Text.isBlank, (core.reverse.takeWhile Text.isBlank).reverse, ?_, ?_⟩
  · have trailing : Text.trimChars cs ++ (core.reverse.takeWhile Text.isBlank).reverse = core := by
      rw [Text.trimChars, ← List.reverse_append, List.takeWhile_append_dropWhile,
        List.reverse_reverse]
    rw [trailing, List.takeWhile_append_dropWhile]
  · intro c inside
    rw [List.mem_append, List.mem_reverse] at inside
    rcases inside with lead | trail
    · exact List.all_eq_true.mp List.all_takeWhile c lead
    · exact List.all_eq_true.mp List.all_takeWhile c trail

theorem head?_dropWhile (cs : List Char) : ∀ c ∈ (cs.dropWhile p).head?, p c = false := by
  intro c first
  have other := List.head?_dropWhile_not p cs
  rwa [first] at other

theorem head?_trimChars (cs : List Char) :
    ∀ c ∈ (Text.trimChars cs).head?, Text.isBlank c = false := by
  let core := cs.dropWhile Text.isBlank
  have front : Text.trimChars cs <+: core := by
    have back := List.reverse_prefix.mpr
      (List.dropWhile_suffix (l := core.reverse) Text.isBlank)
    rwa [List.reverse_reverse] at back
  intro c first
  obtain ⟨behind, parts⟩ := front
  apply head?_dropWhile cs
  change core.head? = some c
  rw [← parts, List.head?_append, Option.mem_def.mp first, Option.some_or]

theorem getLast?_trimChars (cs : List Char) :
    ∀ c ∈ (Text.trimChars cs).getLast?, Text.isBlank c = false := by
  intro c last
  rw [Text.trimChars, List.getLast?_reverse] at last
  exact head?_dropWhile _ c last

namespace Token

theorem contents_blanks {gap} (blanks : ∀ c ∈ gap, Text.isAsciiBlank c = true) (cs : List Char) :
    contents (gap ++ cs) = contents cs := by
  induction gap with
  | nil => rfl
  | cons c gap ih =>
    rw [List.cons_append, contents_blank (blanks c (by simp)),
      ih fun d inside => blanks d (by simp [inside])]

theorem count_quote_blanks {gap : List Char} (blanks : ∀ c ∈ gap, Text.isAsciiBlank c = true) :
    gap.count '\'' = 0 :=
  List.count_eq_zero.mpr fun inside => (isInert_of_isAsciiBlank (blanks _ inside)).1 rfl

theorem contents_trimChars (paired : IsPaired cs)
    (ascii : ∀ c ∈ cs, Text.isBlank c = true → Text.isAsciiBlank c = true) :
    contents (Text.trimChars cs) = contents cs := by
  obtain ⟨lead, trail, parts, blank⟩ := trimChars_parts cs
  have outer : ∀ c ∈ lead ++ trail, Text.isAsciiBlank c = true := by
    intro c inside
    apply ascii c _ (blank c inside)
    rw [parts]
    rcases List.mem_append.mp inside with first | last
    · simp [first]
    · simp [last]
  have before : ∀ c ∈ lead, Text.isAsciiBlank c = true := fun c first => outer c (by simp [first])
  have behind : ∀ c ∈ trail, Text.isAsciiBlank c = true := fun c last => outer c (by simp [last])
  have core : IsPaired (Text.trimChars cs) := by
    rw [IsPaired, parts, List.count_append, List.count_append, count_quote_blanks before,
      count_quote_blanks behind] at paired
    rw [IsPaired]
    omega
  have stops : Stops trail := fun c first => .inr (behind c (List.mem_of_mem_head? first))
  calc contents (Text.trimChars cs)
    _ = contents (Text.trimChars cs) ++ contents (trail ++ []) := by
        rw [contents_blanks behind, contents_nil, List.append_nil]
    _ = contents (lead ++ (Text.trimChars cs ++ trail)) := by
        rw [contents_blanks before, contents_append core stops, List.append_nil]
    _ = contents cs := by rw [← parts]

theorem contents_eq_nil_of_trimmed (empty : contents (Text.trimChars cs) = []) :
    Text.trimChars cs = [] := by
  cases found : Text.trimChars cs with
  | nil => rfl
  | cons c rest =>
    have solid : ¬Text.isAsciiBlank c = true := by
      intro blank
      have first := head?_trimChars cs c (by rw [found]; rfl)
      simp [Text.isBlank_of_isAsciiBlank blank] at first
    rw [found, contents_lexeme solid] at empty
    cases empty

end Token

/-- The statement that a piece of a script holds, unless it is blank. -/
def statementOf? (piece : List Char) : Option String :=
  if (Text.trimChars piece).isEmpty then none else some (String.ofList (Text.trimChars piece))

theorem statementOf?_eq_some {piece statement} :
    statementOf? piece = some statement ↔
      Text.trimChars piece ≠ [] ∧ statement.toList = Text.trimChars piece := by
  rw [statementOf?]
  cases Text.trimChars piece with
  | nil => simp
  | cons c rest =>
    have spelled : String.ofList (c :: rest) = statement ↔ statement.toList = c :: rest := by
      constructor
      · rintro rfl
        exact String.toList_ofList
      · intro same
        rw [← same, String.ofList_toList]
    rw [if_neg (by simp), Option.some.injEq, spelled]
    simp

open Token in
theorem map_contents_statements {pieces : List (List Char)}
    (same : ∀ piece ∈ pieces, contents (Text.trimChars piece) = contents piece) :
    (pieces.filterMap statementOf?).map (fun statement => (scan statement).map content) =
      (pieces.map contents).filter (!·.isEmpty) := by
  induction pieces with
  | nil => rfl
  | cons piece pieces ih =>
    have own := same piece (by simp)
    have later := ih fun p inside => same p (by simp [inside])
    rw [List.map_cons, ← own]
    cases found : statementOf? piece with
    | none =>
      have blank : Text.trimChars piece = [] := by simpa [statementOf?] using found
      rw [List.filterMap_cons_none found, later, blank, contents_nil]
      rfl
    | some statement =>
      obtain ⟨solid, spelled⟩ := statementOf?_eq_some.mp found
      have filled : (contents (Text.trimChars piece)).isEmpty = false := by
        apply List.isEmpty_eq_false_iff.mpr
        intro empty
        exact solid (contents_eq_nil_of_trimmed empty)
      rw [List.filterMap_cons_some found, List.map_cons, later,
        List.filter_cons_of_pos (by simp [filled]), ← spelled, contents_toList]

theorem flatten_splitOn {α : Type} [BEq α] [LawfulBEq α] (divider : α) (xs : List α) :
    (xs.splitOn divider).flatten = xs.filter (· != divider) := by
  rw [List.splitOn]
  induction xs with
  | nil => rfl
  | cons x xs ih =>
    rw [List.splitOnP_cons_eq_if_modifyHead]
    obtain ⟨first, others, found⟩ :=
      List.exists_cons_of_ne_nil (List.splitOnP_ne_nil (· == divider) xs)
    by_cases divides : x = divider
    · simp [divides, ih]
    · simp [divides, ← ih, found]

open Token in
/-- The statements of a script are what stands between its semicolons. If the quotes of a script
    come in pairs and all its white space is ASCII, the tokens of its statements are the runs of
    tokens between the semicolons that are read as such, in order and without the empty runs; so
    together they are all its tokens but those semicolons. Every statement has something in it, no
    white space around it, and no semicolon outside a literal. -/
theorem splitScript_tokens (text : String) (paired : text.toList.count '\'' % 2 = 0)
    (ascii : ∀ c ∈ text.toList, Text.isBlank c = true → Text.isAsciiBlank c = true) :
    (splitScript text).flatMap (fun statement => (scan statement).map content) =
      ((scan text).map content).filter (· != (.unknown, ";")) ∧
    (splitScript text).map (fun statement => (scan statement).map content) =
      (((scan text).map content).splitOn (.unknown, ";")).filter (!·.isEmpty) ∧
    ∀ statement ∈ splitScript text,
      statement ≠ "" ∧
      (∀ c ∈ statement.toList.head?, Text.isBlank c = false) ∧
      (∀ c ∈ statement.toList.getLast?, Text.isBlank c = false) ∧
      ∀ t ∈ scan statement, ';' ∈ t.source → t.kind = .string := by
  have pieces := forall_scriptPieces paired
  have same : ∀ piece ∈ scriptPieces false text.toList,
      contents (Text.trimChars piece) = contents piece := by
    intro piece inside
    obtain ⟨even, -, among⟩ := pieces piece inside
    exact contents_trimChars even fun c member => ascii c (among c member)
  have runs : (splitScript text).map (fun statement => (scan statement).map content) =
      (((scan text).map content).splitOn (.unknown, ";")).filter (!·.isEmpty) := by
    rw [← contents_toList, ← divider, ← map_contents_scriptPieces paired]
    exact map_contents_statements same
  refine ⟨?_, runs, ?_⟩
  · rw [List.flatMap_def, runs, List.flatten_filter_not_isEmpty, flatten_splitOn]
  · intro statement inside
    obtain ⟨piece, among, found⟩ := List.mem_filterMap.mp inside
    obtain ⟨solid, spelled⟩ := statementOf?_eq_some.mp found
    obtain ⟨-, none, -⟩ := pieces piece among
    refine ⟨?_, ?_, ?_, ?_⟩
    · rintro rfl
      exact solid spelled.symm
    · rw [spelled]
      exact head?_trimChars piece
    · rw [spelled]
      exact getLast?_trimChars piece
    · intro t read semicolon
      rcases kind_of_semicolon read semicolon with literal | divides
      · exact literal
      · rw [← same piece among, ← spelled] at none
        exact absurd (divides ▸ List.mem_map_of_mem read) none

open Token in
/-- A script of two statements and a blank one, with a semicolon and doubled quotes in a literal. -/
theorem splitScript_tokens_literal :
    let text := "SELECT 'it''s;' FROM X x ;;\n DELETE Post p"
    text.toList.count '\'' % 2 = 0 ∧
      (∀ c ∈ text.toList, Text.isBlank c = true → Text.isAsciiBlank c = true) ∧
      splitScript text = ["SELECT 'it''s;' FROM X x", "DELETE Post p"] ∧
      (splitScript text).flatMap (fun statement => (scan statement).map content) =
        ((scan text).map content).filter (· != (.unknown, ";")) := by
  intro text
  have paired : text.toList.count '\'' % 2 = 0 := by decide
  have ascii : ∀ c ∈ text.toList, Text.isBlank c = true → Text.isAsciiBlank c = true := by
    have each : text.toList.all (fun c => !Text.isBlank c || Text.isAsciiBlank c) = true := by decide
    intro c inside blank
    simpa [blank] using List.all_eq_true.mp each c inside
  exact ⟨paired, ascii, by decide, (splitScript_tokens text paired ascii).1⟩

end EntityAudit.Query
