import EntityAudit.Proofs.Query.Spans

/-! # Tokens written with single spaces

The tokens of a text, written out again with one space between any two, are read back as the same
tokens. A space ends every lexeme, so most of this is local. The exception is a quote that is never
closed: after it, quotes stand in runs of even length only, which spaces between tokens leave as
they are.
-/

namespace EntityAudit.Query

/-- Some characters are at an end, or a space comes first. -/
inductive Breaks : List Char → Prop
  | done : Breaks []
  | space (cs : List Char) : Breaks (' ' :: cs)

theorem Breaks.ends {p : Char → Bool} {after} (breaks : Breaks after) (space : p ' ' = false) :
    ∀ c ∈ after.head?, p c = false := by
  intro c first
  cases breaks with
  | done => cases first
  | space rest =>
    cases first
    exact space

theorem span_append {p} {after : List Char} (all : ∀ c ∈ cs, p c = true)
    (ends : ∀ c ∈ after.head?, p c = false) :
    (cs ++ after).takeWhile p = cs ∧ (cs ++ after).dropWhile p = after := by
  rw [List.takeWhile_append_of_pos all, List.dropWhile_append_of_pos all]
  cases after with
  | nil => simp
  | cons c after =>
    have other : p c = false := ends c rfl
    simp [other]

theorem span_takeWhile {p} (cs : List Char) {after} (ends : ∀ c ∈ after.head?, p c = false) :
    (cs.takeWhile p ++ after).takeWhile p = cs.takeWhile p ∧
      (cs.takeWhile p ++ after).dropWhile p = after :=
  span_append (List.all_eq_true.mp List.all_takeWhile) ends

/-- Read from `c` on, with `after` behind it, a lexeme is what it was. -/
def Lexeme.Rereads (read : List Char → Lexeme) (c : Char) (l : Lexeme) (after : List Char) : Prop :=
  ∃ tail, l.source = c :: tail ∧ read (tail ++ after) = { l with rest := after }

variable {after : List Char}
variable {cs : List Char}

theorem wordLexeme_rereads (c : Char) (cs : List Char) (breaks : Breaks after) :
    (wordLexeme c cs).Rereads (wordLexeme c) c after := by
  obtain ⟨taken, left⟩ := span_takeWhile cs (breaks.ends (p := isWordChar) (by decide))
  refine ⟨cs.takeWhile isWordChar, ?_, ?_⟩
  · apply Lexeme.source_of_ne
    rw [wordLexeme]
    dsimp only
    split <;> exact TokenKind.noConfusion
  · rw [wordLexeme, taken, left]
    rfl

theorem symbolLexeme_rereads (c : Char) (cs : List Char) (breaks : Breaks after) :
    (symbolLexeme c cs).Rereads (symbolLexeme c) c after := by
  have single : symbolLexeme c after = ⟨symbolKind c, [c], after⟩ := by
    cases breaks with
    | done => rfl
    | space rest => rw [symbolLexeme, if_neg (by simp [isOperatorPair])]
  have plain := Lexeme.source_of_ne (symbolLexeme_kind c cs)
  rw [Lexeme.Rereads, plain]
  fun_cases symbolLexeme c cs with
  | case1 d rest pair => exact ⟨[d], rfl, by rw [List.singleton_append, symbolLexeme, if_pos pair]⟩
  | case2 d rest => exact ⟨[], rfl, single⟩
  | case3 => exact ⟨[], rfl, single⟩

theorem colonLexeme_rereads (cs : List Char) (breaks : Breaks after) :
    (colonLexeme cs).Rereads colonLexeme ':' after := by
  have alone : colonLexeme after = ⟨.unknown, [':'], after⟩ := by
    cases breaks with
    | done => rfl
    | space rest => rfl
  fun_cases colonLexeme cs with
  | case1 d rest start =>
    obtain ⟨taken, left⟩ := span_takeWhile rest (breaks.ends (p := isParameterChar) (by decide))
    refine ⟨d :: rest.takeWhile isParameterChar, rfl, ?_⟩
    rw [List.cons_append, colonLexeme, if_pos start, taken, left]
  | case2 d rest other =>
    have unpaired : symbolLexeme ':' (d :: rest) = ⟨.unknown, [':'], d :: rest⟩ := by
      rw [symbolLexeme, if_neg (by simp [isOperatorPair])]
      rfl
    rw [unpaired]
    exact ⟨[], rfl, alone⟩
  | case3 => exact ⟨[], rfl, alone⟩

/-- No digit and no point comes first. -/
def Settled (cs : List Char) : Prop :=
  ∀ c ∈ cs.head?, c.isDigit = false ∧ c ≠ '.'

theorem exponentSign_of_isDigit {d} (digit : d.isDigit = true) (cs : List Char) :
    exponentSign (d :: cs) = ([], d :: cs) := by
  rw [exponentSign]
  · rintro rest ⟨⟩
    exact absurd digit (by decide)
  · rintro rest ⟨⟩
    exact absurd digit (by decide)

theorem exponentSign_again (cs : List Char) {d} (digit : d.isDigit = true) (ds : List Char) :
    exponentSign ((exponentSign cs).1 ++ d :: ds) = ((exponentSign cs).1, d :: ds) := by
  fun_cases exponentSign cs with
  | case1 => rfl
  | case2 => rfl
  | case3 => exact exponentSign_of_isDigit digit ds

theorem exponent_again (cs : List Char) (breaks : Breaks after) :
    exponent ((exponent cs).1 ++ after) = ((exponent cs).1, after) ∧
      Settled ((exponent cs).1 ++ after) := by
  have nothing : exponent after = ([], after) ∧ Settled after := by
    cases breaks with
    | done => exact ⟨rfl, by simp [Settled]⟩
    | space rest => exact ⟨rfl, by simp [Settled]⟩
  fun_cases exponent cs with
  | case1 => exact nothing
  | case3 => exact nothing
  | case4 => exact nothing
  | case2 e rest letter sign digits parts some =>
    obtain ⟨taken, left⟩ := span_takeWhile digits (breaks.ends (p := Char.isDigit) (by decide))
    have signed : exponentSign (sign ++ (digits.takeWhile Char.isDigit ++ after)) =
        (sign, digits.takeWhile Char.isDigit ++ after) := by
      cases found : digits.takeWhile Char.isDigit with
      | nil => simp [found] at some
      | cons d more =>
        have digit : d.isDigit = true :=
          List.all_eq_true.mp List.all_takeWhile d (by rw [found]; simp)
        have again := exponentSign_again rest digit (more ++ after)
        rwa [parts] at again
    constructor
    · simp only [List.cons_append, List.append_assoc]
      rw [exponent, if_pos letter, signed]
      dsimp only
      rw [taken, left, if_neg some]
      rfl
    · intro c first
      cases first
      simp only [Bool.or_eq_true, beq_iff_eq] at letter
      rcases letter with rfl | rfl <;> decide

theorem fraction_again (cs : List Char) (settled : Settled after) :
    fraction ((fraction cs).1 ++ after) = ((fraction cs).1, after) ∧
      ∀ c ∈ ((fraction cs).1 ++ after).head?, c.isDigit = false := by
  have nothing : fraction after = ([], after) := by
    fun_cases fraction after with
    | case1 d rest => exact absurd rfl (settled '.' rfl).2
    | case2 => rfl
    | case3 => rfl
  fun_cases fraction cs with
  | case1 d rest digit =>
    obtain ⟨taken, left⟩ := span_takeWhile rest fun c first => (settled c first).1
    constructor
    · rw [List.cons_append, List.cons_append, fraction, if_pos digit, taken, left]
    · intro c first
      cases first
      rfl
  | case2 => exact ⟨nothing, fun c first => (settled c first).1⟩
  | case3 => exact ⟨nothing, fun c first => (settled c first).1⟩

theorem numberLexeme_rereads (c : Char) (cs : List Char) (breaks : Breaks after) :
    (numberLexeme c cs).Rereads (numberLexeme c) c after := by
  obtain ⟨exp, settled⟩ := exponent_again (fraction (cs.dropWhile Char.isDigit)).2 breaks
  obtain ⟨frac, ends⟩ := fraction_again (cs.dropWhile Char.isDigit) settled
  obtain ⟨taken, left⟩ := span_takeWhile cs ends
  refine ⟨cs.takeWhile Char.isDigit ++ ((fraction (cs.dropWhile Char.isDigit)).1 ++
    (exponent (fraction (cs.dropWhile Char.isDigit)).2).1), ?_, ?_⟩
  · rw [Lexeme.source_of_ne]
    · simp [numberLexeme]
    · rw [numberLexeme]
      dsimp only
      split <;> exact TokenKind.noConfusion
  · rw [numberLexeme, List.append_assoc, List.append_assoc, taken, left, frac]
    dsimp only
    rw [exp]
    rfl

theorem quoted?_closing (other : ∀ c ∈ cs.head?, c ≠ '\'') :
    quoted? ('\'' :: cs) = some ([], cs) := by
  rw [quoted?, if_pos (beq_self_eq_true _)]
  rintro rest - rfl
  exact other '\'' rfl rfl

theorem quoted?_doubleQuotes (text : List Char) (breaks : Breaks after) :
    quoted? (doubleQuotes text ++ '\'' :: after) = some (text, after) := by
  induction text with
  | nil =>
    apply quoted?_closing
    intro c first
    have other := breaks.ends (p := (· == '\'')) (by decide) c first
    exact ne_of_beq_false other
  | cons c text ih =>
    by_cases quote : c = '\''
    · subst quote
      rw [doubleQuotes, if_pos (beq_self_eq_true _), List.cons_append, List.cons_append, quoted?,
        ih]
      rfl
    · have other : (c == '\'') = false := beq_eq_false_iff_ne.mpr quote
      rw [doubleQuotes, if_neg (by simp [other]), List.cons_append, quoted?,
        if_neg (by simp [other]), ih]
      · rfl
      · rintro rest rfl
        contradiction

theorem quoted?_cons_eq_none {c} (other : c ≠ '\'') :
    quoted? (c :: cs) = none ↔ quoted? cs = none := by
  rw [quoted?, if_neg (by simpa using other), Option.map_eq_none_iff]
  rintro rest rfl
  contradiction

theorem quoted?_append_eq_none {ds} (other : ∀ c ∈ cs, c ≠ '\'') :
    quoted? (cs ++ ds) = none ↔ quoted? ds = none := by
  induction cs with
  | nil => rfl
  | cons c cs ih =>
    rw [List.cons_append, quoted?_cons_eq_none (other c (by simp)),
      ih fun d inside => other d (by simp [inside])]

/-- If a literal that goes on with a quote is never closed, then the quote starts one that is closed
    and made of quotes only, and what follows it closes nothing either. -/
theorem quoted?_of_unclosed : ∀ {cs : List Char}, quoted? ('\'' :: cs) = none →
    ∃ text rest, quoted? cs = some (text, rest) ∧ quoted? rest = none ∧ ∀ c ∈ text, c = '\''
  | [], unclosed => by cases unclosed
  | c :: cs, unclosed => by
    obtain rfl : c = '\'' := by
      apply Decidable.byContradiction
      intro other
      rw [quoted?_closing (by simpa using other)] at unclosed
      cases unclosed
    rw [quoted?, Option.map_eq_none_iff] at unclosed
    by_cases again : cs.head? = some '\''
    · obtain ⟨cs, rfl⟩ := List.head?_eq_some_iff.mp again
      obtain ⟨text, rest, closed, open_, quotes⟩ := quoted?_of_unclosed unclosed
      exact ⟨'\'' :: text, rest, by rw [quoted?, closed]; rfl, open_, by simpa using quotes⟩
    · have closes : quoted? ('\'' :: cs) = some ([], cs) := by
        apply quoted?_closing
        rintro c first rfl
        exact again first
      exact ⟨[], cs, closes, unclosed, by simp⟩
termination_by cs => cs.length

theorem quoted?_quotes_append {text ds} (quotes : ∀ c ∈ text, c = '\'') :
    quoted? ('\'' :: (doubleQuotes text ++ '\'' :: ds)) = none ↔ quoted? ds = none := by
  induction text with
  | nil => rw [doubleQuotes, List.nil_append, quoted?, Option.map_eq_none_iff]
  | cons c text ih =>
    obtain rfl : c = '\'' := quotes c (by simp)
    rw [doubleQuotes, if_pos (beq_self_eq_true _), List.cons_append, List.cons_append, quoted?,
      Option.map_eq_none_iff, ih fun d inside => quotes d (by simp [inside])]

theorem lexeme_rereads (c : Char) (cs : List Char) (breaks : Breaks after)
    (stays : c = '\'' → quoted? cs = none → quoted? after = none) :
    (lexeme c cs).Rereads (lexeme c) c after := by
  fun_cases lexeme c cs with
  | case1 word =>
    have same : lexeme c = wordLexeme c := by
      funext ds
      rw [lexeme, if_pos word]
    rw [same]
    exact wordLexeme_rereads c cs breaks
  | case2 word digit =>
    have same : lexeme c = numberLexeme c := by
      funext ds
      rw [lexeme, if_neg word, if_pos digit]
    rw [same]
    exact numberLexeme_rereads c cs breaks
  | case3 _ _ quote text rest closed =>
    obtain rfl := eq_of_beq quote
    refine ⟨doubleQuotes text ++ ['\''], rfl, ?_⟩
    rw [List.append_assoc, List.singleton_append, lexeme_quote, quoted?_doubleQuotes text breaks]
  | case4 _ _ quote unclosed =>
    obtain rfl := eq_of_beq quote
    refine ⟨[], rfl, ?_⟩
    rw [List.nil_append, lexeme_quote, stays rfl unclosed]
  | case5 _ _ _ colon =>
    obtain rfl := eq_of_beq colon
    exact colonLexeme_rereads cs breaks
  | case6 _ _ _ _ mark =>
    obtain rfl := eq_of_beq mark
    obtain ⟨taken, left⟩ := span_takeWhile cs (breaks.ends (p := Char.isDigit) (by decide))
    refine ⟨cs.takeWhile Char.isDigit, rfl, ?_⟩
    change (⟨.parameter, '?' :: (cs.takeWhile Char.isDigit ++ after).takeWhile Char.isDigit,
      (cs.takeWhile Char.isDigit ++ after).dropWhile Char.isDigit⟩ : Lexeme) = _
    rw [taken, left]
  | case7 word digit quote colon mark =>
    have same : lexeme c = symbolLexeme c := by
      funext ds
      rw [lexeme, if_neg word, if_neg digit, if_neg quote, if_neg colon, if_neg mark]
    rw [same]
    exact symbolLexeme_rereads c cs breaks

theorem lexeme_source_plain {c} (other : c ≠ '\'') (cs : List Char) :
    ∀ d ∈ (lexeme c cs).source, d ≠ '\'' := by
  obtain ⟨tail, spelled, all⟩ := lexeme_spelled other cs
  intro d inside
  rw [Lexeme.source_of_ne (lexeme_kind other cs), spelled] at inside
  rcases List.mem_cons.mp inside with rfl | among
  · exact other
  · exact (all d among).1.1

namespace Token

def spread (tokens : List Token) : List Char :=
  tokens.flatMap fun t => ' ' :: t.source

theorem breaks_spread (tokens : List Token) : Breaks (spread tokens) := by
  cases tokens with
  | nil => exact .done
  | cons t ts => exact .space _

theorem spread_cons (found : Lexeme) (position : Nat) (ts : List Token) :
    spread (⟨found.kind, String.ofList found.value, position⟩ :: ts) =
      ' ' :: (found.source ++ spread ts) := by
  rw [spread, List.flatMap_cons, source, String.toList_ofList, List.cons_append]
  rfl

theorem quoted?_spread {position cs} (unclosed : quoted? cs = none) :
    quoted? (spread (scanFrom position cs)) = none := by
  fun_induction scanFrom position cs with
  | case1 => rfl
  | case2 position c cs blank ih =>
    exact ih ((quoted?_cons_eq_none (isInert_of_isAsciiBlank blank).1).mp unclosed)
  | case3 position c cs solid found ih =>
    have whole : found.source ++ found.rest = c :: cs := lexeme_source c cs
    rw [spread_cons, quoted?_cons_eq_none (by decide)]
    by_cases quote : c = '\''
    · subst quote
      obtain ⟨text, rest, closed, open_, quotes⟩ := quoted?_of_unclosed unclosed
      have read : found = ⟨.string, text, rest⟩ := by
        simp only [found, lexeme_quote, closed]
      rw [read] at ih ⊢
      simp only [Lexeme.source, sourceOf, List.cons_append, List.append_assoc,
        List.nil_append]
      exact (quoted?_quotes_append quotes).mpr (ih open_)
    · have plain := lexeme_source_plain quote cs
      rw [quoted?_append_eq_none plain]
      apply ih
      rwa [← whole, quoted?_append_eq_none plain] at unclosed

def content (t : Token) : TokenKind × String :=
  (t.kind, t.value)

theorem content_scanFrom (position start : Nat) (cs : List Char) :
    (scanFrom position cs).map content = (scanFrom start cs).map content := by
  fun_induction scanFrom position cs generalizing start with
  | case1 => rw [scanFrom]
  | case2 position c cs blank ih => rw [ih (start + 1), scanFrom.eq_2, if_pos blank]
  | case3 position c cs solid found ih =>
    rw [scanFrom.eq_2, if_neg solid, List.map_cons, List.map_cons, ih]
    rfl

theorem scanFrom_spread (position : Nat) (cs : List Char) : ∀ start,
    (scanFrom start (spread (scanFrom position cs))).map content =
      (scanFrom position cs).map content := by
  fun_induction scanFrom position cs with
  | case1 =>
    intro start
    rw [spread, List.flatMap_nil, scanFrom]
  | case2 position c cs blank ih => exact ih
  | case3 position c cs solid found ih =>
    intro start
    have stays : c = '\'' → quoted? cs = none →
        quoted? (spread (scanFrom (position + (byteSize (c :: cs) - byteSize found.rest))
          found.rest)) = none := by
      rintro rfl unclosed
      have read : found.rest = cs := by
        simp only [found, lexeme_quote, unclosed]
      rw [read]
      exact quoted?_spread unclosed
    obtain ⟨tail, spelled, again⟩ := lexeme_rereads c cs (breaks_spread _) stays
    rw [spread_cons, scanFrom, if_pos (by decide), spelled, List.cons_append, scanFrom,
      if_neg solid]
    dsimp only
    rw [again]
    dsimp only
    rw [List.map_cons, List.map_cons, ih]
    rfl

/-- The text that tokens make when they are written out with one space between any two. -/
def spaced (tokens : List Token) : String :=
  String.intercalate " " (tokens.map fun t => String.ofList t.source)

theorem spread_eq_spaced (t : Token) (ts : List Token) :
    spread (t :: ts) = ' ' :: (spaced (t :: ts)).toList := by
  induction ts generalizing t with
  | nil => simp [spread, spaced]
  | cons u us ih =>
    have first : (spaced (t :: u :: us)).toList =
        t.source ++ ' ' :: (spaced (u :: us)).toList := by
      simp [spaced, String.intercalate_cons_cons]
    have split : spread (t :: u :: us) = ' ' :: (t.source ++ spread (u :: us)) := by
      rw [spread, List.flatMap_cons, List.cons_append]
      rfl
    rw [split, ih, first]

/-- The tokens of any text, written out with one space between any two, are read back as the same
    tokens. -/
theorem scan_spaced (text : String) :
    (scan (spaced (scan text))).map content = (scan text).map content := by
  have again := scanFrom_spread 0 text.toList 0
  rw [← scan] at again
  cases found : scan text with
  | nil => rw [spaced, List.map_nil, String.intercalate_nil, scan, String.toList_empty, scanFrom]
  | cons t ts =>
    rw [found, spread_eq_spaced, scanFrom, if_pos (by decide)] at again
    rw [← again, scan]
    exact content_scanFrom _ _ _

end Token

end EntityAudit.Query
