import EntityAudit.Query.Bytes
import EntityAudit.Proofs.Query.Spans

/-! # Scanning by bytes loses nothing

The loop over bytes goes in step with the scan of characters. Between two lexemes it stands where a
character starts; inside one it may stand within a character only where it looks for a quote. So
slices are cut between characters.
-/

namespace EntityAudit.Query

variable {c : Char}

def utf8 (cs : List Char) : List UInt8 :=
  cs.flatMap String.utf8EncodeChar

theorem length_utf8 (cs : List Char) : (utf8 cs).length = byteSize cs := by
  induction cs with
  | nil => rfl
  | cons c cs ih =>
    rw [utf8, List.flatMap_cons, List.length_append, String.length_utf8EncodeChar, ← utf8, ih,
      byteSize]

theorem toByteArray_eq (text : String) : text.toByteArray = (utf8 text.toList).toByteArray := by
  rw [← String.utf8Encode_toList, List.utf8Encode, utf8]

theorem utf8ByteSize_eq (text : String) : text.utf8ByteSize = byteSize text.toList := by
  rw [← utf8ByteSize_ofList, String.ofList_toList]

theorem utf8EncodeChar_of_lt (ascii : c.toNat < 128) : String.utf8EncodeChar c = [.ofNat c.toNat] :=
  if_pos (Nat.le_of_lt_succ ascii)

theorem utf8Size_of_lt (ascii : c.toNat < 128) : c.utf8Size = 1 := by
  rw [← String.length_utf8EncodeChar, utf8EncodeChar_of_lt ascii]
  rfl

/-- No byte of a character beyond ASCII is an ASCII character. -/
theorem le_of_mem_utf8EncodeChar (other : ¬c.toNat < 128) {b}
    (inside : b ∈ String.utf8EncodeChar c) :
    128 ≤ b.toNat := by
  have large : ¬c.val.toNat ≤ 127 := fun small => other (Nat.lt_succ_of_le small)
  rw [String.utf8EncodeChar, if_neg large] at inside
  split at inside
  · simp only [List.mem_cons, List.not_mem_nil, or_false] at inside
    rcases inside with rfl | rfl <;> simp only [UInt8.toNat_ofNat'] <;> omega
  · split at inside
    · simp only [List.mem_cons, List.not_mem_nil, or_false] at inside
      rcases inside with rfl | rfl | rfl <;> simp only [UInt8.toNat_ofNat'] <;> omega
    · simp only [List.mem_cons, List.not_mem_nil, or_false] at inside
      rcases inside with rfl | rfl | rfl | rfl <;> simp only [UInt8.toNat_ofNat'] <;> omega

theorem toNat_ofNat_byte (b : UInt8) : (Char.ofNat b.toNat).toNat = b.toNat := by
  have small := b.toNat_lt
  rw [Char.ofNat, dif_pos (.inl (by omega))]
  rfl

/-- Only ASCII characters pass the test. -/
class IsAscii (p : Char → Bool) : Prop where
  lt : ∀ {c}, p c = true → c.toNat < 128

theorem IsAscii.eq_false {p} [IsAscii p] (other : ¬c.toNat < 128) : p c = false :=
  Bool.eq_false_iff.mpr fun seen => other (lt seen)

instance {p other} [IsAscii p] [IsAscii other] :
    IsAscii fun c => p c || other c where
  lt seen := by
    rcases Bool.or_eq_true_iff.mp seen with seen | seen
    · exact IsAscii.lt seen
    · exact IsAscii.lt seen

theorem isAscii_beq {d} (ascii : d.toNat < 128) : IsAscii (· == d) :=
  ⟨fun same => eq_of_beq same ▸ ascii⟩

instance : IsAscii Char.isDigit where
  lt seen := by
    simp only [Char.isDigit, Bool.and_eq_true, decide_eq_true_eq, UInt32.le_iff_toNat_le] at seen
    exact Nat.lt_of_le_of_lt seen.2 (by decide)

instance : IsAscii Char.isAlpha where
  lt {c} seen := by
    rcases Bool.or_eq_true_iff.mp seen with upper | lower
    · exact Nat.lt_of_le_of_lt (of_decide_eq_true upper).2 (by decide)
    · have range : (decide (c.val ≥ 'a'.val) && decide (c.val ≤ 'z'.val)) = true := lower
      exact Nat.lt_of_le_of_lt (of_decide_eq_true (Bool.and_eq_true_iff.mp range).2) (by decide)

/-- The characters `cs` end the text, and the first of them stands at byte `i`. -/
def Stands (text : String) (i : Nat) (cs : List Char) : Prop :=
  ∃ before, text.toList = before ++ cs ∧ byteSize before = i

namespace Stands

variable {text : String} {i : Nat} {c : Char} {cs w : List Char} {p : Char → Bool}

theorem size (stands : Stands text i cs) : i + byteSize cs = text.utf8ByteSize := by
  obtain ⟨before, whole, rfl⟩ := stands
  rw [utf8ByteSize_eq, whole, byteSize_append]

theorem lt (stands : Stands text i (c :: cs)) : i < text.utf8ByteSize := by
  have first := c.utf8Size_pos
  rw [← stands.size, byteSize]
  omega

theorem next (stands : Stands text i (w ++ cs)) : Stands text (i + byteSize w) cs := by
  obtain ⟨before, whole, rfl⟩ := stands
  exact ⟨before ++ w, by rw [whole, List.append_assoc], byteSize_append _ _⟩

theorem after (stands : Stands text i (c :: cs)) : Stands text (i + c.utf8Size) cs :=
  stands.next (w := [c])

theorem succ (stands : Stands text i (c :: cs)) (ascii : c.toNat < 128) :
    Stands text (i + 1) cs :=
  utf8Size_of_lt ascii ▸ stands.after

theorem sees_eq (stands : Stands text i cs) (p : Char → Bool) (k : Nat) :
    Bytes.sees text p (i + k) = (utf8 cs)[k]?.any fun b => p (.ofNat b.toNat) := by
  have bytes : (utf8 text.toList)[i + k]? = (utf8 cs)[k]? := by
    obtain ⟨before, whole, rfl⟩ := stands
    rw [whole, utf8, List.flatMap_append, ← utf8, ← utf8, ← length_utf8,
      List.getElem?_append_right (Nat.le_add_right _ _), Nat.add_sub_cancel_left]
  rw [← bytes, Bytes.sees]
  split
  next inside =>
    have inside : i + k < (utf8 text.toList).length := by
      rw [length_utf8, ← utf8ByteSize_eq]
      exact inside
    rw [List.getElem?_eq_getElem inside, Option.any_some, String.getUTF8Byte]
    simp only [toByteArray_eq, List.getElem_toByteArray]
  next outside =>
    rw [List.getElem?_eq_none, Option.any_none]
    rw [length_utf8, ← utf8ByteSize_eq]
    exact Nat.le_of_not_lt outside

theorem sees_within [IsAscii p] (stands : Stands text i (c :: cs)) {k} (inside : k < c.utf8Size)
    (fails : p c = false) : Bytes.sees text p (i + k) = false := by
  rw [← String.length_utf8EncodeChar] at inside
  rw [stands.sees_eq, utf8, List.flatMap_cons, List.getElem?_append_left inside,
    List.getElem?_eq_getElem inside, Option.any_some]
  by_cases ascii : c.toNat < 128
  · simp only [utf8EncodeChar_of_lt ascii, List.length_singleton, Nat.lt_one_iff] at inside
    subst inside
    simp [utf8EncodeChar_of_lt ascii, Nat.mod_eq_of_lt (Nat.lt_trans ascii (by decide : 128 < 256)),
      fails]
  · apply IsAscii.eq_false
    rw [toNat_ofNat_byte]
    exact Nat.not_lt.mpr (le_of_mem_utf8EncodeChar ascii (List.getElem_mem inside))

theorem sees_here [IsAscii p] (stands : Stands text i cs) :
    Bytes.sees text p i = cs.head?.any p := by
  cases cs with
  | nil => exact stands.sees_eq p 0
  | cons c cs =>
    cases passes : p c with
    | false =>
      rw [List.head?_cons, Option.any_some, passes]
      exact stands.sees_within c.utf8Size_pos passes
    | true =>
      have ascii := IsAscii.lt passes
      rw [List.head?_cons, Option.any_some, passes]
      refine (stands.sees_eq p 0).trans ?_
      rw [utf8, List.flatMap_cons, utf8EncodeChar_of_lt ascii]
      simp [Nat.mod_eq_of_lt (Nat.lt_trans ascii (by decide : 128 < 256)), passes]

theorem sees_two {other} [IsAscii p] [IsAscii other] (stands : Stands text i cs) :
    (Bytes.sees text p i && Bytes.sees text other (i + 1)) =
      (cs.head?.any p && cs.tail.head?.any other) := by
  rw [stands.sees_here]
  cases cs with
  | nil => rfl
  | cons c cs =>
    cases passes : p c with
    | false => simp [passes]
    | true => rw [(stands.succ (IsAscii.lt passes)).sees_here, List.tail_cons]

variable {start : Nat}

theorem isValid (stands : Stands text i cs) : String.Pos.Raw.IsValid text ⟨i⟩ := by
  obtain ⟨before, whole, rfl⟩ := stands
  refine String.Pos.Raw.isValid_iff_exists_append.mpr ⟨.ofList before, .ofList cs, ?_, ?_⟩
  · rw [← String.ofList_append, ← whole, String.ofList_toList]
  · rw [← utf8ByteSize_ofList]
    rfl

theorem slice?_eq (first : Stands text start (w ++ cs)) (last : Stands text i cs) :
    Bytes.slice? text start i = some (.ofList w) := by
  obtain rfl : i = start + byteSize w := by
    have whole := first.size
    have rest := last.size
    rw [byteSize_append] at whole
    omega
  rw [Bytes.slice?, dif_pos ⟨first.isValid, last.isValid, Nat.le_add_right _ _⟩, Option.some_inj,
    ← String.toByteArray_inj, String.toByteArray_extract]
  obtain ⟨before, whole, rfl⟩ := first
  have bytes : text.toByteArray = (utf8 before).toByteArray ++
      ((utf8 w).toByteArray ++ (utf8 cs).toByteArray) := by
    simp only [toByteArray_eq, whole, utf8, List.flatMap_append, List.toByteArray_append]
  have sized (cs : List Char) : byteSize cs = (utf8 cs).toByteArray.size := by
    rw [List.size_toByteArray, length_utf8]
  rw [bytes, toByteArray_eq, String.toList_ofList]
  exact (ByteArray.extract_append_size_add' (i := 0) (sized before)).trans
    (ByteArray.extract_append_eq_left (sized w))

theorem of_slice? (stands : Stands text start cs) {slice}
    (cut : Bytes.slice? text start i = some slice) : slice.toList <+: cs := by
  have valid : String.Pos.Raw.IsValid text ⟨i⟩ ∧ start ≤ i := by
    rw [Bytes.slice?] at cut
    split at cut
    next valid => exact valid.2
    next => cases cut
  obtain ⟨front, back, split, place⟩ := String.Pos.Raw.isValid_iff_exists_append.mp valid.1
  have place : byteSize front.toList = i := by
    rw [← utf8ByteSize_eq]
    exact congrArg String.Pos.Raw.byteIdx place.symm
  have last : Stands text i back.toList := ⟨front.toList, by rw [split, String.toList_append], place⟩
  obtain ⟨middle, parts⟩ : ∃ middle, cs = middle ++ back.toList := by
    obtain ⟨before, whole, rfl⟩ := id stands
    rw [split, String.toList_append] at whole
    rcases List.append_eq_append_iff.mp whole with ⟨extra, before', back'⟩ | ⟨middle, -, parts⟩
    · cases extra with
      | nil => exact ⟨[], back'.symm⟩
      | cons c extra =>
        have far := byteSize_pos (List.cons_ne_nil c extra)
        have near := valid.2
        rw [before', byteSize_append] at near
        omega
    · exact ⟨middle, parts⟩
  rw [parts] at stands
  obtain rfl := Option.some.inj (cut.symm.trans (stands.slice?_eq last))
  rw [parts, String.toList_ofList]
  exact List.prefix_append _ _

end Stands

namespace Bytes

variable {text : String} {i start : Nat} {c : Char} {cs : List Char} {p : Char → Bool}

theorem skipWhile_stands [IsAscii p] (stands : Stands text i cs) :
    Stands text (skipWhile text p i) (cs.dropWhile p) := by
  induction cs generalizing i with
  | nil =>
    rw [skipWhile, dif_neg (by simp [stands.sees_here])]
    exact stands
  | cons c cs ih =>
    have here : sees text p i = p c := stands.sees_here
    by_cases passes : p c = true
    · rw [skipWhile, dif_pos (here.trans passes), List.dropWhile_cons_of_pos passes]
      exact ih (stands.succ (IsAscii.lt passes))
    · rw [skipWhile, dif_neg (here ▸ passes), List.dropWhile_cons_of_neg passes]
      exact stands

instance : IsAscii (· == '.') := isAscii_beq (by decide)

instance : IsAscii (· == '\'') := isAscii_beq (by decide)

instance : IsAscii (· == ':') := isAscii_beq (by decide)

instance : IsAscii (· == '?') := isAscii_beq (by decide)

instance : IsAscii (· == '_') := isAscii_beq (by decide)

instance : IsAscii (· == '\\') := isAscii_beq (by decide)

instance : IsAscii (· == '+') := isAscii_beq (by decide)

instance : IsAscii (· == '-') := isAscii_beq (by decide)

instance : IsAscii (· == 'e') := isAscii_beq (by decide)

instance : IsAscii (· == 'E') := isAscii_beq (by decide)

instance : IsAscii Char.isAlphanum :=
  inferInstanceAs (IsAscii fun c => c.isAlpha || c.isDigit)

instance : IsAscii isWordStart :=
  inferInstanceAs (IsAscii fun c => c.isAlpha || c == '_' || c == '\\')

instance : IsAscii isWordChar :=
  inferInstanceAs (IsAscii fun c => c.isAlphanum || c == '_' || c == '\\')

instance : IsAscii isParameterStart :=
  inferInstanceAs (IsAscii fun c => c.isAlpha || c == '_')

instance : IsAscii isParameterChar :=
  inferInstanceAs (IsAscii fun c => c.isAlphanum || c == '_')

theorem fraction_stands (stands : Stands text i cs) :
    (fraction text i).1 = (if (Query.fraction cs).1.isEmpty then .integer else .float) ∧
      Stands text (fraction text i).2 (Query.fraction cs).2 := by
  rw [fraction, stands.sees_two]
  fun_cases Query.fraction cs with
  | case1 d rest digit =>
    have there := skipWhile_stands (p := Char.isDigit) (stands.succ (by decide))
    rw [List.dropWhile_cons_of_pos digit] at there
    simp [digit, there]
  | case2 d rest other => simp [other, stands]
  | case3 cs other =>
    have plain : (cs.head?.any (· == '.') && cs.tail.head?.any Char.isDigit) = false := by
      rcases cs with _ | ⟨c, _ | ⟨d, rest⟩⟩
      · rfl
      · exact Bool.and_false _
      · have differs : (c == '.') = false :=
          beq_eq_false_iff_ne.mpr fun point => other d rest (point ▸ rfl)
        simp [differs]
    rw [plain]
    exact ⟨rfl, stands⟩

theorem exponentSign_stands (stands : Stands text i cs) :
    Stands text (if sees text (fun c => c == '+' || c == '-') i then i + 1 else i)
      (exponentSign cs).2 := by
  rw [stands.sees_here]
  fun_cases exponentSign cs with
  | case1 rest => exact stands.succ (by decide)
  | case2 rest => exact stands.succ (by decide)
  | case3 cs noPlus noMinus =>
    cases cs with
    | nil => exact stands
    | cons c cs =>
      have plus : (c == '+') = false := beq_eq_false_iff_ne.mpr fun same => noPlus cs (same ▸ rfl)
      have minus : (c == '-') = false := beq_eq_false_iff_ne.mpr fun same => noMinus cs (same ▸ rfl)
      rw [List.head?_cons, Option.any_some, plus, minus]
      exact stands

theorem exponent_stands (kind : TokenKind) (stands : Stands text i cs) :
    (exponent text kind i).1 = (if (Query.exponent cs).1.isEmpty then kind else .float) ∧
      Stands text (exponent text kind i).2 (Query.exponent cs).2 := by
  rw [exponent, stands.sees_here]
  cases cs with
  | nil => exact ⟨rfl, stands⟩
  | cons e rest =>
    rw [Query.exponent, List.head?_cons, Option.any_some]
    cases mark : e == 'e' || e == 'E' with
    | false => exact ⟨rfl, stands⟩
    | true =>
      have digits := exponentSign_stands
        (stands.succ (IsAscii.lt (p := fun c => c == 'e' || c == 'E') mark))
      have there := skipWhile_stands (p := Char.isDigit) digits
      simp only [if_true, digits.sees_here]
      generalize exponentSign rest = parts at digits there ⊢
      obtain ⟨sign, ds⟩ := parts
      cases ds with
      | nil => exact ⟨rfl, stands⟩
      | cons d ds =>
        cases digit : d.isDigit with
        | false => simp [digit, stands]
        | true =>
          rw [List.dropWhile_cons_of_pos digit] at there
          simp [digit, there]

theorem quoted_skip (stands : Stands text i (c :: cs)) (other : (c == '\'') = false)
    (value : String) (chunk : Nat) :
    quoted text value chunk i = quoted text value chunk (i + c.utf8Size) := by
  have upTo (k : Nat) (short : k ≤ c.utf8Size) :
      quoted text value chunk i = quoted text value chunk (i + k) := by
    induction k with
    | zero => rfl
    | succ k ih =>
      have inside : i + k < text.utf8ByteSize := by
        have size := stands.size
        rw [byteSize] at size
        omega
      rw [ih (Nat.le_of_succ_le short), quoted, if_pos inside,
        stands.sees_within (p := (· == '\'')) short other]
      rfl
  exact upTo _ (Nat.le_refl _)

/-- The rest of a quoted text, of which `pending` was read since the last quote. -/
theorem quoted_stands (pending : List Char) {chunk} (value : String) (stands : Stands text i cs)
    (behind : Stands text chunk (pending ++ cs)) :
    match quoted? cs with
    | none => quoted text value chunk i = some none
    | some (literal, rest) => ∃ j, Stands text j rest ∧
        quoted text value chunk i = some (some (value ++ .ofList (pending ++ literal), j)) := by
  fun_induction quoted? cs generalizing i value pending chunk with
  | case1 =>
    have outside : ¬i < text.utf8ByteSize := by
      rw [← stands.size]
      exact Nat.lt_irrefl _
    rw [quoted, if_neg outside]
  | case2 rest ih =>
    have second := stands.succ (by decide)
    have third := second.succ (by decide)
    rw [quoted, if_pos stands.lt, stands.sees_here, second.sees_here, behind.slice?_eq stands]
    have later := ih [] ((value ++ .ofList pending).push '\'') third third
    simp only [List.head?_cons, Option.any_some, beq_self_eq_true, if_true, Option.bind_eq_bind,
      Option.bind_some]
    cases closed : quoted? rest with
    | none =>
      rw [closed] at later
      exact later
    | some parts =>
      rw [closed] at later
      obtain ⟨j, there, read⟩ := later
      refine ⟨j, there, read.trans ?_⟩
      simp [← String.toList_inj]
  | case3 c rest alone quote =>
    obtain rfl := eq_of_beq quote
    have second := stands.succ (by decide)
    have single : rest.head?.any (· == '\'') = false := by
      cases rest with
      | nil => rfl
      | cons d rest => exact beq_eq_false_iff_ne.mpr fun same => alone rest rfl (same ▸ rfl)
    rw [quoted, if_pos stands.lt, stands.sees_here, second.sees_here, behind.slice?_eq stands, single]
    exact ⟨i + 1, second, by simp⟩
  | case4 c rest _ other ih =>
    have later := ih (pending ++ [c]) value stands.after (by simpa using behind)
    rw [quoted_skip stands (Bool.eq_false_iff.mpr other)]
    cases closed : quoted? rest with
    | none =>
      rw [closed] at later
      exact later
    | some parts =>
      rw [closed] at later
      simpa using later

instance : IsAscii Text.isAsciiBlank where
  lt blank := by
    simp only [Text.isAsciiBlank, Bool.or_eq_true, beq_iff_eq] at blank
    rcases blank with (((rfl | rfl) | rfl) | rfl) | rfl <;> decide

/-- What was found at a byte is the lexeme `l`, and what follows is what stands after it. -/
def Reads (text : String) (l : Lexeme) (found : Option Found) : Prop :=
  ∃ j, found = some ⟨l.kind, .ofList l.value, j⟩ ∧ Stands text j l.rest

theorem contains_pair {pair} :
    ["<>", "<=", ">=", "!="].contains pair = true ↔
      ∃ c d, isOperatorPair c d = true ∧ pair = .ofList [c, d] := by
  constructor
  · intro known
    simp only [List.contains_cons, List.contains_nil, Bool.or_false, Bool.or_eq_true,
      beq_iff_eq] at known
    rcases known with rfl | rfl | rfl | rfl
    · exact ⟨'<', '>', rfl, rfl⟩
    · exact ⟨'<', '=', rfl, rfl⟩
    · exact ⟨'>', '=', rfl, rfl⟩
    · exact ⟨'!', '=', rfl, rfl⟩
  · rintro ⟨c, d, forms, rfl⟩
    simp only [isOperatorPair, Bool.or_eq_true, Bool.and_eq_true, beq_iff_eq] at forms
    rcases forms with ⟨rfl, rfl | rfl⟩ | ⟨rfl | rfl, rfl⟩ <;> decide

theorem isAscii_of_isOperatorPair {d} (forms : isOperatorPair c d = true) :
    c.toNat < 128 ∧ d.toNat < 128 := by
  simp only [isOperatorPair, Bool.or_eq_true, Bool.and_eq_true, beq_iff_eq] at forms
  rcases forms with ⟨rfl, rfl | rfl⟩ | ⟨rfl | rfl, rfl⟩ <;> decide

theorem symbol_single (stands : Stands text i (c :: cs))
    (alone : ["<>", "<=", ">=", "!="].contains ((slice? text i (i + 2)).getD "") = false) :
    symbol text i = some ⟨symbolKind c, .ofList [c], i + c.utf8Size⟩ := by
  have last : Stands text text.utf8ByteSize [] :=
    stands.size ▸ Stands.next (show Stands text i ((c :: cs) ++ []) by simpa using stands)
  have whole := Stands.slice?_eq (w := c :: cs) (by simpa using stands) last
  rw [symbol, alone, whole]
  simp

theorem symbol_found (stands : Stands text i (c :: cs)) :
    Reads text (symbolLexeme c cs) (symbol text i) := by
  cases pairs : ["<>", "<=", ">=", "!="].contains ((slice? text i (i + 2)).getD "") with
  | true =>
    obtain ⟨a, d, forms, pair⟩ := contains_pair.mp pairs
    have cut : slice? text i (i + 2) = some (.ofList [a, d]) := by
      cases cut : slice? text i (i + 2) with
      | none =>
        rw [cut, ← String.toList_inj] at pair
        simp at pair
      | some slice =>
        rw [cut] at pair
        rw [show slice = .ofList [a, d] from pair]
    obtain ⟨rest, parts⟩ := stands.of_slice? cut
    rw [String.toList_ofList, List.cons_append, List.cons_append, List.nil_append] at parts
    obtain ⟨rfl, rfl⟩ := List.cons.inj parts
    obtain ⟨first, second⟩ := isAscii_of_isOperatorPair forms
    rw [symbol, pairs, pair, symbolLexeme, if_pos forms]
    exact ⟨i + 2, rfl, (stands.succ first).succ second⟩
  | false =>
    rw [symbol_single stands pairs]
    cases cs with
    | nil => exact ⟨_, rfl, stands.after⟩
    | cons d rest =>
      have single : ¬isOperatorPair c d = true := by
        intro forms
        obtain ⟨first, second⟩ := isAscii_of_isOperatorPair forms
        have cut := Stands.slice?_eq (w := [c, d]) stands ((stands.succ first).succ second)
        rw [cut] at pairs
        exact absurd (contains_pair.mpr ⟨c, d, forms, rfl⟩) (Bool.eq_false_iff.mp pairs)
      rw [symbolLexeme, if_neg single]
      exact ⟨_, rfl, stands.after⟩

theorem word_found (stands : Stands text i (c :: cs)) (word : isWordStart c = true) :
    Reads text (wordLexeme c cs) (do
      let j := skipWhile text isWordChar (i + 1)
      let word ← slice? text i j
      return ⟨if word.toList.contains '\\' then .qualifiedName else .identifier, word, j⟩) := by
  have there := skipWhile_stands (p := isWordChar) (stands.succ (IsAscii.lt word))
  have cut := Stands.slice?_eq (w := c :: cs.takeWhile isWordChar) (by simpa using stands) there
  exact ⟨_, by simp [cut, wordLexeme], there⟩

theorem number_found (stands : Stands text i (c :: cs)) (digit : c.isDigit = true) :
    Reads text (numberLexeme c cs) (do
      let (kind, j) := fraction text (skipWhile text Char.isDigit i)
      let (kind, j) := exponent text kind j
      return ⟨kind, ← slice? text i j, j⟩) := by
  have digits := skipWhile_stands (p := Char.isDigit) stands
  rw [List.dropWhile_cons_of_pos digit] at digits
  obtain ⟨pointed, afterPoint⟩ := fraction_stands digits
  obtain ⟨ended, there⟩ :=
    exponent_stands (fraction text (skipWhile text Char.isDigit i)).1 afterPoint
  have here : Stands text i ((numberLexeme c cs).value ++ (numberLexeme c cs).rest) := by
    rwa [numberLexeme_value]
  have cut := here.slice?_eq there
  refine ⟨_, ?_, there⟩
  rw [pointed] at ended
  simp only [cut, Option.bind_eq_bind, Option.bind_some]
  rw [pointed, ended]
  simp only [numberLexeme]
  cases (Query.fraction (cs.dropWhile Char.isDigit)).1.isEmpty <;>
    cases (Query.exponent (Query.fraction (cs.dropWhile Char.isDigit)).2).1.isEmpty <;> rfl

theorem parameter_found {p} [IsAscii p] (stands : Stands text i (c :: cs))
    (ascii : c.toNat < 128) :
    Reads text ⟨.parameter, c :: cs.takeWhile p, cs.dropWhile p⟩ (do
      let j := skipWhile text p (i + 1)
      return ⟨.parameter, ← slice? text i j, j⟩) := by
  have there := skipWhile_stands (p := p) (stands.succ ascii)
  have cut := Stands.slice?_eq (w := c :: cs.takeWhile p) (by simpa using stands) there
  exact ⟨_, by simp [cut], there⟩

theorem isParameterChar_of_start (named : isParameterStart c = true) :
    isParameterChar c = true := by
  simp only [isParameterStart, Bool.or_eq_true] at named
  rcases named with letter | line
  · simp [isParameterChar, Char.isAlphanum, letter]
  · simp [isParameterChar, line]

theorem lexeme_found (stands : Stands text i (c :: cs)) :
    Reads text (Query.lexeme c cs) (lexeme text i) := by
  rw [lexeme, stands.sees_two]
  simp only [stands.sees_here, List.head?_cons, Option.any_some, List.tail_cons]
  fun_cases Query.lexeme c cs with
  | case1 word =>
    rw [if_pos word]
    exact word_found stands word
  | case2 noWord digit =>
    rw [if_neg noWord, if_pos digit]
    exact number_found stands digit
  | case3 noWord noDigit quote literal rest closed =>
    rw [if_neg noWord, if_neg noDigit, if_pos quote]
    have behind := stands.succ (IsAscii.lt (p := (· == '\'')) quote)
    have read := quoted_stands [] "" behind behind
    rw [closed] at read
    obtain ⟨j, there, read⟩ := read
    rw [read]
    exact ⟨j, by simp, there⟩
  | case4 noWord noDigit quote never =>
    rw [if_neg noWord, if_neg noDigit, if_pos quote]
    have behind := stands.succ (IsAscii.lt (p := (· == '\'')) quote)
    have read := quoted_stands [] "" behind behind
    rw [never] at read
    rw [read]
    exact ⟨i + 1, rfl, behind⟩
  | case5 noWord noDigit noQuote colon =>
    obtain rfl := eq_of_beq colon
    rw [if_neg noWord, if_neg noDigit, if_neg noQuote]
    fun_cases colonLexeme cs with
    | case1 d rest named =>
      have read := parameter_found (p := isParameterChar) stands (by decide)
      rw [List.takeWhile_cons_of_pos (isParameterChar_of_start named),
        List.dropWhile_cons_of_pos (isParameterChar_of_start named)] at read
      rw [List.head?_cons, Option.any_some, named]
      exact read
    | case2 d rest other =>
      rw [List.head?_cons, Option.any_some, Bool.eq_false_iff.mpr other]
      exact symbol_found stands
    | case3 => exact symbol_found stands
  | case6 noWord noDigit noQuote noColon mark =>
    have none : (c == ':' && cs.head?.any isParameterStart) = false := by simp [noColon]
    rw [if_neg noWord, if_neg noDigit, if_neg noQuote, none, if_pos mark]
    obtain rfl := eq_of_beq mark
    exact parameter_found stands (by decide)
  | case7 noWord noDigit noQuote noColon noMark =>
    have none : (c == ':' && cs.head?.any isParameterStart) = false := by simp [noColon]
    rw [if_neg noWord, if_neg noDigit, if_neg noQuote, none, if_neg noMark]
    exact symbol_found stands

theorem scanFrom_stands (stands : Stands text i cs) :
    scanFrom text i = some (Token.scanFrom i cs) := by
  fun_induction Token.scanFrom i cs with
  | case1 i =>
    have outside : ¬i < text.utf8ByteSize := by
      rw [← stands.size]
      exact Nat.lt_irrefl _
    rw [scanFrom, if_neg outside]
  | case2 i c cs blank ih =>
    rw [scanFrom, if_pos stands.lt, stands.sees_here, List.head?_cons, Option.any_some, if_pos blank]
    exact ih (stands.succ (IsAscii.lt blank))
  | case3 i c cs solid found ih =>
    obtain ⟨j, read, there⟩ : Reads text found (lexeme text i) := lexeme_found stands
    have here := stands.size
    have later := there.size
    have parts : byteSize (c :: cs) = byteSize found.source + byteSize found.rest := by
      rw [← byteSize_append, lexeme_source]
    have next : i + (byteSize (c :: cs) - byteSize found.rest) = j := by omega
    have onward : i < j := by
      have solid : 0 < byteSize found.source := byteSize_pos (lexeme_source_ne_nil c cs)
      omega
    rw [next] at ih ⊢
    rw [scanFrom, if_pos stands.lt, stands.sees_here, List.head?_cons, Option.any_some,
      if_neg solid, read]
    simp [onward, ih there]

/-- No slice fails and every loop ends. -/
theorem scan_eq (text : String) : scan text = some (Token.scan text) :=
  scanFrom_stands ⟨[], rfl, rfl⟩

end Bytes

/-- Scanning loses nothing. The loop over bytes ends for any text without a slice that fails, with
    the tokens of the scan. The characters of the text are those of its tokens, each at the byte it
    says, with ASCII blanks before, between and after; both ends of a token are boundaries of
    characters, tokens follow each other without overlap, and a token is spelled as its value,
    quoted texts in quotes and with their quotes doubled. -/
theorem Token.scan_lossless (text : String) :
    Bytes.scan text = some (Token.scan text) ∧
      Tiles 0 (Token.scan text) text.toList ∧
      ((Token.scan text).Pairwise fun t u =>
        t.position < u.position ∧ t.position + byteSize t.source ≤ u.position) ∧
      ∀ t ∈ Token.scan text,
        (∃ before after : String, text = before ++ String.ofList t.source ++ after ∧
          before.utf8ByteSize = t.position) ∧
        String.Pos.Raw.IsValid text ⟨t.position⟩ ∧
        String.Pos.Raw.IsValid text ⟨t.position + byteSize t.source⟩ ∧
        t.source =
          if t.kind = .string then '\'' :: doubleQuotes t.value.toList ++ ['\'']
          else t.value.toList := by
  have tiles : Tiles 0 (Token.scan text) text.toList := Token.scanFrom_tiles 0 text.toList
  refine ⟨Bytes.scan_eq text, tiles, ?_, ?_⟩
  · apply tiles.pairwise.imp_of_mem
    intro t u inside _ apart
    have solid := byteSize_pos (tiles.split inside).1
    exact ⟨by omega, apart⟩
  · intro t inside
    obtain ⟨-, before, after, parts, place⟩ := tiles.split inside
    have whole : text = String.ofList before ++ String.ofList t.source ++ String.ofList after := by
      rw [← String.ofList_append, ← String.ofList_append, ← parts, String.ofList_toList]
    have size : (String.ofList before).utf8ByteSize = t.position := by
      rw [utf8ByteSize_ofList, place, Nat.zero_add]
    have stands : Stands text t.position (t.source ++ after) :=
      ⟨before, by rw [parts, List.append_assoc], by rw [place, Nat.zero_add]⟩
    refine ⟨⟨_, _, whole, size⟩, stands.isValid, stands.next.isValid, ?_⟩
    rw [Token.source, sourceOf.eq_def]
    cases t.kind <;> rfl

end EntityAudit.Query
