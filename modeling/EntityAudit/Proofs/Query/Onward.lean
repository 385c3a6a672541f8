import EntityAudit.Proofs.Outcome
import EntityAudit.Query.Reading

/-! # Readers move on

A reader takes tokens off the front and never puts one back, with success or without, and most
readers take a token at least when they succeed. These are classes, so that they are found by how a
reader is put together.
-/

namespace EntityAudit.Query

/-- Reading goes from `c` to `c'` past the tokens `taken`, and notes `noted`. -/
structure Cursor.Passes (c c' : Cursor) (taken : List Token) (noted : List Mention) : Prop where
  rest : c.rest = taken ++ c'.rest
  mentions : c'.mentions = c.mentions ++ noted

namespace Cursor.Passes

variable {c₁ c₂ c₃ : Cursor} {taken taken' : List Token} {noted noted' : List Mention}

theorem refl (c : Cursor) : c.Passes c [] [] :=
  ⟨rfl, (List.append_nil _).symm⟩

theorem trans (first : c₁.Passes c₂ taken noted) (second : c₂.Passes c₃ taken' noted') :
    c₁.Passes c₃ (taken ++ taken') (noted ++ noted') where
  rest := by rw [first.rest, second.rest, List.append_assoc]
  mentions := by rw [second.mentions, first.mentions, List.append_assoc]

theorem token {c : Cursor} {token rest} (here : c.rest = token :: rest) :
    c.Passes ⟨rest, c.mentions⟩ [token] [] :=
  ⟨here, (List.append_nil _).symm⟩

theorem noting {c : Cursor} {token rest} (here : c.rest = token :: rest) (mention : Mention) :
    c.Passes ⟨rest, c.mentions ++ [mention]⟩ [token] [mention] :=
  ⟨here, rfl⟩

theorem length_eq (passed : c₁.Passes c₂ taken noted) :
    c₁.rest.length = taken.length + c₂.rest.length := by
  rw [passed.rest, List.length_append]

theorem length_lt {t} (passed : c₁.Passes c₂ (t :: taken) noted) :
    c₂.rest.length < c₁.rest.length := by
  rw [passed.length_eq, List.length_cons]
  omega

end Cursor.Passes

namespace Read

variable {accept : Token → Bool} {sub : Read Select}

variable {α : Type} {c c' : Cursor}
variable {u : Unit} {word : String}

theorem failExpected_ok {what} {a : α} : failExpected what c = .ok a c' ↔ False := by
  simp [failExpected, bind_ok, throw_ok]

theorem failUnexpected_ok {a : α} : failUnexpected c = .ok a c' ↔ False := by
  simp [failUnexpected, bind_ok, throw_ok]

theorem peekAt_ok {offset next} :
    peekAt offset c = .ok next c' ↔ c.rest[offset]? = next ∧ c = c' := by
  simp only [peekAt, bind_ok, get_ok, pure_ok]
  grind

theorem peek_ok {next} : peek c = .ok next c' ↔ c.rest.head? = next ∧ c = c' := by
  simp only [peek, bind_ok, get_ok, pure_ok]
  grind

theorem advance_cons {token rest} (here : c.rest = token :: rest) :
    advance c = .ok () ⟨rest, c.mentions⟩ := by
  rw [advance, get_bind, here]
  rfl

theorem note_ok {mention} : note mention c = .ok u c' ↔ ⟨c.rest, c.mentions ++ [mention]⟩ = c' :=
  modify_ok

theorem sees_ok {seen} :
    sees word c = .ok seen c' ↔ c.rest.head?.any (·.isWord word) = seen ∧ c = c' := by
  simp only [sees, bind_ok, peek_ok, pure_ok]
  grind

theorem eat?_ok {found} (read : eat? accept c = .ok found c') :
    (∃ token, c.Passes c' [token] [] ∧ accept token ∧ found = some token) ∨
      (found = none ∧ c = c') := by
  obtain ⟨next, _, seen, taken⟩ := bind_ok.mp read
  obtain ⟨rfl, rfl⟩ := peek_ok.mp seen
  cases remaining : c.rest with
  | nil =>
    simp only [remaining, List.head?_nil, pure_ok] at taken
    exact .inr ⟨taken.1.symm, taken.2⟩
  | cons token rest =>
    simp only [remaining, List.head?_cons] at taken
    split at taken
    next approved =>
      rw [bind_of_ok (advance_cons remaining)] at taken
      obtain ⟨rfl, rfl⟩ := pure_ok.mp taken
      exact .inl ⟨token, .token remaining, approved, rfl⟩
    next => exact .inr ⟨(pure_ok.mp taken).1.symm, (pure_ok.mp taken).2⟩

theorem eaten_ok {seen} (read : (do return (← eat? accept).isSome) c = .ok seen c') :
    (seen = true ∧ ∃ token, c.Passes c' [token] [] ∧ accept token) ∨ (seen = false ∧ c = c') := by
  obtain ⟨found, _, eaten, same⟩ := bind_ok.mp read
  obtain ⟨rfl, rfl⟩ := pure_ok.mp same
  rcases eat?_ok eaten with ⟨token, passed, approved, rfl⟩ | ⟨rfl, rfl⟩
  · exact .inl ⟨rfl, token, passed, approved⟩
  · exact .inr ⟨rfl, rfl⟩

theorem eatWord_ok {seen} (read : eatWord word c = .ok seen c') :
    (seen = true ∧ ∃ token, c.Passes c' [token] [] ∧ token.isWord word) ∨ (seen = false ∧ c = c') :=
  eaten_ok read

theorem eatKind_ok {kind seen} (read : eatKind kind c = .ok seen c') :
    (seen = true ∧ ∃ token, c.Passes c' [token] [] ∧ token.kind = kind) ∨
      (seen = false ∧ c = c') := by
  simpa only [beq_iff_eq] using eaten_ok read

theorem expect_ok {name} {token : Token} (read : expect accept name c = .ok token c') :
    c.Passes c' [token] [] ∧ accept token := by
  obtain ⟨found, _, eaten, same⟩ := bind_ok.mp read
  rcases eat?_ok eaten with ⟨next, passed, approved, rfl⟩ | ⟨rfl, rfl⟩
  · obtain ⟨rfl, rfl⟩ := pure_ok.mp same
    exact ⟨passed, approved⟩
  · exact (failExpected_ok.mp same).elim

theorem expectWord_ok (read : expectWord word c = .ok u c') :
    ∃ token, c.Passes c' [token] [] ∧ token.isWord word := by
  obtain ⟨token, taken⟩ := discard_ok.mp read
  exact ⟨token, expect_ok taken⟩

theorem sees_of_expectWord (read : expectWord word c = .ok u c') :
    c.rest.head?.any (·.isWord word) = true := by
  obtain ⟨token, passed, is⟩ := expectWord_ok read
  rw [passed.rest]
  exact is

theorem expectIdentifier_ok {token} (read : expectIdentifier c = .ok token c') :
    c.Passes c' [token] [] ∧ token.kind = .identifier := by
  obtain ⟨passed, approved⟩ := expect_ok read
  exact ⟨passed, eq_of_beq approved⟩

theorem expectDot_ok (read : expectDot c = .ok u c') :
    ∃ token, c.Passes c' [token] [] ∧ token.kind = .dot := by
  obtain ⟨token, taken⟩ := discard_ok.mp read
  obtain ⟨passed, approved⟩ := expect_ok taken
  exact ⟨token, passed, eq_of_beq approved⟩

theorem note_passes {mention} (read : note mention c = .ok u c') : c.Passes c' [] [mention] := by
  cases note_ok.mp read
  exact ⟨rfl, rfl⟩

theorem eat?_passes {t} (approved : accept t = true) (passed : c.Passes c' [t] []) :
    eat? accept c = .ok (some t) c' := by
  obtain ⟨rest, ms⟩ := c
  obtain ⟨rest', ms'⟩ := c'
  obtain rfl : rest = t :: rest' := passed.rest
  obtain rfl : ms' = ms := passed.mentions.trans (List.append_nil _)
  have seen : peek ⟨t :: rest', ms'⟩ = .ok (some t) ⟨t :: rest', ms'⟩ := rfl
  rw [eat?, bind_of_ok seen]
  simp only [approved, if_true]
  rfl

theorem eat?_none (refused : c.rest.head?.any accept = false) : eat? accept c = .ok none c := by
  have seen : peek c = .ok c.rest.head? c := rfl
  rw [eat?, bind_of_ok seen]
  cases head : c.rest.head? with
  | none => rfl
  | some t =>
    rw [head, Option.any_some] at refused
    simp only [refused, Bool.false_eq_true, if_false]
    rfl

theorem refused_of_eat?_none (read : eat? accept c = .ok none c') :
    c.rest.head?.any accept = false := by
  cases here : c.rest with
  | nil => rfl
  | cons t rest =>
    rw [List.head?_cons, Option.any_some]
    cases approved : accept t with
    | false => rfl
    | true =>
      rw [eat?_passes approved (.token here)] at read
      cases read

theorem expect_passes (name : String) {t} (approved : accept t = true)
    (passed : c.Passes c' [t] []) :
    expect accept name c = .ok t c' := by
  rw [expect, bind_of_ok (eat?_passes approved passed)]
  rfl

end Read

def linkKinds : List TokenKind :=
  [.identifier, .qualifiedName, .dot, .comma, .operator]

/-- Reading from `c` to `c'` goes past tokens of these kinds only. -/
def Cursor.Links (c c' : Cursor) : Prop :=
  ∃ taken, c.rest = taken ++ c'.rest ∧ ∀ t ∈ taken, t.kind ∈ linkKinds

/-- The same, and nothing is noted. -/
def Cursor.Skips (c c' : Cursor) : Prop :=
  ∃ taken, c.Passes c' taken [] ∧ ∀ t ∈ taken, t.kind ∈ linkKinds

/-- Reading from `c` to `c'` goes past some tokens. -/
abbrev Cursor.Reaches (c c' : Cursor) : Prop :=
  c'.rest <:+ c.rest

/-- Ways through a text that readers of words and a few signs take. -/
class Passage (R : Cursor → Cursor → Prop) : Prop where
  refl : ∀ c, R c c
  trans : ∀ {c c' c''}, R c c' → R c' c'' → R c c''
  link : ∀ {c c' t}, c.Passes c' [t] [] → t.kind ∈ linkKinds → R c c'

/-- Ways on which anything may be noted. -/
class FreePassage (R : Cursor → Cursor → Prop) : Prop extends Passage R where
  note : ∀ c m, R c ⟨c.rest, c.mentions ++ [m]⟩

instance : FreePassage Cursor.Reaches where
  refl c := List.suffix_refl c.rest
  trans first second := second.trans first
  link passed _ := ⟨_, passed.rest.symm⟩
  note c _ := List.suffix_refl c.rest

instance : FreePassage Cursor.Links where
  refl _ := ⟨[], rfl, List.forall_mem_nil _⟩
  trans := by
    rintro c c' c'' ⟨taken, rest, links⟩ ⟨taken', rest', links'⟩
    exact ⟨taken ++ taken', by rw [rest, rest', List.append_assoc],
      List.forall_mem_append.mpr ⟨links, links'⟩⟩
  link passed link := ⟨_, passed.rest, List.forall_mem_singleton.mpr link⟩
  note _ _ := ⟨[], rfl, List.forall_mem_nil _⟩

instance : Passage Cursor.Skips where
  refl c := ⟨[], .refl c, List.forall_mem_nil _⟩
  trans := by
    rintro c c' c'' ⟨taken, passed, links⟩ ⟨taken', passed', links'⟩
    exact ⟨taken ++ taken', passed.trans passed', List.forall_mem_append.mpr ⟨links, links'⟩⟩
  link passed link := ⟨_, passed, List.forall_mem_singleton.mpr link⟩

theorem Token.kind_of_isWord {t : Token} {word} (same : t.isWord word = true) :
    t.kind = .identifier := by
  simp only [isWord, Bool.and_eq_true] at same
  exact eq_of_beq same.1

theorem Token.link_of_isName {t : Token} (named : t.isName = true) : t.kind ∈ linkKinds := by
  simp only [isName, Bool.or_eq_true, beq_iff_eq] at named
  rcases named with word | qualified
  · exact word ▸ by decide
  · exact qualified ▸ by decide

namespace Read

variable {α β : Type} {R : Cursor → Cursor → Prop}

/-- A reader came from `c` where `R` allows, with success or without, and not past the end. -/
inductive Arrives (R : Cursor → Cursor → Prop) (c : Cursor) :
    EStateM.Result Fault Cursor α → Prop
  | ok {a d} (way : R c d) : Arrives R c (.ok a d)
  | error {e d} (way : R c d) (inside : e ≠ .pastEnd) : Arrives R c (.error e d)

/-- A reader that keeps to such ways. -/
class Moves (R : Cursor → Cursor → Prop) (x : Read α) : Prop where
  moves : ∀ c, Arrives R c (x c)

abbrev Onward (x : Read α) : Prop :=
  Moves Cursor.Reaches x

/-- A reader that takes a token at least, unless it fails. -/
class Advances (x : Read α) : Prop where
  onward : Onward x := by infer_instance
  advances : ∀ {c a d}, x c = .ok a d → d.rest.length < c.rest.length

instance (priority := low) {x : Read α} [Advances x] : Onward x :=
  Advances.onward

/-- Tokens that pass the test may stand on such ways. -/
class Accepts (R : Cursor → Cursor → Prop) (accept : Token → Bool) : Prop where
  accepts : ∀ {c c' t}, c.Passes c' [t] [] → accept t = true → R c c'

theorem Accepts.both (accept : Token → Bool) {other : Token → Bool} [Accepts R accept] :
    Accepts R fun t => accept t && other t :=
  ⟨fun passed both => accepts passed (Bool.and_eq_true_iff.mp both).1⟩

instance (accept : Token → Bool) : Accepts Cursor.Reaches accept :=
  ⟨fun passed _ => ⟨_, passed.rest.symm⟩⟩

section Combinators

variable {x y : Read α} {f : α → Read β} {c d : Cursor} {a : α} {e : Fault}

theorem Moves.ok [Moves R x] (read : x c = .ok a d) : R c d := by
  have arrives : Arrives R c (x c) := moves c
  rw [read] at arrives
  cases arrives with
  | ok way => exact way

theorem onward_of_ok [Onward x] (read : x c = .ok a d) : d.rest <:+ c.rest :=
  Moves.ok (R := Cursor.Reaches) read

theorem skips_of_ok [Moves Cursor.Skips x] (read : x c = .ok a d) :
    ∃ taken, c.Passes d taken [] := by
  obtain ⟨taken, passed, -⟩ := Moves.ok (R := Cursor.Skips) read
  exact ⟨taken, passed⟩

theorem length_le_of_ok [Onward x] (read : x c = .ok a d) : d.rest.length ≤ c.rest.length :=
  (onward_of_ok read).length_le

variable [Passage R]

theorem Arrives.trans {r : EStateM.Result Fault Cursor α} (first : R c d) (second : Arrives R d r) :
    Arrives R c r := by
  cases second with
  | ok way => exact .ok (Passage.trans first way)
  | error way inside => exact .error (Passage.trans first way) inside

instance : Moves R (pure a) := ⟨fun c => .ok (Passage.refl c)⟩

instance Moves.bind [Moves R x] [∀ a, Moves R (f a)] : Moves R (x >>= f) where
  moves c := by
    have first : Arrives R c (x c) := moves c
    cases read : x c with
    | ok a d =>
      rw [bind_of_ok read]
      exact .trans (Moves.ok read) (moves d)
    | error e d =>
      rw [read] at first
      rw [bind_of_error read]
      cases first with
      | error way inside => exact .error way inside

instance {g : α → β} [Moves R x] : Moves R (g <$> x) :=
  map_eq_pure_bind g x ▸ inferInstance

instance [Moves R x] : Moves R (discard x) :=
  inferInstanceAs (Moves R ((fun _ => PUnit.unit) <$> x))

instance {p : Prop} [Decidable p] [Moves R x] [Moves R y] : Moves R (if p then x else y) := by
  split <;> infer_instance

instance Advances.bind [Advances x] [∀ a, Onward (f a)] : Advances (x >>= f) where
  advances read := by
    obtain ⟨a, middle, first, later⟩ := bind_ok.mp read
    exact Nat.lt_of_le_of_lt (length_le_of_ok later) (advances first)

instance (priority := low) [Onward x] [∀ a, Advances (f a)] : Advances (x >>= f) where
  advances read := by
    obtain ⟨a, middle, first, later⟩ := bind_ok.mp read
    exact Nat.lt_of_lt_of_le (Advances.advances later) (length_le_of_ok first)

instance [Advances x] : Advances (discard x) :=
  inferInstanceAs (Advances (x >>= fun _ => pure PUnit.unit))

instance {p : Prop} [Decidable p] [Advances x] [Advances y] : Advances (if p then x else y) := by
  split <;> infer_instance

end Combinators

instance : Advances (failUnexpected : Read α) where
  onward := ⟨fun _ => .error (List.suffix_refl _) nofun⟩
  advances read := (failUnexpected_ok.mp read).elim

section Passage

variable [Passage R] {accept : Token → Bool} {word name : String}

instance {what} : Moves R (failExpected what : Read α) :=
  ⟨fun c => .error (Passage.refl c) nofun⟩

instance : Moves R (get : Read Cursor) :=
  ⟨fun c => .ok (Passage.refl c)⟩

instance : Moves R peek :=
  inferInstanceAs (Moves R (get >>= _))

instance {offset} : Moves R (peekAt offset) :=
  inferInstanceAs (Moves R (get >>= _))

instance : Moves R (sees word) :=
  inferInstanceAs (Moves R (peek >>= _))

instance : Accepts R (·.isWord word) :=
  ⟨fun passed same => Passage.link passed (Token.kind_of_isWord same ▸ by decide)⟩

instance : Accepts R (·.isName) :=
  ⟨fun passed named => Passage.link passed (Token.link_of_isName named)⟩

theorem Accepts.kind {kind} (link : kind ∈ linkKinds) : Accepts R (·.kind == kind) :=
  ⟨fun passed same => Passage.link passed (eq_of_beq same ▸ link)⟩

instance : Accepts R (·.kind == .identifier) := .kind (by decide)

instance : Accepts R (·.kind == .dot) := .kind (by decide)

instance : Accepts R (·.kind == .comma) := .kind (by decide)

instance : Accepts R (·.kind == .operator) := .kind (by decide)

instance : Accepts R (·.isAlias) :=
  Accepts.both (·.kind == .identifier)

instance : Accepts R fun t => t.kind == .operator && t.value == "=" :=
  Accepts.both (·.kind == .operator)

instance [Accepts R accept] : Moves R (eat? accept) where
  moves c := by
    cases here : c.rest with
    | nil =>
      rw [eat?_none (by rw [here]; rfl)]
      exact .ok (Passage.refl c)
    | cons t rest =>
      cases approved : accept t with
      | false =>
        rw [eat?_none (by rwa [here])]
        exact .ok (Passage.refl c)
      | true =>
        rw [eat?_passes approved (.token here)]
        exact .ok (Accepts.accepts (.token here) approved)

instance [Accepts R accept] : Moves R (expect accept name) := by
  refine @Moves.bind _ _ _ _ _ _ _ fun found => ?_
  cases found <;> infer_instance

instance : Advances (expect accept name) where
  advances read := (expect_ok read).1.length_lt

instance : Moves R (eatWord word) := inferInstanceAs (Moves R (eat? _ >>= _))

instance : Moves R (eatKind .comma) := inferInstanceAs (Moves R (eat? _ >>= _))

instance : Moves R (expectWord word) := inferInstanceAs (Moves R (discard (expect _ _)))

instance : Advances (expectWord word) := inferInstanceAs (Advances (discard (expect _ _)))

instance : Moves R expectIdentifier := inferInstanceAs (Moves R (expect _ _))

instance : Advances expectIdentifier := inferInstanceAs (Advances (expect _ _))

instance : Moves R expectDot := inferInstanceAs (Moves R (discard (expect _ _)))

instance : Advances expectDot := inferInstanceAs (Advances (discard (expect _ _)))

section Repetition

variable {item : Read α} {more : Read Bool}

instance [Moves R item] {fuel} : Moves R (commaListUpTo item fuel) := by
  induction fuel with
  | zero => exact inferInstanceAs (Moves R (pure _))
  | succ fuel ih => exact inferInstanceAs (Moves R (item >>= fun _ => eatKind .comma >>= _))

instance [Moves R item] : Moves R (commaList item) :=
  inferInstanceAs (Moves R (get >>= _))

instance [Moves R more] [Moves R item] {fuel} : Moves R (whileUpTo more item fuel) := by
  induction fuel with
  | zero => exact inferInstanceAs (Moves R (pure _))
  | succ fuel ih => unfold whileUpTo; infer_instance

instance [Moves R more] [Moves R item] : Moves R (whileSeen more item) :=
  inferInstanceAs (Moves R (get >>= _))

instance [Moves R item] : Moves R (optionally word item) := by
  unfold optionally; infer_instance

instance [Moves R item] : Moves R (byClause word item) := by
  unfold byClause; infer_instance

/-- The reader in `F` is used only where fewer tokens are left. -/
def IsStep (F : Read α → Read α) : Prop :=
  ∀ {x y : Read α} [Onward x] {c : Cursor},
    (∀ d : Cursor, d.rest.length < c.rest.length → x d = y d) → F x c = F y c

section Steps

variable {F : Read α → Read α} (step : IsStep F)

include step

/-- The recursion comes to an end, so no two readers are put together in this way. -/
theorem IsStep.unique {x y} [Onward x] (first : x = F x) (second : y = F y) : x = y := by
  funext c
  induction size : c.rest.length using Nat.strongRecOn generalizing c with
  | ind size ih =>
    rw [first, second]
    exact step fun d shorter => ih _ (size ▸ shorter) d rfl

variable {u v : Nat → Read α} [∀ n, Onward (u n)] (grows : ∀ n, u (n + 1) = F (u n))

include grows

theorem IsStep.bounded (grows' : ∀ n, v (n + 1) = F (v n)) {n m c} (enough : c.rest.length < n)
    (enough' : c.rest.length < m) : u n c = v m c := by
  induction n generalizing m c with
  | zero => omega
  | succ n ih =>
    obtain ⟨m, rfl⟩ : ∃ k, m = k + 1 := ⟨m - 1, by omega⟩
    rw [grows, grows']
    exact step fun d shorter => ih (by omega) (by omega)

theorem IsStep.fixed :
    (fun c => u (c.rest.length + 1) c) = F fun c => u (c.rest.length + 1) c := by
  funext c
  rw [grows]
  exact step fun d shorter => step.bounded grows grows shorter (Nat.lt_succ_self _)

end Steps

theorem isStep_commas [Onward item] :
    IsStep fun others => do
      let head ← item
      if ← eatKind .comma then return head :: (← others) else return [head] := by
  intro x y _ c below
  refine bind_eq_bind rfl fun head c₁ first => bind_eq_bind rfl fun seen c₂ comma => ?_
  rcases eatKind_ok comma with ⟨rfl, token, passed, -⟩ | ⟨rfl, -⟩
  · have shorter := Nat.lt_of_lt_of_le passed.length_lt (length_le_of_ok first)
    exact bind_eq_bind (below c₂ shorter) fun _ _ _ => rfl
  · rfl

theorem isStep_while [Onward more] [Advances item] :
    IsStep fun others => do
      if ← more then
        let head ← item
        return head :: (← others)
      else
        return [] := by
  intro x y _ c below
  refine bind_eq_bind rfl fun seen c₁ looked => ?_
  cases seen with
  | true =>
    refine bind_eq_bind rfl fun head c₂ first => bind_eq_bind (below c₂ ?_) fun _ _ _ => rfl
    exact Nat.lt_of_lt_of_le (Advances.advances first) (length_le_of_ok looked)
  | false => rfl

theorem commaListUpTo_eq [Onward item] {n c} (enough : c.rest.length < n) :
    commaListUpTo item n c = commaList item c :=
  isStep_commas.bounded (v := commaListUpTo item) (fun _ => rfl) (fun _ => rfl) enough
    (Nat.lt_succ_self _)

theorem whileUpTo_eq [Onward more] [Advances item] {n c} (enough : c.rest.length < n) :
    whileUpTo more item n c = whileSeen more item c :=
  isStep_while.bounded (v := whileUpTo more item) (fun _ => rfl) (fun _ => rfl) enough
    (Nat.lt_succ_self _)

theorem commaList_eq [Onward item] :
    commaList item = (do
      let head ← item
      if ← eatKind .comma then return head :: (← commaList item) else return [head]) :=
  isStep_commas.fixed (u := commaListUpTo item) fun _ => rfl

theorem whileSeen_eq [Onward more] [Advances item] :
    whileSeen more item = (do
      if ← more then
        let head ← item
        return head :: (← whileSeen more item)
      else
        return []) :=
  isStep_while.fixed (u := whileUpTo more item) fun _ => rfl

/-- A relation between the cursors before and after a list holds of every list that is read, if it
    holds of single items and one more item with a comma in front keeps it. -/
theorem commaList_induction [Onward item] {P : Cursor → List α → Cursor → Prop}
    (last : ∀ {c c' a}, item c = .ok a c' → eatKind .comma c' = .ok false c' → P c [a] c')
    (more : ∀ {c c₁ c₂ c' a as comma}, item c = .ok a c₁ → c₁.Passes c₂ [comma] [] →
      comma.kind = .comma → P c₂ as c' → P c (a :: as) c') {c c' items}
    (read : commaList item c = .ok items c') : P c items c' := by
  rw [commaList_eq] at read
  obtain ⟨head, c₁, first, read⟩ := bind_ok.mp read
  obtain ⟨seen, c₂, comma, read⟩ := bind_ok.mp read
  rcases eatKind_ok comma with ⟨rfl, token, passed, isComma⟩ | ⟨rfl, rfl⟩
  · obtain ⟨tail, _, later, read⟩ := bind_ok.mp read
    obtain ⟨rfl, rfl⟩ := pure_ok.mp read
    have shorter := Nat.lt_of_lt_of_le passed.length_lt (length_le_of_ok first)
    exact more first passed isComma (commaList_induction last more later)
  · obtain ⟨rfl, rfl⟩ := pure_ok.mp read
    exact last first comma
termination_by c.rest.length

theorem whileSeen_induction [Onward more] [Advances item] {P : Cursor → List α → Cursor → Prop}
    (stop : ∀ {c c'}, more c = .ok false c' → P c [] c')
    (goOn : ∀ {c c₁ c₂ c' a as}, more c = .ok true c₁ → item c₁ = .ok a c₂ → P c₂ as c' →
      P c (a :: as) c') {c c' items} (read : whileSeen more item c = .ok items c') :
    P c items c' := by
  rw [whileSeen_eq] at read
  obtain ⟨seen, c₁, looked, read⟩ := bind_ok.mp read
  cases seen with
  | true =>
    obtain ⟨head, c₂, first, read⟩ := bind_ok.mp read
    obtain ⟨tail, _, later, read⟩ := bind_ok.mp read
    obtain ⟨rfl, rfl⟩ := pure_ok.mp read
    have shorter := Nat.lt_of_lt_of_le (Advances.advances first) (length_le_of_ok looked)
    exact goOn looked first (whileSeen_induction stop goOn later)
  | false =>
    obtain ⟨rfl, rfl⟩ := pure_ok.mp read
    exact stop looked
termination_by c.rest.length

end Repetition

instance : Moves R pathParts := by unfold pathParts; infer_instance

instance : Moves R seesEmptinessTest := by unfold seesEmptinessTest; infer_instance

instance : Moves R seesJoin := by unfold seesJoin; infer_instance

instance : Moves R direction := by unfold direction; infer_instance

end Passage

variable [FreePassage R]

instance {mention} : Moves R (note mention) :=
  ⟨fun c => .ok (FreePassage.note c mention)⟩

instance {mention} : Moves R (aliasName mention) := by
  unfold aliasName; infer_instance

instance : Moves R className := by unfold className; infer_instance

instance : Advances className := by unfold className; infer_instance

instance : Moves R simplePath := by unfold simplePath; infer_instance

instance : Moves R indexBy := by unfold indexBy; infer_instance

instance {before : Expression} : Moves R (path before) := by
  refine @Moves.bind _ _ _ _ _ _ _ fun name => @Moves.bind _ _ _ _ _ _ _ fun parts => ?_
  cases parts.reverse <;> infer_instance

instance {before : Expression} : Advances (path before) := by
  refine @Advances.bind _ _ _ _ _ fun name => @Moves.bind _ _ _ _ _ _ _ fun parts => ?_
  cases parts.reverse <;> infer_instance

instance : Advances partialObject := by unfold partialObject; infer_instance

set_option synthInstance.maxSize 500 in
instance : Moves R joinTarget := by unfold joinTarget; infer_instance

set_option synthInstance.maxSize 500 in
instance : Advances joinTarget := by unfold joinTarget; infer_instance

instance : Moves R bareRange := by unfold bareRange; infer_instance

instance : Advances bareRange := by unfold bareRange; infer_instance

end Read

end EntityAudit.Query
