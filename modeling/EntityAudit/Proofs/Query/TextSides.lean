import EntityAudit.Proofs.Query.Provenance
import Mathlib.Tactic.ByContra

/-! # Parentheses of a text made of parts

The parentheses of a text outside its quoted literals are those of its parts, as long as no literal
goes across parts. `Follows` compares the parentheses that are written with those that they were
made from.
-/

namespace EntityAudit.Query

/-- The characters that stand outside single quotes, where `inside` tells whether the text starts
    between them. A doubled quote ends a literal and starts it again. -/
def outside : (inside : Bool) → List Char → List Char
  | _, [] => []
  | inside, c :: cs =>
    if c == '\'' then outside (!inside) cs
    else if inside then outside inside cs
    else c :: outside inside cs

/-- Whether every quote is closed in the end. -/
def closesQuotes : (inside : Bool) → List Char → Bool
  | inside, [] => !inside
  | inside, c :: cs => closesQuotes (if c == '\'' then !inside else inside) cs

section Quotes

variable {inside : Bool} {cs ds : List Char}

theorem outside_append (closed : closesQuotes inside cs = true) :
    outside inside (cs ++ ds) = outside inside cs ++ outside false ds := by
  induction cs generalizing inside with
  | nil =>
    obtain rfl : inside = false := by simpa [closesQuotes] using closed
    rfl
  | cons c cs ih =>
    rw [closesQuotes] at closed
    by_cases quote : (c == '\'') = true
    · rw [if_pos quote] at closed
      simp only [List.cons_append, outside, if_pos quote, ih closed]
    · rw [if_neg quote] at closed
      simp only [List.cons_append, outside, if_neg quote, ih closed]
      split <;> rfl

theorem closesQuotes_append (closed : closesQuotes inside cs = true) :
    closesQuotes inside (cs ++ ds) = closesQuotes false ds := by
  induction cs generalizing inside with
  | nil =>
    obtain rfl : inside = false := by simpa [closesQuotes] using closed
    rfl
  | cons c cs ih => exact ih closed

theorem quoted?_of_closesQuotes (closed : closesQuotes true cs = true) :
    ∃ text rest, quoted? cs = some (text, rest) ∧ outside true cs = outside false rest ∧
      closesQuotes false rest = true := by
  fun_induction quoted? cs with
  | case1 => cases closed
  | case2 rest ih =>
    obtain ⟨text, after, found, same, still⟩ := ih closed
    exact ⟨_, _, by rw [found]; rfl, same, still⟩
  | case3 c rest _ quote =>
    rw [closesQuotes, if_pos quote] at closed
    exact ⟨_, _, rfl, by rw [outside, if_pos quote]; rfl, closed⟩
  | case4 c rest _ other ih =>
    rw [closesQuotes, if_neg other] at closed
    obtain ⟨text, after, found, same, still⟩ := ih closed
    exact ⟨_, _, by rw [found]; rfl, by rw [outside, if_neg other, if_pos rfl, same], still⟩

theorem unquoted_eq_outside (closed : closesQuotes false cs = true) :
    unquoted cs = outside false cs := by
  fun_induction unquoted cs with
  | case1 => rfl
  | case2 c cs quote text rest found ih =>
    rw [closesQuotes, if_pos quote] at closed
    obtain ⟨_, _, found', same, still⟩ := quoted?_of_closesQuotes closed
    obtain ⟨rfl, rfl⟩ := Prod.mk.inj (Option.some.inj (found.symm.trans found'))
    rw [ih still, outside, if_pos quote]
    exact same.symm
  | case3 c cs quote missing ih =>
    rw [closesQuotes, if_pos quote] at closed
    obtain ⟨_, _, found, -⟩ := quoted?_of_closesQuotes closed
    cases missing.symm.trans found
  | case4 c cs other ih =>
    rw [closesQuotes, if_neg other] at closed
    rw [ih closed, outside, if_neg other, if_neg Bool.false_ne_true]

end Quotes

/-- The text has these parentheses outside its literals, all of which are closed. -/
structure Marks (text : String) (sides : List Side) : Prop where
  closed : closesQuotes false text.toList = true
  sides : (outside false text.toList).filterMap charSide? = sides

namespace Marks

variable {text text' : String} {sides sides' : List Side}

theorem append (first : Marks text sides) (second : Marks text' sides') :
    Marks (text ++ text') (sides ++ sides') where
  closed := by
    rw [String.toList_append, closesQuotes_append first.closed]
    exact second.closed
  sides := by
    rw [String.toList_append, outside_append first.closed, List.filterMap_append, first.sides,
      second.sides]

theorem inert (all : IsInertText text) : Marks text [] := by
  have quiet : ∀ cs : List Char, (∀ c ∈ cs, IsInert c) →
      closesQuotes false cs = true ∧ (outside false cs).filterMap charSide? = [] := by
    intro cs all
    induction cs with
    | nil => exact ⟨rfl, rfl⟩
    | cons c cs ih =>
      obtain ⟨⟨other, none⟩, later⟩ := List.forall_mem_cons.mp all
      have noQuote : ¬ (c == '\'') = true := by simpa using other
      rw [closesQuotes, outside, if_neg noQuote, if_neg noQuote, if_neg Bool.false_ne_true,
        List.filterMap_cons_none none]
      exact ih later
  exact ⟨(quiet _ all).1, (quiet _ all).2⟩

theorem intercalate_cons {separator texts} (between : IsInertText separator)
    (first : Marks text sides) (rest : Marks (separator.intercalate texts) sides') :
    Marks (separator.intercalate (text :: texts)) (sides ++ sides') := by
  cases texts with
  | nil =>
    have whole := first.append rest
    rw [String.intercalate_nil, String.append_empty] at whole
    rwa [String.intercalate_singleton]
  | cons next texts =>
    have start := first.append (.inert between)
    rw [List.append_nil] at start
    rw [String.intercalate_cons_cons]
    exact start.append rest

theorem quoteText (value : String) : Marks (Sql.quoteText value) [] := by
  have hidden : ∀ cs : List Char, outside true (Sql.doubled '\'' cs ++ ['\'']) = [] ∧
      closesQuotes true (Sql.doubled '\'' cs ++ ['\'']) = true := by
    intro cs
    induction cs with
    | nil => exact ⟨rfl, rfl⟩
    | cons c cs ih =>
      by_cases quote : (c == '\'') = true
      · obtain rfl := eq_of_beq quote
        exact ih
      · have once : Sql.doubled '\'' (c :: cs) = c :: Sql.doubled '\'' cs := by
          rw [Sql.doubled, List.flatMap_cons, if_neg quote]
          rfl
        rw [once, List.cons_append, outside, closesQuotes, if_neg quote, if_neg quote, if_pos rfl]
        exact ih
  have whole : (Sql.quoteText value).toList =
      '\'' :: (Sql.doubled '\'' value.toList ++ ['\'']) := by
    simp [Sql.quoteText]
  refine ⟨?_, ?_⟩
  · rw [whole]
    exact (hidden _).2
  · rw [whole]
    exact congrArg (List.filterMap charSide?) (hidden _).1

theorem isBalanced_iff (marks : Marks text sides) :
    IsBalanced charSide? (unquoted text.toList) ↔ depthAfter 0 sides = some 0 := by
  rw [Query.isBalanced_iff, unquoted_eq_outside marks.closed, marks.sides]

theorem countSide (marks : Marks text sides) (side : Side) :
    Query.countSide charSide? side (unquoted text.toList) = sides.count side := by
  rw [unquoted_eq_outside marks.closed, ← marks.sides, Query.countSide, List.count,
    List.countP_filterMap]
  refine List.countP_congr fun c _ => ?_
  cases charSide? c <;> rfl

end Marks

theorem depthAfter_append_some {xs ys d d''} (whole : depthAfter d (xs ++ ys) = some d'') :
    ∃ d', depthAfter d xs = some d' ∧ depthAfter d' ys = some d'' := by
  fun_induction depthAfter d xs with
  | case1 => exact ⟨_, rfl, whole⟩
  | case2 d rest ih => exact ih whole
  | case3 => cases whole
  | case4 rest d ih => exact ih whole

theorem count_of_depthAfter {xs d d'} (known : depthAfter d xs = some d') :
    d + xs.count .opening = d' + xs.count .closing := by
  fun_induction depthAfter d xs with
  | case1 => cases known; rfl
  | case2 d rest ih =>
    have := ih known
    simp only [List.count_cons_self, List.count_cons_of_ne (show Side.opening ≠ .closing by simp)]
    omega
  | case3 => cases known
  | case4 rest d ih =>
    have := ih known
    simp only [List.count_cons_self, List.count_cons_of_ne (show Side.closing ≠ .opening by simp)]
    omega

/-- The parentheses `result` were made from those in `source`: where `tidy` holds they lead from
    every depth to the same one, and otherwise they close more than the source does. -/
structure Follows (source result : List Side) (tidy : Prop) : Prop where
  level : tidy → ∀ {d d'}, depthAfter d source = some d' → depthAfter d result = some d'
  kept : source.count .closing + result.count .opening ≤
    result.count .closing + source.count .opening
  exceeds : ¬ tidy → source.count .closing + result.count .opening <
    result.count .closing + source.count .opening

namespace Follows

variable {source result source' result' : List Side} {tidy tidy' : Prop}

theorem same (sides : List Side) : Follows sides sides True where
  level _ _ _ known := known
  kept := Nat.le_refl _
  exceeds untidy := absurd trivial untidy

theorem congr (follows : Follows source result tidy) (same : tidy ↔ tidy') :
    Follows source result tidy' where
  level holds := follows.level (same.mpr holds)
  kept := follows.kept
  exceeds untidy := follows.exceeds (untidy ∘ same.mp)

theorem append (first : Follows source result tidy) (second : Follows source' result' tidy') :
    Follows (source ++ source') (result ++ result') (tidy ∧ tidy') where
  level both d d'' whole := by
    obtain ⟨d', before, after⟩ := depthAfter_append_some whole
    exact depthAfter_append (first.level both.1 before) (second.level both.2 after)
  kept := by
    have := first.kept
    have := second.kept
    simp only [List.count_append]
    omega
  exceeds untidy := by
    have := first.kept
    have := second.kept
    simp only [List.count_append]
    rcases not_and_or.mp untidy with one | other
    · have := first.exceeds one
      omega
    · have := second.exceeds other
      omega

theorem settled (follows : Follows source result tidy)
    (matching : depthAfter 0 source = some 0) : Follows [] result tidy := by
  have equal := count_of_depthAfter matching
  refine ⟨fun holds d d' known => ?_, ?_, fun untidy => ?_⟩
  · cases known
    have deeper := depthAfter_add d matching
    rw [Nat.zero_add] at deeper
    exact follows.level holds deeper
  · have := follows.kept
    simp only [List.count_nil]
    omega
  · have := follows.exceeds untidy
    simp only [List.count_nil]
    omega

theorem enclosed (follows : Follows [] result tidy) :
    Follows [] (.opening :: (result ++ [.closing])) tidy := by
  have whole := ((same [.opening]).append follows).append (same [.closing])
  exact (whole.congr (by simp)).settled rfl

theorem matches_iff (follows : Follows [] result tidy) : depthAfter 0 result = some 0 ↔ tidy := by
  refine ⟨fun known => ?_, fun holds => follows.level holds rfl⟩
  by_contra untidy
  have equal := count_of_depthAfter known
  have := follows.exceeds untidy
  simp only [List.count_nil] at this
  omega

end Follows

end EntityAudit.Query
