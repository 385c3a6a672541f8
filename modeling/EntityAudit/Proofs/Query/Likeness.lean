import EntityAudit.Proofs.Query.Lowering
import EntityAudit.Proofs.Query.Passages
import EntityAudit.Proofs.Query.WordCase
import EntityAudit.Query.Compile

/-! # Statements that are alike

Statements that are the same but for names of classes, properties that results are indexed by, and
reserved words in the place of an alias. The relational form does not depend on the first two, and
where the third occurs there is none.
-/

namespace EntityAudit.Query

structure PropertyPath.Alike (p p' : PropertyPath) : Prop where
  aliasName : WordAlike p.aliasName p'.aliasName
  field : p.field = p'.field

inductive JoinTarget.Alike : JoinTarget → JoinTarget → Prop
  | association {p p'} (paths : p.Alike p') : Alike (.association p) (.association p')
  | entity (className className' : String) : Alike (.entity className) (.entity className')

mutual
inductive PieceAlike : Piece → Piece → Prop
  | same (piece : Piece) : PieceAlike piece piece
  | path {p p'} (paths : p.Alike p') : PieceAlike (.path p) (.path p')
  | word {a a'} (words : WordAlike a a') : PieceAlike (.variable a) (.variable a')
  | partialObject (a a' : String) (fields : List String) :
      PieceAlike (.partialObject a fields) (.partialObject a' fields)
  | subselect {q q'} (inner : SelectAlike q q') : PieceAlike (.subselect q) (.subselect q')

inductive JoinAlike : Join (List Piece) → Join (List Piece) → Prop
  | mk {isLeft target target' aliasName index index' condition condition'}
      (targets : target.Alike target')
      (conditions : Option.Rel (List.Forall₂ PieceAlike) condition condition') :
      JoinAlike ⟨isLeft, target, aliasName, index, condition⟩
        ⟨isLeft, target', aliasName, index', condition'⟩

inductive RangeAlike : Range (List Piece) → Range (List Piece) → Prop
  | mk {className className' aliasName index index' joins joins'}
      (all : List.Forall₂ JoinAlike joins joins') :
      RangeAlike ⟨className, aliasName, index, joins⟩ ⟨className', aliasName, index', joins'⟩

inductive ItemAlike : SelectItem (List Piece) → SelectItem (List Piece) → Prop
  | mk {expr expr' aliasName} (exprs : List.Forall₂ PieceAlike expr expr') :
      ItemAlike ⟨expr, aliasName⟩ ⟨expr', aliasName⟩

inductive OrderAlike : OrderItem (List Piece) → OrderItem (List Piece) → Prop
  | mk {expr expr' direction} (exprs : List.Forall₂ PieceAlike expr expr') :
      OrderAlike ⟨expr, direction⟩ ⟨expr', direction⟩

inductive SelectAlike : SelectOf (List Piece) → SelectOf (List Piece) → Prop
  | mk
      {isDistinct items items' ranges ranges' filter filter' groupFilter groupFilter' groups groups'
        orders orders'} (listed : List.Forall₂ ItemAlike items items')
      (ranged : List.Forall₂ RangeAlike ranges ranges')
      (filtered : Option.Rel (List.Forall₂ PieceAlike) filter filter')
      (grouped : List.Forall₂ (List.Forall₂ PieceAlike) groups groups')
      (limited : Option.Rel (List.Forall₂ PieceAlike) groupFilter groupFilter')
      (ordered : List.Forall₂ OrderAlike orders orders') :
      SelectAlike ⟨isDistinct, items, ranges, filter, groups, groupFilter, orders⟩
        ⟨isDistinct, items', ranges', filter', groups', groupFilter', orders'⟩
end

/-- Expressions that are the same but for reserved words in the place of an alias, and subselects
    that are alike. -/
abbrev ExpressionAlike : Expression → Expression → Prop := List.Forall₂ PieceAlike

inductive AssignmentAlike : Assignment → Assignment → Prop
  | mk {target target' value value'} (paths : target.Alike target')
      (values : ExpressionAlike value value') : AssignmentAlike ⟨target, value⟩ ⟨target', value'⟩

inductive StatementAlike : Statement → Statement → Prop
  | select {q q'} (inner : SelectAlike q q') : StatementAlike (.select q) (.select q')
  | update {range range' assignments assignments' filter filter'} (ranges : RangeAlike range range')
      (assigned : List.Forall₂ AssignmentAlike assignments assignments')
      (filtered : Option.Rel ExpressionAlike filter filter') :
      StatementAlike (.update range assignments filter) (.update range' assignments' filter')
  | delete {range range' filter filter'} (ranges : RangeAlike range range')
      (filtered : Option.Rel ExpressionAlike filter filter') :
      StatementAlike (.delete range filter) (.delete range' filter')

namespace PieceAlike

variable {piece piece' : Piece}

variable (alike : PieceAlike piece piece')

include alike

theorem isWord_eq (word : String) :
    piece.isWord word = piece'.isWord word := by
  cases alike <;> rfl

theorem isBareFunction_eq :
    piece.isBareFunction = piece'.isBareFunction := by
  cases alike <;> rfl

theorem isRelational_eq (afterInstance : Bool) :
    piece.isRelational afterInstance = piece'.isRelational afterInstance := by
  cases alike <;> rfl

end PieceAlike

theorem relationalFrom_alike {e e'} (alike : ExpressionAlike e e') (afterInstance : Bool) :
    relationalFrom afterInstance e = relationalFrom afterInstance e' := by
  induction alike generalizing afterInstance with
  | nil => rfl
  | cons here _ ih =>
    rw [relationalFrom, relationalFrom, here.isRelational_eq, here.isWord_eq, ih]

theorem rel_flatMap_of_mem {α β γ δ : Type} {R : α → β → Prop} {S : γ → δ → Prop} {xs : List α}
    {ys : List β} {f : α → List γ} {g : β → List δ} (related : List.Forall₂ R xs ys)
    (each : ∀ x ∈ xs, ∀ y, R x y → List.Forall₂ S (f x) (g y)) :
    List.Forall₂ S (xs.flatMap f) (ys.flatMap g) := by
  induction related with
  | nil => exact .nil
  | cons here _ ih =>
    obtain ⟨first, later⟩ := List.forall_mem_cons.mp each
    exact List.rel_append (first _ here) (ih later)

@[simp]
def Part.own : Part → List Expression
  | .name _ => []
  | .expression e => [e]

theorem clauseParts_alike {clause clause'} (alike : Option.Rel ExpressionAlike clause clause') :
    List.Forall₂ ExpressionAlike ((clauseParts clause).flatMap Part.own)
      ((clauseParts clause').flatMap Part.own) := by
  cases alike with
  | none => exact .nil
  | some exprs => exact .cons exprs .nil

theorem own_names (uses : List NameUse) : (uses.map .name).flatMap Part.own = [] := by
  simp [List.flatMap_map]

theorem own_range (range : Range Expression) : range.parts.flatMap Part.own =
    range.joins.flatMap fun join => (clauseParts join.condition).flatMap Part.own := by
  simp [Range.parts, Join.parts, List.flatMap_assoc, own_names]

theorem RangeAlike.parts {range range'} (alike : RangeAlike range range') :
    List.Forall₂ ExpressionAlike (range.parts.flatMap Part.own)
      (range'.parts.flatMap Part.own) := by
  rw [own_range, own_range]
  cases alike with
  | mk all =>
    refine List.rel_flatMap all fun _ _ join => ?_
    cases join with
    | mk _ conditions => exact clauseParts_alike conditions

theorem SelectAlike.parts {q q'} (alike : SelectAlike q q') :
    List.Forall₂ ExpressionAlike (q.parts.flatMap Part.own) (q'.parts.flatMap Part.own) := by
  cases alike with
  | mk listed ranged filtered grouped limited ordered =>
    simp only [SelectOf.parts, List.flatMap_append, List.flatMap_assoc, List.flatMap_map]
    refine List.rel_append (List.rel_append (List.rel_append (List.rel_append (List.rel_append
      ?_ ?_) (clauseParts_alike filtered)) ?_) (clauseParts_alike limited)) ?_
    · refine List.rel_flatMap listed fun _ _ item => ?_
      cases item with
      | mk exprs => simpa [SelectItem.parts, List.flatMap_map] using exprs
    · exact List.rel_flatMap ranged fun _ _ range => range.parts
    · exact List.rel_flatMap grouped fun _ _ exprs => .cons exprs .nil
    · refine List.rel_flatMap ordered fun _ _ item => ?_
      cases item with
      | mk exprs => exact .cons exprs .nil

theorem StatementAlike.parts {s s'} (alike : StatementAlike s s') :
    List.Forall₂ ExpressionAlike (s.parts.flatMap Part.own) (s'.parts.flatMap Part.own) := by
  cases alike with
  | select inner => exact inner.parts
  | update ranges assigned filtered =>
    simp only [Statement.parts, List.flatMap_append, List.flatMap_assoc]
    refine List.rel_append (List.rel_append ranges.parts ?_) (clauseParts_alike filtered)
    refine List.rel_flatMap assigned fun _ _ assigned => ?_
    cases assigned with
    | mk _ values => exact .cons values .nil
  | delete ranges filtered =>
    simp only [Statement.parts, List.flatMap_append]
    exact List.rel_append ranges.parts (clauseParts_alike filtered)

theorem flatMap_expressions_eq (parts : List Part) : parts.flatMap Part.expressions =
    (parts.flatMap Part.own).flatMap fun e => e :: nestedExpressions e := by
  induction parts with
  | nil => rfl
  | cons part rest ih => cases part <;> simp_all

theorem nestedExpressions_alike (e : Expression) : ∀ e', ExpressionAlike e e' →
    List.Forall₂ ExpressionAlike (nestedExpressions e) (nestedExpressions e') := by
  induction e using expression_induction with
  | step e ih =>
    intro e' alike
    rw [nestedExpressions_eq, nestedExpressions_eq]
    refine rel_flatMap_of_mem alike fun piece inside piece' here => ?_
    cases here with
    | same => exact List.forall₂_same.mpr fun e _ => List.forall₂_same.mpr fun p _ => .same p
    | @subselect q q' inner =>
      rw [pieceExpressions, pieceExpressions, selectExpressions_eq, selectExpressions_eq,
        flatMap_expressions_eq, flatMap_expressions_eq]
      refine rel_flatMap_of_mem inner.parts fun e topmost e' exprs => .cons exprs ?_
      obtain ⟨part, among, own⟩ := List.mem_flatMap.mp topmost
      cases part with
      | name => cases own
      | expression => exact ih q inside e (List.mem_singleton.mp own ▸ among) e' exprs
    | _ => exact .nil

theorem Statement.isRelational_alike {s s'} (alike : StatementAlike s s') :
    s.isRelational = s'.isRelational := by
  have exprs : List.Forall₂ ExpressionAlike s.expressions s'.expressions := by
    rw [expressions_eq, expressions_eq, flatMap_expressions_eq, flatMap_expressions_eq]
    exact List.rel_flatMap alike.parts fun e e' here =>
      .cons here (nestedExpressions_alike e e' here)
  rw [isRelational, isRelational]
  generalize s.expressions = first at exprs
  generalize s'.expressions = second at exprs
  induction exprs with
  | nil => rfl
  | cons here _ ih => rw [List.all_cons, List.all_cons, relationalFrom_alike here, ih]

/-- No alias is a reserved word. -/
def Aliases.SparesWords (aliases : Aliases) : Prop :=
  ∀ name, isReserved name = true → aliases.get? name = none

section Lowering

variable {aliases : Aliases}

theorem WordAlike.eq_or_unknown (spares : aliases.SparesWords) {a a'} (alike : WordAlike a a') :
    a = a' ∨ aliases.get? a = none ∧ aliases.get? a' = none := by
  cases reserved : isReserved a with
  | false => exact .inl (alike.eq_of_not_isReserved reserved)
  | true => exact .inr ⟨spares a reserved, spares a' (alike.isReserved_eq ▸ reserved)⟩

theorem Aliases.record?_of_unknown {name} (unknown : aliases.get? name = none) :
    aliases.record? name = none := by
  rw [Aliases.record?, unknown]

theorem Lower.unknown_bind {α β : Type} (f : α → Lower β) :
    ((liftM (none : Option α) : Lower α) >>= f) = failure :=
  rfl

theorem onward_alike {piece piece' rest rest'} (here : PieceAlike piece piece')
    (onward : ExpressionAlike rest rest') :
    ExpressionAlike (piece.onward rest) (piece'.onward rest') := by
  have opening : rest.head?.any (·.isOpening) = rest'.head?.any (·.isOpening) := by
    cases onward with
    | nil => rfl
    | cons first _ => cases first <;> rfl
  rw [Piece.onward, Piece.onward, here.isBareFunction_eq, opening]
  split
  · exact List.forall₂_drop 2 onward
  · exact onward

theorem wholeEntity?_alike (spares : aliases.SparesWords) {e e'} (alike : ExpressionAlike e e')
    (aliasName : Option String) :
    wholeEntity? aliases e aliasName = wholeEntity? aliases e' aliasName := by
  have longer (a b : Piece) (rest : List Piece) :
      wholeEntity? aliases (a :: b :: rest) aliasName = none := by cases a <;> rfl
  cases alike with
  | nil => rfl
  | cons here onward =>
    cases onward with
    | cons => rw [longer, longer]
    | nil =>
      cases here with
      | word words =>
        rcases words.eq_or_unknown spares with rfl | ⟨unknown, unknown'⟩
        · rfl
        · cases aliasName with
          | some => rfl
          | none =>
            simp only [wholeEntity?, Aliases.record?_of_unknown unknown,
              Aliases.record?_of_unknown unknown']
            rfl
      | _ => rfl

theorem forM_alike {α : Type} {R : α → α → Prop} {f : α → Lower Unit}
    (each : ∀ {a b}, R a b → f a = f b) {as bs : List α} (alike : List.Forall₂ R as bs) :
    as.forM f = bs.forM f := by
  induction alike with
  | nil => rfl
  | cons here _ ih =>
    change (do f _; List.forM _ f) = (do f _; List.forM _ f)
    rw [each here, ih]

theorem issueAliases_alike {ranges ranges' : List (Range Expression)}
    (alike : List.Forall₂ RangeAlike ranges ranges') :
    Lower.issueAliases aliases ranges = Lower.issueAliases aliases ranges' := by
  refine forM_alike (fun here => ?_) alike
  cases here with
  | mk all =>
    have joins := forM_alike (f := fun join => Lower.issueAlias aliases join.aliasName)
      (fun here => by cases here; rfl) all
    simp only [joins]

theorem lowerJoins_unknown {path} (unknown : aliases.record? path.aliasName = none) (isLeft : Bool)
    (aliasName : String) (index : Option PropertyPath) (condition : Option (List Piece))
    (rest : List (Join (List Piece))) :
    lowerJoins aliases (⟨isLeft, .association path, aliasName, index, condition⟩ :: rest) =
      failure := by
  funext s
  change _ = none
  refine Option.eq_none_iff_forall_ne_some.mpr ?_
  rintro ⟨joins, s'⟩ lowered
  rw [lowerJoins_association] at lowered
  simp only [Lower.bind_some, Lower.lift_some, unknown] at lowered
  obtain ⟨_, _, -, _, _, -, _, _, -, _, _, ⟨owned, -⟩, -⟩ := lowered
  cases owned

mutual
theorem lowerPiece_alike (spares : aliases.SparesWords) (piece : Piece) {piece'}
    (alike : PieceAlike piece piece') : lowerPiece aliases piece = lowerPiece aliases piece' := by
  cases piece with
  | path p =>
    cases alike with
    | same => rfl
    | @path _ p' paths =>
      obtain ⟨name, field⟩ := p
      obtain ⟨name', field'⟩ := p'
      obtain ⟨words, fields⟩ := paths
      obtain rfl : field = field' := fields
      rcases words.eq_or_unknown spares with rfl | ⟨unknown, unknown'⟩
      · rfl
      · simp only [lowerPiece, Aliases.record?_of_unknown unknown,
          Aliases.record?_of_unknown unknown', Lower.unknown_bind]
  | «variable» a =>
    cases alike with
    | same => rfl
    | word words =>
      rcases words.eq_or_unknown spares with rfl | ⟨unknown, unknown'⟩
      · rfl
      · simp only [lowerPiece, unknown, unknown', Lower.unknown_bind]
  | subselect q =>
    cases alike with
    | same => rfl
    | subselect inner => rw [lowerPiece, lowerPiece, lowerSelect_alike spares false q inner]
  | _ => cases alike <;> rfl
termination_by structural piece

theorem lowerPieces_alike (spares : aliases.SparesWords) (pieces : List Piece) {e e'}
    (suffix : e <:+ pieces) (alike : ExpressionAlike e e') :
    lowerPieces aliases e = lowerPieces aliases e' := by
  cases pieces with
  | nil =>
    obtain rfl := List.suffix_nil.mp suffix
    cases alike
    rfl
  | cons piece rest =>
    rcases List.suffix_cons_iff.mp suffix with rfl | suffix
    · cases alike with
      | cons here onward =>
        have first := lowerPiece_alike spares piece here
        have later := lowerPieces_alike spares rest (piece.onward_suffix rest)
          (onward_alike here onward)
        rw [lowerPieces_onward, lowerPieces_onward, first, later]
    · exact lowerPieces_alike spares rest suffix alike
termination_by structural pieces

theorem lowerSelect_alike (spares : aliases.SparesWords) (isTop : Bool) (q : SelectOf (List Piece))
    {q'} (alike : SelectAlike q q') :
    lowerSelect aliases isTop q = lowerSelect aliases isTop q' := by
  cases q with
  | mk isDistinct items ranges filter groups groupFilter orders =>
    cases alike with
    | mk listed ranged filtered grouped limited ordered =>
      simp only [lowerSelect, issueAliases_alike ranged,
        lowerItems_alike spares isTop items listed, lowerRanges_alike spares ranges ranged,
        lowerOptional_alike spares filter filtered, lowerList_alike spares groups grouped,
        lowerOptional_alike spares groupFilter limited,
        lowerOrders_alike spares orders ordered]
termination_by structural q

theorem lowerItems_alike (spares : aliases.SparesWords) (isTop : Bool)
    (items : List (SelectItem (List Piece))) {items'}
    (alike : List.Forall₂ ItemAlike items items') :
    lowerItems aliases isTop items = lowerItems aliases isTop items' := by
  cases items with
  | nil =>
    cases alike
    rfl
  | cons item rest =>
    cases item with
    | mk expr aliasName =>
      cases alike with
      | cons here onward =>
        cases here with
        | mk exprs =>
          simp only [lowerItems, wholeEntity?_alike spares exprs aliasName,
            lowerPieces_alike spares expr List.suffix_rfl exprs,
            lowerItems_alike spares isTop rest onward]
termination_by structural items

theorem lowerRanges_alike (spares : aliases.SparesWords) (ranges : List (Range (List Piece)))
    {ranges'} (alike : List.Forall₂ RangeAlike ranges ranges') :
    lowerRanges aliases ranges = lowerRanges aliases ranges' := by
  cases ranges with
  | nil =>
    cases alike
    rfl
  | cons range rest =>
    cases range with
    | mk className aliasName index joins =>
      cases alike with
      | cons here onward =>
        cases here with
        | mk all =>
          simp only [lowerRanges, lowerJoins_alike spares joins all,
            lowerRanges_alike spares rest onward]
termination_by structural ranges

theorem lowerJoins_alike (spares : aliases.SparesWords) (joins : List (Join (List Piece))) {joins'}
    (alike : List.Forall₂ JoinAlike joins joins') :
    lowerJoins aliases joins = lowerJoins aliases joins' := by
  cases joins with
  | nil =>
    cases alike
    rfl
  | cons join rest =>
    cases join with
    | mk isLeft target aliasName index condition =>
      cases alike with
      | cons here onward =>
        cases here with
        | mk targets conditions =>
          have limited := lowerOptional_alike spares condition conditions
          have later := lowerJoins_alike spares rest onward
          cases targets with
          | entity => simp only [lowerJoins, limited, later]
          | @association p p' paths =>
            obtain ⟨name, field⟩ := p
            obtain ⟨name', field'⟩ := p'
            obtain ⟨words, fields⟩ := paths
            obtain rfl : field = field' := fields
            rcases words.eq_or_unknown spares with rfl | ⟨unknown, unknown'⟩
            · simp only [lowerJoins, limited, later]
            · rw [lowerJoins_unknown (Aliases.record?_of_unknown unknown),
                lowerJoins_unknown (Aliases.record?_of_unknown unknown')]
termination_by structural joins

theorem lowerOptional_alike (spares : aliases.SparesWords) (clause : Option (List Piece)) {clause'}
    (alike : Option.Rel ExpressionAlike clause clause') :
    lowerOptional aliases clause = lowerOptional aliases clause' := by
  cases clause with
  | none =>
    cases alike
    rfl
  | some expr =>
    cases alike with
    | some exprs =>
      rw [lowerOptional, lowerOptional, lowerPieces_alike spares expr List.suffix_rfl exprs]
termination_by structural clause

theorem lowerList_alike (spares : aliases.SparesWords) (exprs : List (List Piece)) {exprs'}
    (alike : List.Forall₂ ExpressionAlike exprs exprs') :
    lowerList aliases exprs = lowerList aliases exprs' := by
  cases exprs with
  | nil =>
    cases alike
    rfl
  | cons expr rest =>
    cases alike with
    | cons here onward =>
      rw [lowerList, lowerList, lowerPieces_alike spares expr List.suffix_rfl here,
        lowerList_alike spares rest onward]
termination_by structural exprs

theorem lowerOrders_alike (spares : aliases.SparesWords) (orders : List (OrderItem (List Piece)))
    {orders'} (alike : List.Forall₂ OrderAlike orders orders') :
    lowerOrders aliases orders = lowerOrders aliases orders' := by
  cases orders with
  | nil =>
    cases alike
    rfl
  | cons item rest =>
    cases item with
    | mk expr direction =>
      cases alike with
      | cons here onward =>
        cases here with
        | mk exprs =>
          rw [lowerOrders, lowerOrders,
            lowerPieces_alike spares expr List.suffix_rfl exprs,
            lowerOrders_alike spares rest onward]
termination_by structural orders
end

theorem lowerAssignments_alike (spares : aliases.SparesWords) (record : EntityRecord)
    {assignments assignments'} (alike : List.Forall₂ AssignmentAlike assignments assignments') :
    lowerAssignments aliases record assignments = lowerAssignments aliases record assignments' := by
  induction alike with
  | nil => rfl
  | cons here _ ih =>
    cases here with
    | @mk _ _ value _ paths values =>
      rw [lowerAssignments, lowerAssignments, paths.field,
        lowerPieces_alike spares value List.suffix_rfl values, ih]

theorem lowerStatement_alike (spares : aliases.SparesWords) {s s'} (alike : StatementAlike s s') :
    lowerStatement aliases s = lowerStatement aliases s' := by
  cases alike with
  | @select q _ inner => rw [lowerStatement, lowerStatement, lowerSelect_alike spares true q inner]
  | update ranges assigned filtered =>
    have issued : Lower.issueAliases aliases _ = Lower.issueAliases aliases _ :=
      issueAliases_alike (.cons ranges .nil)
    cases ranges with
    | mk =>
      simp only [lowerStatement, issued, lowerAssignments_alike spares _ assigned,
        lowerOptional_alike spares _ filtered]
  | delete ranges filtered =>
    have issued : Lower.issueAliases aliases _ = Lower.issueAliases aliases _ :=
      issueAliases_alike (.cons ranges .nil)
    cases ranges with
    | mk => simp only [lowerStatement, issued, lowerOptional_alike spares _ filtered]

theorem Compiled.ofStatement_alike (spares : aliases.SparesWords) {s s'}
    (alike : StatementAlike s s') :
    Compiled.ofStatement aliases s = Compiled.ofStatement aliases s' := by
  have form : relationalForm? aliases s = relationalForm? aliases s' := by
    rw [relationalForm?, relationalForm?, s.isRelational_alike alike,
      lowerStatement_alike spares alike]
  rw [ofStatement, ofStatement, form]

end Lowering

end EntityAudit.Query
