import EntityAudit.Proofs.Query.Scanning
import Mathlib.Logic.Function.Iterate

/-! # Reading comes to an end

Readers of subselects are used only where a token was taken before, so subselects nest no deeper
than there are tokens, and the bounds on loops and on depth are never what ends them.
-/

namespace EntityAudit.Query.Read

set_option synthInstance.maxSize 2000

variable {α β : Type}

/-- What is read with a reader of subselects depends only on what that reader does where no more
    tokens are left. -/
class Within (F : Read Select → Read α) : Prop where
  onward : ∀ x [Onward x], Onward (F x)
  same : ∀ {x y : Read Select} [Onward x] {n : Nat},
    (∀ c : Cursor, c.rest.length ≤ n → x c = y c) →
    ∀ c : Cursor, c.rest.length ≤ n → F x c = F y c

section Combinators

variable {F G : Read Select → Read α}

instance {x : Read α} [Onward x] : Within fun _ => x :=
  ⟨fun _ _ => ‹_›, fun _ _ _ => rfl⟩

instance : Within fun x => x :=
  ⟨fun _ _ => ‹_›, fun same => same⟩

instance Within.bind {H : Read Select → α → Read β} [Within F] [∀ a, Within (H · a)] :
    Within fun x => F x >>= H x where
  onward x _ :=
    have := onward (F := F) x
    have (a : α) := onward (F := (H · a)) x
    inferInstance
  same {x y _ n} agree c short := by
    have := onward (F := F) x
    refine bind_eq_bind (same agree c short) fun a d read => ?_
    exact same (F := (H · a)) agree d (Nat.le_trans (length_le_of_ok read) short)

instance {f : α → β} [Within F] : Within fun x => f <$> F x := by
  simp only [map_eq_pure_bind]
  infer_instance

instance {p : Prop} [Decidable p] [Within F] [Within G] :
    Within fun x => if p then F x else G x := by
  split <;> infer_instance

instance [Within F] : Within fun x => commaList (F x) := by
  have {fuel : Nat} : Within fun x => commaListUpTo (F x) fuel := by
    induction fuel with
    | zero => unfold commaListUpTo; infer_instance
    | succ fuel ih => unfold commaListUpTo; infer_instance
  unfold commaList
  infer_instance

instance {more : Read Bool} [Onward more] [Within F] : Within fun x => whileSeen more (F x) := by
  have {fuel : Nat} : Within fun x => whileUpTo more (F x) fuel := by
    induction fuel with
    | zero => unfold whileUpTo; infer_instance
    | succ fuel ih => unfold whileUpTo; infer_instance
  unfold whileSeen
  infer_instance

instance {word : String} [Within F] : Within fun x => optionally word (F x) := by
  unfold optionally
  infer_instance

instance {word : String} [Within F] : Within fun x => byClause word (F x) := by
  unfold byClause
  infer_instance

end Combinators

instance {p} : Within (scanNext · p) where
  onward _ _ := inferInstance
  same {x y _ n} agree c short := by
    cases here : c.rest with
    | nil => rw [scanNext_nil here, scanNext_nil here]
    | cons token rest =>
      rw [scanNext_cons here, scanNext_cons here]
      cases p.action token rest.head? with
      | subselect =>
        rw [here, List.length_cons] at short
        rw [perform, perform, bind_of_ok (advance_cons here), bind_of_ok (advance_cons here)]
        exact bind_eq_bind (agree _ (Nat.le_of_succ_le short)) fun _ _ _ => rfl
      | _ => rfl

instance : Within expression := by
  have {fuel : Nat} {p : Progress} : Within (scan · fuel p) := by
    induction fuel generalizing p with
    | zero => unfold scan; infer_instance
    | succ fuel ih =>
      simp only [scan_succ]
      refine @Within.bind _ _ _ _ _ fun found => ?_
      cases found with
      | none => exact inferInstanceAs (Within fun _ => finish p)
      | some next => exact ih
  unfold expression
  infer_instance

instance : Within selectItem := by unfold selectItem; infer_instance

instance : Within join := by unfold join; infer_instance

instance : Within range := by unfold range; infer_instance

instance : Within orderItem := by unfold orderItem; infer_instance

theorem isStep_selectWith : IsStep selectWith := by
  intro x y _ c below
  refine bind_eq_bind rfl fun _ d first => ?_
  have shorter := Advances.advances first
  have agree (e : Cursor) (short : e.rest.length ≤ c.rest.length - 1) : x e = y e :=
    below e (by omega)
  apply Within.same agree d
  omega

theorem selectUpTo_eq {n c} (enough : c.rest.length < n) : selectUpTo n c = select c :=
  isStep_selectWith.bounded (v := selectUpTo) (fun _ => rfl) (fun _ => rfl) enough
    (Nat.lt_succ_self _)

theorem select_eq : select = selectWith select :=
  isStep_selectWith.fixed (u := selectUpTo) fun _ => rfl

instance : Onward statement := by unfold statement; infer_instance

/-- Reading an expression goes on from step to step, with no bound on their number. -/
def IsScan (sub : Read Select) (x : Progress → Read Expression) : Prop :=
  ∀ p, x p = scanNext sub p >>= (·.elim (finish p) x)

variable {sub : Read Select} [Onward sub]

theorem isScan_scan : IsScan sub fun p c => scan sub c.rest.length p c := by
  intro p
  funext c
  refine (scan_eq (Nat.le_refl _)).trans (bind_eq_bind rfl fun found d first => ?_)
  rcases scanNext_ok first with ⟨rfl, -⟩ | ⟨next, rfl, step⟩
  · rfl
  · have := step.shortens
    exact scan_bounded (by omega) (Nat.le_refl _)

theorem IsScan.unique {x y} (first : IsScan sub x) (second : IsScan sub y) (p : Progress)
    (c : Cursor) : x p c = y p c := by
  rw [first p, second p]
  refine bind_eq_bind rfl fun found d read => ?_
  rcases scanNext_ok read with ⟨rfl, -⟩ | ⟨next, rfl, step⟩
  · rfl
  · have := step.shortens
    exact first.unique second next d
termination_by c.rest.length

/-- Every reader takes a token at least when it succeeds, leaves an end of its tokens when it fails,
    too, and never goes past the last. So each recursion of the grammar comes to an end by itself:
    without any bound it has one solution, which is what is read, and subselects nest no deeper than
    there are tokens. -/
theorem reading_ends :
    (Advances (expression select) ∧ Advances (selectItem select) ∧ Advances select ∧
      Advances (range select) ∧ Advances (join select) ∧ (∀ before, Advances (path before)) ∧
      Advances partialObject ∧ Advances update ∧ Advances delete ∧ Onward statement) ∧
    (∀ x, x = selectWith x ↔ x = select) ∧
    (∀ x, IsScan select x ↔ x = fun p c => scan select c.rest.length p c) ∧
    (∀ (α : Type) (item : Read α) [Onward item] (x : Read (List α)),
      (x = do
        let head ← item
        if ← eatKind .comma then return head :: (← x) else return [head]) ↔ x = commaList item) ∧
    (∀ (α : Type) (more : Read Bool) (item : Read α) [Onward more] [Advances item]
      (x : Read (List α)),
      (x = do
        if ← more then
          let head ← item
          return head :: (← x)
        else
          return []) ↔ x = whileSeen more item) ∧
    ∀ (depth : Nat) (deepest : Read Select) (c : Cursor), c.rest.length < depth →
      selectWith^[depth] deepest c = select c := by
  refine ⟨by refine ⟨?_, ?_, ?_, ?_, ?_, fun _ => ?_, ?_, ?_, ?_, ?_⟩ <;> infer_instance, ?_, ?_,
    ?_, ?_, ?_⟩
  · refine fun x => ⟨fun fixed => (isStep_selectWith.unique select_eq fixed).symm, ?_⟩
    rintro rfl
    exact select_eq
  · refine fun x => ⟨fun scans => funext fun p => funext (scans.unique isScan_scan p), ?_⟩
    rintro rfl
    exact isScan_scan
  · refine fun α item _ x => ⟨fun fixed => (isStep_commas.unique commaList_eq fixed).symm, ?_⟩
    rintro rfl
    exact commaList_eq
  · refine fun α more item _ _ x => ⟨fun fixed => (isStep_while.unique whileSeen_eq fixed).symm, ?_⟩
    rintro rfl
    exact whileSeen_eq
  · intro depth deepest c enough
    rw [← selectUpTo_eq enough]
    refine (isStep_selectWith.bounded (v := (selectWith^[·] deepest)) (fun _ => rfl) ?_ enough
      enough).symm
    exact fun n => Function.iterate_succ_apply' selectWith n deepest

end EntityAudit.Query.Read
