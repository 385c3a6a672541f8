/-! # Two runs in step

`Couples P x y Q E` says of two computations that from states related by `P` both succeed with `Q`
or both fail with `E`.
-/

namespace EntityAudit

section

variable {ε σ α β γ δ : Type}

/-- Both runs succeed, or both fail. -/
inductive Coupled (Q : α → β → σ → σ → Prop) (E : ε → ε → σ → σ → Prop) :
    EStateM.Result ε σ α → EStateM.Result ε σ β → Prop
  | ok {a b s t} (related : Q a b s t) : Coupled Q E (.ok a s) (.ok b t)
  | error {e e' s t} (related : E e e' s t) : Coupled Q E (.error e s) (.error e' t)

theorem Coupled.imp {Q Q' : α → β → σ → σ → Prop} {E E' : ε → ε → σ → σ → Prop} {left right}
    (coupled : Coupled Q E left right) (after : ∀ {a b s t}, Q a b s t → Q' a b s t)
    (failed : ∀ {e e' s t}, E e e' s t → E' e e' s t) : Coupled Q' E' left right := by
  cases coupled with
  | ok related => exact .ok (after related)
  | error related => exact .error (failed related)

/-- From states related by `P`, both computations succeed with `Q` or both fail with `E`. -/
def Couples (P : σ → σ → Prop) (x : EStateM ε σ α) (y : EStateM ε σ β)
    (Q : α → β → σ → σ → Prop) (E : ε → ε → σ → σ → Prop) : Prop :=
  ∀ ⦃s t : σ⦄, P s t → Coupled Q E (x s) (y t)

namespace Couples

variable {P P' : σ → σ → Prop} {Q : α → β → σ → σ → Prop} {R : γ → δ → σ → σ → Prop}
  {E : ε → ε → σ → σ → Prop} {x : EStateM ε σ α} {y : EStateM ε σ β}

theorem pure {a b} (related : ∀ {s t}, P s t → Q a b s t) :
    Couples P (Pure.pure a : EStateM ε σ α) (Pure.pure b) Q E :=
  fun _ _ start => .ok (related start)

theorem throw {e e'} (related : ∀ {s t}, P s t → E e e' s t) :
    Couples P (MonadExcept.throw e : EStateM ε σ α) (MonadExcept.throw e' : EStateM ε σ β) Q E :=
  fun _ _ start => .error (related start)

theorem bind {f g} (first : Couples P x y Q E) (rest : ∀ a b, Couples (Q a b) (f a) (g b) R E) :
    Couples P (x >>= f) (y >>= g) R E := by
  intro s t start
  have here := first start
  change Coupled R E (EStateM.bind x f s) (EStateM.bind y g t)
  unfold EStateM.bind
  generalize x s = left at here ⊢
  generalize y t = right at here ⊢
  cases here with
  | ok related => exact rest _ _ related
  | error related => exact .error related

theorem map {f g} (first : Couples P x y Q E) (rest : ∀ {a b s t}, Q a b s t → R (f a) (g b) s t) :
    Couples P (f <$> x) (g <$> y) R E := by
  rw [map_eq_pure_bind, map_eq_pure_bind]
  exact first.bind fun _ _ => .pure rest

theorem modifies {S f g} (related : ∀ {s t}, P s t → S (f s) (g t)) :
    Couples P (modify f : EStateM ε σ PUnit) (modify g) (fun _ _ => S) E :=
  fun _ _ start => .ok (related start)

theorem adaptExcept {ε' : Type} {f g : ε → ε'} {E'} (couples : Couples P x y Q E)
    (failed : ∀ {e e' s t}, E e e' s t → E' (f e) (g e') s t) :
    Couples P (x.adaptExcept f) (y.adaptExcept g) Q E' := by
  intro s t start
  have here := couples start
  unfold EStateM.adaptExcept
  generalize x s = left at here ⊢
  generalize y t = right at here ⊢
  cases here with
  | ok related => exact .ok related
  | error related => exact .error (failed related)

theorem mono {Q'} (couples : Couples P x y Q E) (before : ∀ {s t}, P' s t → P s t)
    (after : ∀ {a b s t}, Q a b s t → Q' a b s t) : Couples P' x y Q' E :=
  fun _ _ start => (couples (before start)).imp after id

theorem weaken {E'} (couples : Couples P x y Q E)
    (failed : ∀ {e e' s t}, E e e' s t → E' e e' s t) :
    Couples P x y Q E' :=
  fun _ _ start => (couples start).imp id failed

end Couples

/-- From states that `P` relates, a computation comes to the same: to equal results, or to equal
    failures that `E` allows, and in either case to states that `P` relates. -/
class Steady (P : σ → σ → Prop) (E : ε → Prop) (x : EStateM ε σ α) : Prop where
  couples : Couples P x x (fun a b s t => a = b ∧ P s t) fun e e' s t => (e = e' ∧ E e) ∧ P s t

namespace Steady

variable {P : σ → σ → Prop} {E : ε → Prop} {x y : EStateM ε σ α}

instance (a : α) : Steady P E (pure a : EStateM ε σ α) :=
  ⟨Couples.pure fun related => ⟨rfl, related⟩⟩

instance {e : ε} : Steady P (fun _ => True) (throw e : EStateM ε σ α) :=
  ⟨Couples.throw fun related => ⟨⟨rfl, trivial⟩, related⟩⟩

instance {p : Prop} [Decidable p] [Steady P E x] [Steady P E y] :
    Steady P E (if p then x else y) := by
  split <;> infer_instance

instance bind {f : α → EStateM ε σ β} [first : Steady P E x] [rest : ∀ a, Steady P E (f a)] :
    Steady P E (x >>= f) where
  couples := by
    refine first.couples.bind fun a b => ?_
    rintro s t ⟨rfl, related⟩
    exact (rest a).couples related

instance {f : α → β} [Steady P E x] : Steady P E (f <$> x) :=
  map_eq_pure_bind f x ▸ inferInstance

instance {f : β → EStateM ε σ α} [∀ b, Steady P E (f b)] {bs : List β} :
    Steady P E (bs.mapM f) := by
  induction bs with
  | nil => rw [List.mapM_nil]; infer_instance
  | cons b bs ih => rw [List.mapM_cons]; infer_instance

instance {f : α → β → EStateM ε σ α} [∀ a b, Steady P E (f a b)] {bs : List β} {a : α} :
    Steady P E (bs.foldlM f a) := by
  induction bs generalizing a with
  | nil => rw [List.foldlM_nil]; infer_instance
  | cons b bs ih => rw [List.foldlM_cons]; infer_instance

theorem weaken {E'} (steady : Steady P E x) (allowed : ∀ e, E e → E' e) : Steady P E' x :=
  ⟨steady.couples.weaken fun same => ⟨⟨same.1.1, allowed _ same.1.2⟩, same.2⟩⟩

instance {ε' : Type} {f : ε → ε'} [first : Steady P (fun _ => True) x] :
    Steady P (fun _ => True) (x.adaptExcept f) :=
  ⟨first.couples.adaptExcept fun failed => ⟨⟨congrArg f failed.1.1, trivial⟩, failed.2⟩⟩

end Steady

end

end EntityAudit
