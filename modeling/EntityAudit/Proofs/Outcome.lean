/-! # Successful runs

What follows from the success of a computation, one lemma per way of putting computations together.
They split a program into its steps without unfolding it.
-/

namespace EntityAudit

variable {ε σ α β : Type} {s s' : σ}

theorem ok_iff {a b} :
    (EStateM.Result.ok a s : EStateM.Result ε σ α) = .ok b s' ↔ a = b ∧ s = s' := by
  rw [EStateM.Result.ok.injEq]

theorem bind_ok {x : EStateM ε σ α} {f : α → EStateM ε σ β} {b : β} :
    (x >>= f) s = .ok b s' ↔ ∃ a t, x s = .ok a t ∧ f a t = .ok b s' := by
  change EStateM.bind x f s = _ ↔ _
  unfold EStateM.bind
  cases x s with
  | ok a t =>
    constructor
    · exact fun found => ⟨a, t, rfl, found⟩
    · rintro ⟨_, _, ⟨⟩, found⟩
      exact found
  | error e t =>
    constructor
    · exact fun failed => nomatch failed
    · rintro ⟨_, _, ⟨⟩, _⟩

theorem bind_of_ok {x a} (done : x s = .ok a s') (f : α → EStateM ε σ β) :
    (x >>= f) s = f a s' := by
  change EStateM.bind x f s = _
  rw [EStateM.bind, done]

theorem bind_of_error {x e} (failed : x s = .error e s') (f : α → EStateM ε σ β) :
    (x >>= f) s = .error e s' := by
  change EStateM.bind x f s = _
  rw [EStateM.bind, failed]

theorem bind_eq_bind {x y} {f g : α → EStateM ε σ β} (first : x s = y s)
    (rest : ∀ a t, x s = .ok a t → f a t = g a t) : (x >>= f) s = (y >>= g) s := by
  cases done : x s with
  | ok a t => rw [bind_of_ok done, bind_of_ok (first ▸ done), rest a t done]
  | error e t => rw [bind_of_error done, bind_of_error (first ▸ done)]

theorem pure_ok {a b} : (pure a : EStateM ε σ α) s = .ok b s' ↔ a = b ∧ s = s' :=
  ok_iff

theorem map_ok {x : EStateM ε σ α} {f : α → β} {b : β} :
    (f <$> x) s = .ok b s' ↔ ∃ a, x s = .ok a s' ∧ f a = b := by
  change EStateM.map f x s = _ ↔ _
  unfold EStateM.map
  cases x s with
  | ok a t =>
    constructor
    · rintro ⟨⟩
      exact ⟨a, rfl, rfl⟩
    · rintro ⟨_, ⟨⟩, rfl⟩
      rfl
  | error e t =>
    constructor
    · exact fun failed => nomatch failed
    · rintro ⟨_, ⟨⟩, _⟩

theorem get_ok {t} : (get : EStateM ε σ σ) s = .ok t s' ↔ s = t ∧ s = s' :=
  ok_iff

theorem set_ok {t u} : (set t : EStateM ε σ PUnit) s = .ok u s' ↔ t = s' :=
  ok_iff.trans (and_iff_right rfl)

theorem get_bind {f : σ → EStateM ε σ α} : (get >>= f) s = f s s :=
  rfl

theorem set_bind {t} {f : PUnit → EStateM ε σ α} : (set t >>= f) s = f ⟨⟩ t :=
  rfl

theorem modify_ok {f u} : (modify f : EStateM ε σ PUnit) s = .ok u s' ↔ f s = s' :=
  ok_iff.trans (and_iff_right rfl)

theorem throw_ok {e a} : (throw e : EStateM ε σ α) s = .ok a s' ↔ False :=
  ⟨(fun failed => nomatch failed), False.elim⟩

theorem discard_ok {x : EStateM ε σ α} {u : PUnit} :
    (discard x) s = .ok u s' ↔ ∃ a, x s = .ok a s' := by
  have same : discard x = (fun _ => PUnit.unit) <$> x := rfl
  simp only [same, map_ok, and_true]

theorem mem_of_mapM_ok {f : α → EStateM ε σ β} {as : List α} {bs : List β}
    (done : as.mapM f s = .ok bs s') : ∀ b ∈ bs, ∃ a ∈ as, ∃ t t', f a t = .ok b t' := by
  induction as generalizing s bs with
  | nil =>
    obtain ⟨rfl, -⟩ := pure_ok.mp done
    simp
  | cons a as ih =>
    rw [List.mapM_cons] at done
    obtain ⟨b, t, first, done⟩ := bind_ok.mp done
    obtain ⟨others, t', rest, done⟩ := bind_ok.mp done
    obtain ⟨rfl, rfl⟩ := pure_ok.mp done
    intro b' inside
    rcases List.mem_cons.mp inside with rfl | later
    · exact ⟨a, List.mem_cons_self, s, t, first⟩
    · obtain ⟨a', among, found⟩ := ih rest b' later
      exact ⟨a', List.mem_cons_of_mem a among, found⟩

/-- Whether a run is successful and what it returns passes a test. -/
def succeeds (x : EStateM ε σ α) (s : σ) (passes : α → Bool) : Bool :=
  match x s with
  | .ok a _ => passes a
  | .error _ _ => false

theorem exists_of_succeeds {x : EStateM ε σ α} {passes} (found : succeeds x s passes = true) :
    ∃ a s', x s = .ok a s' ∧ passes a = true := by
  unfold succeeds at found
  cases outcome : x s with
  | ok a s' =>
    rw [outcome] at found
    exact ⟨a, s', rfl, found⟩
  | error e s' =>
    rw [outcome] at found
    cases found

theorem except_bind_ok {x : Except ε α} {f : α → Except ε β} {b : β} :
    (x >>= f) = .ok b ↔ ∃ a, x = .ok a ∧ f a = .ok b := by
  cases x with
  | ok a =>
    constructor
    · exact fun done => ⟨a, rfl, done⟩
    · rintro ⟨_, ⟨⟩, done⟩
      exact done
  | error e =>
    constructor
    · rintro ⟨⟩
    · rintro ⟨_, ⟨⟩, _⟩

theorem except_mapM_ok {f : α → Except ε β} {as : List α} {bs : List β}
    (done : as.mapM f = .ok bs) : ∀ b ∈ bs, ∃ a ∈ as, f a = .ok b := by
  induction as generalizing bs with
  | nil =>
    cases done
    simp
  | cons a as ih =>
    rw [List.mapM_cons] at done
    obtain ⟨b, first, done⟩ := except_bind_ok.mp done
    obtain ⟨others, rest, done⟩ := except_bind_ok.mp done
    cases done
    intro b' inside
    rcases List.mem_cons.mp inside with rfl | later
    · exact ⟨a, List.mem_cons_self, first⟩
    · obtain ⟨a', among, found⟩ := ih rest b' later
      exact ⟨a', List.mem_cons_of_mem a among, found⟩

theorem foldlM_error {step : σ → α → Except ε σ} {items fault} :
    items.foldlM step s = .error fault ↔ ∃ before item after s',
      items = before ++ item :: after ∧ before.foldlM step s = .ok s' ∧
      step s' item = .error fault := by
  induction items generalizing s with
  | nil =>
    constructor
    · rintro ⟨⟩
    · rintro ⟨before, item, after, _, split, -⟩
      exact absurd split (by simp)
  | cons first items ih =>
    rw [List.foldlM_cons]
    cases done : step s first with
    | error cause =>
      constructor
      · rintro ⟨⟩
        exact ⟨[], first, items, s, rfl, rfl, done⟩
      · rintro ⟨before, item, after, s', split, ran, failed⟩
        cases before with
        | nil =>
          cases split
          cases ran
          rw [done] at failed
          cases failed
          rfl
        | cons other before =>
          cases split
          rw [List.foldlM_cons, done] at ran
          cases ran
    | ok next =>
      refine Iff.trans (ih (s := next)) ?_
      constructor
      · rintro ⟨before, item, after, s', rfl, ran, failed⟩
        refine ⟨first :: before, item, after, s', rfl, ?_, failed⟩
        rw [List.foldlM_cons, done]
        exact ran
      · rintro ⟨before, item, after, s', split, ran, failed⟩
        cases before with
        | nil =>
          cases split
          cases ran
          rw [done] at failed
          cases failed
        | cons other before =>
          cases split
          rw [List.foldlM_cons, done] at ran
          exact ⟨before, item, after, s', rfl, ran, failed⟩

end EntityAudit
