import EntityAudit.Proofs.Distinct
import EntityAudit.Proofs.Mapping.Stateless

/-! # What a gateway counts

`Question.found` lists the classes that look-ups find. The numbers that a gateway counts follow from
that list and from the names that the source was consulted for.
-/

namespace EntityAudit

namespace Lookup

variable {α : Type}

def after (lookup : Lookup α) (g : Gateway) : Gateway :=
  match lookup g with
  | .ok _ g' => g'
  | .error _ g' => g'

def answer (lookup : Lookup α) (g : Gateway) : Except Failure α :=
  match lookup g with
  | .ok a _ => .ok a
  | .error failure _ => .error failure

end Lookup

namespace Question

def looksUp? : Question → Option String
  | .descriptor name | .isMapped name | .record name | .requireRecord name => some name
  | .isConfigured | .source | .managerKind => none

/-- The class that the look-up of a question finds, by name in lower case. -/
def finds (q : Question) (g : Gateway) : Option String :=
  (q.looksUp?.filter fun name => succeeds (Gateway.descriptor? name) g Option.isSome).map
    Text.foldCase

def found : List Question → Gateway → List String
  | [], _ => []
  | q :: qs, g => (q.finds g).toList ++ found qs (q.ask.after g)

theorem askAll_cons (q : Question) (qs : List Question) (g : Gateway) :
    askAll (q :: qs) g =
      (q.ask.answer g :: (askAll qs (q.ask.after g)).1, (askAll qs (q.ask.after g)).2) := by
  rw [askAll, Lookup.answer, Lookup.after]
  cases q.ask g <;> rfl

end Question

namespace Gateway

variable {g g' : Gateway} {source other : Source} {name : String}

/-- The gateway has a source, whether it was asked for yet or not. -/
structure Connected (g : Gateway) (source : Source) : Prop where
  configured : g.isConfigured = true
  connect : g.connect = .ok source

theorem Connected.of_eq (connected : g.Connected source) (loader : g'.loader = g.loader)
    (loads : g'.loads = g.loads) (connection : g'.connection = g.connection) :
    g'.Connected source := by
  obtain ⟨configured, connect⟩ := connected
  unfold isConfigured at configured
  unfold Gateway.connect at connect
  refine ⟨?_, ?_⟩
  · rw [isConfigured, loader, connection, configured]
  · rw [Gateway.connect, loader, loads, connection, connect]

/-- What a look-up in a connected gateway can come to. -/
inductive LookedUp (source : Source) (name : String) (g : Gateway) :
    EStateM.Result Failure Gateway (Option Descriptor) → Prop
  | remembered {known connection loads} (connected : Connected { g with connection, loads } source)
      (there : g.cache.get? (Text.foldCase name) = some known) :
      LookedUp source name g (.ok (some known) { g with connection, loads, hits := g.hits + 1 })
  | resolved {mapping connection loads} (connected : Connected { g with connection, loads } source)
      (absent : g.cache.get? (Text.foldCase name) = none)
      (mapped : resolve source name = .ok mapping) :
      LookedUp source name g (.ok (some ⟨name, mapping⟩) { g with
        connection, loads, misses := g.misses + 1, consulted := g.consulted ++ [name],
        cache := g.cache.put (Text.foldCase name) ⟨name, mapping⟩ })
  | failed {failure connection loads} (connected : Connected { g with connection, loads } source)
      (absent : g.cache.get? (Text.foldCase name) = none)
      (refused : resolve source name = .error failure) :
      LookedUp source name g (.error failure { g with
        connection, loads, misses := g.misses + 1, consulted := g.consulted ++ [name] })

theorem source?_connected (connected : g.Connected source) :
    ∃ connection loads, source? g = .ok (some source) { g with connection, loads } ∧
      Connected { g with connection, loads } source := by
  rw [source?_eq, connected.configured, connected.connect]
  exact ⟨_, _, rfl, Bool.or_true _, rfl⟩

theorem descriptor?_lookedUp (connected : g.Connected source) (name : String) :
    LookedUp source name g (descriptor? name g) := by
  obtain ⟨connection, loads, asked, ready⟩ := source?_connected connected
  change LookedUp source name g ((source? >>= _) g)
  rw [bind_of_ok asked]
  dsimp only
  rw [get_bind]
  cases remembered : g.cache.get? (Text.foldCase name) with
  | some known => exact .remembered ready remembered
  | none =>
    simp only [set_bind, consult_bind]
    cases resolved : resolve source name with
    | error failure => exact .failed ready remembered resolved
    | ok mapping => exact .resolved ready remembered resolved

end Gateway

namespace Question

variable {g h : Gateway} {source other : Source} {q : Question} {name : String}

/-- What a question about a class makes of what is known about the class. -/
def conclude : Question → Option Descriptor → Lookup Answer
  | .isMapped _, found => return .truth (found.bind (·.mapping.record?)).isSome
  | .record _, found => return .record (found.bind (·.mapping.record?))
  | .requireRecord name, found =>
    match found.bind (·.mapping.record?) with
    | some own => return .record (some own)
    | none => throw (.notMapped name)
  | _, found => return .descriptor found

theorem conclude_plain (q : Question) (found : Option Descriptor) (g h : Gateway) :
    (q.conclude found).after g = g ∧ (q.conclude found).answer g = (q.conclude found).answer h := by
  cases q with
  | requireRecord name =>
    simp only [conclude]
    cases found.bind (·.mapping.record?) <;> exact ⟨rfl, rfl⟩
  | _ => exact ⟨rfl, rfl⟩

theorem ask_eq (looks : q.looksUp? = some name) (configured : g.isConfigured = true) :
    q.ask g = (Gateway.descriptor? name >>= q.conclude) g := by
  cases q with
  | isConfigured | source | managerKind => cases looks
  | requireRecord =>
    cases looks
    simp only [ask, Gateway.requireRecord, Gateway.record?, bind_assoc, pure_bind]
    rw [get_bind, configured, if_pos rfl, bind_assoc]
    refine congrFun (congrArg _ (funext fun found => ?_)) g
    simp only [conclude]
    cases found.bind (·.mapping.record?) <;> rfl
  | descriptor | isMapped | record =>
    cases looks
    simp only [ask, Gateway.isMapped, Gateway.record?, bind_assoc, pure_bind]
    rfl

theorem after_ask (looks : q.looksUp? = some name) (configured : g.isConfigured = true) :
    q.ask.after g = (Gateway.descriptor? name).after g := by
  rw [Lookup.after, Lookup.after, ask_eq looks configured]
  cases looked : Gateway.descriptor? name g with
  | ok found h =>
    rw [bind_of_ok looked]
    exact (q.conclude_plain found h h).1
  | error failure h => rw [bind_of_error looked]

theorem ask_plain {q : Question} (looks : q.looksUp? = none) (source : Source) :
    ∃ answer, ∀ g : Gateway, g.Connected source → ∃ connection loads,
      q.ask g = .ok answer { g with connection, loads } ∧
        Gateway.Connected { g with connection, loads } source := by
  cases q with
  | isConfigured =>
    refine ⟨.truth true, fun g connected => ⟨g.connection, g.loads, ?_, connected⟩⟩
    rw [← connected.configured]
    rfl
  | source =>
    refine ⟨.source (some source), fun g connected => ?_⟩
    obtain ⟨connection, loads, asked, kept⟩ := Gateway.source?_connected connected
    exact ⟨connection, loads, bind_of_ok asked _, kept⟩
  | managerKind =>
    refine ⟨.managerKind (some source.kind), fun g connected => ?_⟩
    obtain ⟨connection, loads, asked, kept⟩ := Gateway.source?_connected connected
    have kind : Gateway.managerKind? g =
        .ok (some source.kind) { g with connection, loads } := bind_of_ok asked _
    exact ⟨connection, loads, bind_of_ok kind _, kept⟩
  | descriptor | isMapped | record | requireRecord => cases looks

end Question

/-- How the numbers change along a run that looks the names `looked` up, consults the source for
    `asked` and finds `met`. -/
structure Gateway.Counted (looked asked met : List String) (g g' : Gateway) : Prop where
  lookups : g'.hits + g'.misses = g.hits + g.misses + looked.length
  misses : g'.misses = g.misses + asked.length
  size : g'.cache.length + g.misses ≤ g.cache.length + g'.misses
  keys : g'.cache.keys = (g.cache.keys ++ met).eraseDups
  consulted : g'.consulted = g.consulted ++ asked
  fresh : ∀ name ∈ asked, Text.foldCase name ∉ g.cache.keys

namespace Gateway.Counted

variable {g g' g'' : Gateway} {looked looked' asked asked' met met' : List String}

theorem kept (counted : Counted looked asked met g g') {key} (known : key ∈ g.cache.keys) :
    key ∈ g'.cache.keys := by
  rw [counted.keys, List.mem_eraseDups]
  exact List.mem_append_left _ known

theorem trans (first : Counted looked asked met g g')
    (second : Counted looked' asked' met' g' g'') :
    Counted (looked ++ looked') (asked ++ asked') (met ++ met') g g'' where
  lookups := by
    rw [second.lookups, first.lookups, List.length_append, Nat.add_assoc]
  misses := by
    rw [second.misses, first.misses, List.length_append, Nat.add_assoc]
  size := by
    have := first.size
    have := second.size
    omega
  keys := by
    rw [second.keys, first.keys, ← List.append_assoc]
    exact Distinct.eraseDups_append_congr
      (Distinct.eraseDups_of_nodup (Distinct.nodup_eraseDups _)) rfl
  consulted := by rw [second.consulted, first.consulted, List.append_assoc]
  fresh name inside := by
    rcases List.mem_append.mp inside with here | later
    · exact first.fresh name here
    · exact fun known => second.fresh name later (first.kept known)

theorem distinct (counted : Counted looked asked met g g') : g'.cache.keys.Nodup := by
  rw [counted.keys]
  exact Distinct.nodup_eraseDups _

theorem unchanged (distinct : g.cache.keys.Nodup)
    (connection : Option (Except ConfigurationFault Source)) (loads : Nat) :
    Counted [] [] [] g { g with connection, loads } where
  lookups := rfl
  misses := rfl
  size := Nat.le_refl _
  keys := by rw [List.append_nil, Distinct.eraseDups_of_nodup distinct]
  consulted := (List.append_nil _).symm
  fresh := by simp

end Gateway.Counted

namespace Question

variable {g h : Gateway} {source other : Source}

theorem counted_ask (connected : g.Connected source) (distinct : g.cache.keys.Nodup)
    (q : Question) :
    (q.ask.after g).Connected source ∧
      ∃ asked, Gateway.Counted q.looksUp?.toList asked (q.finds g).toList g (q.ask.after g) := by
  cases looks : q.looksUp? with
  | none =>
    obtain ⟨answer, plain⟩ := ask_plain looks source
    obtain ⟨connection, loads, asked, still⟩ := plain g connected
    have after : q.ask.after g = { g with connection, loads } := by rw [Lookup.after, asked]
    rw [after, finds, looks]
    exact ⟨still, [], .unchanged distinct connection loads⟩
  | some name =>
    have lookedUp := Gateway.descriptor?_lookedUp connected name
    have keys := Distinct.eraseDups_concat g.cache.keys (Text.foldCase name)
    rw [Distinct.eraseDups_of_nodup distinct] at keys
    rw [after_ask looks connected.configured]
    simp only [finds, looks, Option.filter_some, succeeds, Lookup.after]
    generalize Gateway.descriptor? name g = result at lookedUp ⊢
    cases lookedUp with
    | remembered still there =>
      rw [if_pos (Dict.mem_keys_of_get? there)] at keys
      refine ⟨still.of_eq rfl rfl rfl, [], ?_, rfl, Nat.le_refl _, keys.symm, ?_, by simp⟩
      · exact Nat.add_right_comm _ _ _
      · exact (List.append_nil _).symm
    | resolved still absent mapped =>
      have new := Dict.not_mem_of_get?_eq_none absent
      rw [if_neg new] at keys
      refine ⟨still.of_eq rfl rfl rfl, [name], rfl, rfl, ?_, ?_, rfl, by simpa using new⟩
      · rw [Dict.put_of_not_mem new, List.length_append]
        exact Nat.le_of_eq (Nat.add_right_comm _ _ _)
      · rw [Dict.keys_put, if_neg new]
        exact keys.symm
    | failed still absent refused =>
      have new := Dict.not_mem_of_get?_eq_none absent
      refine ⟨still.of_eq rfl rfl rfl, [name], rfl, rfl, ?_, ?_, rfl, by simpa using new⟩
      · exact Nat.add_le_add_left (Nat.le_succ _) _
      · exact (Distinct.eraseDups_of_nodup distinct).symm.trans
          (congrArg List.eraseDups (List.append_nil _).symm)

theorem counted_askAll (connected : g.Connected source) (distinct : g.cache.keys.Nodup)
    (qs : List Question) :
    (askAll qs g).2.Connected source ∧
      ∃ asked, Gateway.Counted (qs.filterMap looksUp?) asked (found qs g) g (askAll qs g).2 := by
  induction qs generalizing g with
  | nil => exact ⟨connected, [], .unchanged distinct g.connection g.loads⟩
  | cons q qs ih =>
    obtain ⟨still, asked, first⟩ := counted_ask connected distinct q
    obtain ⟨after, later, rest⟩ := ih still first.distinct
    rw [askAll_cons]
    have looked : (q :: qs).filterMap looksUp? = q.looksUp?.toList ++ qs.filterMap looksUp? := by
      rw [List.filterMap_cons]
      cases q.looksUp? <;> rfl
    rw [looked]
    exact ⟨after, asked ++ later, first.trans rest⟩

end Question

/-- Two connected gateways that remember the same. -/
structure Gateway.Paired (source other : Source) (g h : Gateway) : Prop where
  left : g.Connected source
  right : h.Connected other
  cache : g.cache = h.cache

theorem Gateway.descriptor?_paired {source other g h} (paired : g.Paired source other h)
    (name : String)
    (agrees : ∀ asked ∈ ((descriptor? name).after g).consulted,
      resolve source asked = resolve other asked) :
    ∃ asked, ((descriptor? name).after g).consulted = g.consulted ++ asked ∧
      ((descriptor? name).after h).consulted = h.consulted ++ asked ∧
      ((descriptor? name).after g).Paired source other ((descriptor? name).after h) ∧
      (descriptor? name).answer g = (descriptor? name).answer h := by
  have left := descriptor?_lookedUp paired.left name
  have right := descriptor?_lookedUp paired.right name
  unfold Lookup.after at agrees
  unfold Lookup.after Lookup.answer
  generalize descriptor? name g = result at left agrees ⊢
  generalize descriptor? name h = result' at right ⊢
  cases left with
  | remembered ready there =>
    rw [paired.cache] at there
    cases right with
    | remembered ready' there' =>
      obtain rfl := Option.some.inj (there.symm.trans there')
      exact ⟨[], (List.append_nil _).symm, (List.append_nil _).symm,
        ⟨ready.of_eq rfl rfl rfl, ready'.of_eq rfl rfl rfl, paired.cache⟩, rfl⟩
    | resolved _ absent | failed _ absent => cases absent.symm.trans there
  | resolved ready absent mapped =>
    rw [agrees name (by simp)] at mapped
    rw [paired.cache] at absent
    cases right with
    | remembered _ there => cases absent.symm.trans there
    | resolved ready' _ mapped' =>
      obtain rfl := Except.ok.inj (mapped.symm.trans mapped')
      exact ⟨[name], rfl, rfl, ⟨ready.of_eq rfl rfl rfl, ready'.of_eq rfl rfl rfl,
        congrArg (Dict.put · _ _) paired.cache⟩, rfl⟩
    | failed _ _ refused => cases mapped.symm.trans refused
  | failed ready absent refused =>
    rw [agrees name (by simp)] at refused
    rw [paired.cache] at absent
    cases right with
    | remembered _ there => cases absent.symm.trans there
    | resolved _ _ mapped => cases mapped.symm.trans refused
    | failed ready' _ refused' =>
      obtain rfl := Except.error.inj (refused.symm.trans refused')
      exact ⟨[name], rfl, rfl,
        ⟨ready.of_eq rfl rfl rfl, ready'.of_eq rfl rfl rfl, paired.cache⟩, rfl⟩

namespace Question

variable {g h : Gateway} {source other : Source}

theorem answer_ask {q : Question} {name} (looks : q.looksUp? = some name)
    (configured : g.isConfigured = true) :
    q.ask.answer g = (Gateway.descriptor? name).answer g >>= fun found =>
      (q.conclude found).answer {} := by
  rw [Lookup.answer, Lookup.answer, ask_eq looks configured]
  cases looked : Gateway.descriptor? name g with
  | ok found h =>
    rw [bind_of_ok looked]
    exact (q.conclude_plain found h {}).2
  | error failure h => rw [bind_of_error looked]; rfl

theorem ask_paired (paired : g.Paired source other h) (q : Question)
    (agrees : ∀ name ∈ (q.ask.after g).consulted,
      Gateway.resolve source name = Gateway.resolve other name) :
    ∃ asked, (q.ask.after g).consulted = g.consulted ++ asked ∧
      (q.ask.after h).consulted = h.consulted ++ asked ∧
      (q.ask.after g).Paired source other (q.ask.after h) ∧
      (q.looksUp?.isSome = true ∨ source = other → q.ask.answer g = q.ask.answer h) := by
  cases looks : q.looksUp? with
  | none =>
    obtain ⟨answer, plain⟩ := ask_plain looks source
    obtain ⟨answer', plain'⟩ := ask_plain looks other
    obtain ⟨_, _, asked, ready⟩ := plain g paired.left
    obtain ⟨_, _, asked', ready'⟩ := plain' h paired.right
    simp only [Lookup.after, Lookup.answer, asked, asked']
    refine ⟨[], (List.append_nil _).symm, (List.append_nil _).symm,
      ⟨ready, ready', paired.cache⟩, ?_⟩
    rintro (no | rfl)
    · cases no
    · obtain ⟨_, _, again, -⟩ := plain h paired.right
      cases again.symm.trans asked'
      rfl
  | some name =>
    rw [after_ask looks paired.left.configured] at agrees ⊢
    rw [after_ask looks paired.right.configured, answer_ask looks paired.left.configured,
      answer_ask looks paired.right.configured]
    obtain ⟨asked, here, there, after, same⟩ := Gateway.descriptor?_paired paired name agrees
    exact ⟨asked, here, there, after, fun _ => by rw [same]⟩

theorem consulted_mono (connected : g.Connected source) (distinct : g.cache.keys.Nodup)
    (qs : List Question) : ∀ name ∈ g.consulted, name ∈ (askAll qs g).2.consulted := by
  obtain ⟨-, asked, counted⟩ := counted_askAll connected distinct qs
  rw [counted.consulted]
  exact fun name => List.mem_append_left asked

/-- A run depends on the source through the names that it consults the source for. -/
theorem askAll_paired (paired : g.Paired source other h) (distinct : g.cache.keys.Nodup)
    (qs : List Question)
    (agrees : ∀ name ∈ (askAll qs g).2.consulted,
      Gateway.resolve source name = Gateway.resolve other name) :
    ∃ asked, (askAll qs g).2.consulted = g.consulted ++ asked ∧
      (askAll qs h).2.consulted = h.consulted ++ asked ∧
      (askAll qs g).2.Paired source other (askAll qs h).2 ∧
      ∀ (n : Nat) (q : Question), qs[n]? = some q → q.looksUp?.isSome = true ∨ source = other →
        (askAll qs g).1[n]? = (askAll qs h).1[n]? := by
  induction qs generalizing g h with
  | nil =>
    exact ⟨[], (List.append_nil _).symm, (List.append_nil _).symm, paired,
      fun _ _ absent => by cases absent⟩
  | cons q qs ih =>
    rw [askAll_cons] at agrees ⊢
    rw [askAll_cons]
    obtain ⟨still, _, counted⟩ := counted_ask paired.left distinct q
    obtain ⟨asked, here, there, after, answer⟩ := ask_paired paired q fun name inside =>
      agrees name (consulted_mono still counted.distinct qs name inside)
    obtain ⟨more, here', there', last, answers⟩ := ih after counted.distinct agrees
    refine ⟨asked ++ more, ?_, ?_, last, ?_⟩
    · rw [here', here, List.append_assoc]
    · rw [there', there, List.append_assoc]
    · rintro (_ | n) q' there looks
      · cases there
        exact congrArg some (answer looks)
      · exact answers n q' there looks

theorem length_askAll (qs : List Question) (g : Gateway) : (askAll qs g).1.length = qs.length := by
  induction qs generalizing g with
  | nil => rfl
  | cons q qs ih => rw [askAll_cons, List.length_cons, List.length_cons, ih]

/-- Beside the source, a run depends on what is remembered only, and not on the numbers. -/
theorem askAll_of_cache (left : g.Connected source) (right : h.Connected source)
    (cache : g.cache = h.cache) (distinct : g.cache.keys.Nodup) (qs : List Question) :
    (askAll qs g).1 = (askAll qs h).1 := by
  obtain ⟨-, -, -, -, answers⟩ := askAll_paired ⟨left, right, cache⟩ distinct qs fun _ _ => rfl
  refine List.ext_getElem? fun n => ?_
  cases there : qs[n]? with
  | some q => exact answers n q there (.inr rfl)
  | none =>
    rw [List.getElem?_eq_none_iff] at there
    rw [List.getElem?_eq_none (by rwa [length_askAll]),
      List.getElem?_eq_none (by rwa [length_askAll])]

end Question

/-- A gateway that cannot be connected to a source. -/
structure Gateway.Idle (g : Gateway) : Prop where
  apart : ∀ source, ¬g.Connected source
  stats : g.stats = ⟨0, 0, 0⟩

section Idle

variable {g h : Gateway}

theorem Gateway.source?_idle (idle : g.Idle) :
    (∃ failure g', source? g = .error failure g' ∧ g'.Idle) ∨ source? g = .ok none g := by
  rw [source?_eq]
  cases configured : g.isConfigured with
  | false => exact .inr rfl
  | true =>
    cases connect : g.connect with
    | ok source => exact (idle.apart source ⟨configured, connect⟩).elim
    | error fault =>
      refine .inl ⟨_, _, rfl, ⟨fun source connected => ?_, idle.stats⟩⟩
      cases connected.connect

/-- Whether a look-up leaves every idle gateway idle. -/
def Lookup.Idles {α : Type} (lookup : Lookup α) : Prop :=
  ∀ g : Gateway, g.Idle → (lookup.after g).Idle

theorem Lookup.Idles.bind {α β : Type} {lookup} (idles : lookup.Idles) {next : α → Lookup β}
    (later : ∀ a, (next a).Idles) : (lookup >>= next).Idles := by
  intro g idle
  have first := idles g idle
  unfold Lookup.after at first ⊢
  cases done : lookup g with
  | ok a g' =>
    rw [done] at first
    rw [bind_of_ok done]
    exact later a g' first
  | error failure g' =>
    rw [done] at first
    rwa [bind_of_error done]

theorem Lookup.Idles.source {α : Type} {next : Option Source → Lookup α}
    (absent : (next none).Idles) : (Gateway.source? >>= next).Idles := by
  intro g idle
  obtain ⟨failure, g', failed, still⟩ | none_ := Gateway.source?_idle idle
  · rwa [after, bind_of_error failed]
  · rw [after, bind_of_ok none_]
    exact absent g idle

theorem Question.ask_idles (q : Question) : q.ask.Idles := by
  have known (name : String) : (Gateway.descriptor? name).Idles := .source fun _ => id
  have record (name : String) : (Gateway.record? name).Idles := (known name).bind fun _ _ => id
  cases q with
  | isConfigured => exact fun _ => id
  | source => exact .source fun _ => id
  | managerKind => exact Lookup.Idles.bind (.source fun _ => id) fun _ _ => id
  | descriptor name => exact (known name).bind fun _ _ => id
  | isMapped name => exact ((record name).bind fun _ _ => id).bind fun _ _ => id
  | record name => exact (record name).bind fun _ _ => id
  | requireRecord name =>
    refine Lookup.Idles.bind (fun g idle => ?_) fun _ _ => id
    unfold Lookup.after Gateway.requireRecord
    rw [get_bind]
    cases g.isConfigured with
    | false => exact idle
    | true =>
      refine (record name).bind (fun found => ?_) g idle
      cases found <;> exact fun _ => id

theorem Question.askAll_idle (idle : g.Idle) (qs : List Question) : (askAll qs g).2.Idle := by
  induction qs generalizing g with
  | nil => exact idle
  | cons q qs ih =>
    rw [askAll_cons]
    exact ih (q.ask_idles g idle)

end Idle

theorem Backing.gateway_connected {b : Backing} {source} :
    b.gateway.Connected source ↔ b.outcome = some (.ok source) := by
  constructor
  · intro connected
    cases b with
    | nothing => cases connected.connect
    | store => cases connected.connect; rfl
    | loader load =>
      have connect := connected.connect
      change (load 0).mapError _ = _ at connect
      cases first : load 0 with
      | error failure =>
        rw [first] at connect
        cases connect
      | ok found =>
        rw [first] at connect
        cases connect
        exact congrArg some first
  · intro behind
    have serves := Backing.Serves.gateway b
    exact ⟨by rw [serves.configured, behind]; rfl, serves.connect _ behind⟩

theorem Backing.gateway_fresh (b : Backing) :
    b.gateway.cache = [] ∧ b.gateway.hits = 0 ∧ b.gateway.misses = 0 ∧
      b.gateway.consulted = [] := by
  cases b <;> exact ⟨rfl, rfl, rfl, rfl⟩

/-- Over a source, look-ups are counted as hits or misses, and the classes remembered are those that
    were found; the source is consulted for each miss, never for a class found before, and for
    nothing else: a source that says the same about the names consulted is not told apart by any
    look-up. A look-up that fails counts as a miss, fails all the same questions, and leaves no
    other trace. Without a source nothing is counted. -/
theorem gateway_counts_lookups (b : Backing) (qs : List Question) :
    let g := (Question.askAll qs b.gateway).2
    let found := Question.found qs b.gateway
    (∀ source, b.outcome = some (.ok source) →
      g.stats.hits + g.stats.misses = (qs.filterMap Question.looksUp?).length ∧
      g.stats.size = found.eraseDups.length ∧ g.stats.size ≤ g.stats.misses ∧
      g.stats.misses = g.consulted.length ∧
      (∀ later, ∃ asked, (Question.askAll later g).2.consulted = g.consulted ++ asked ∧
        ∀ name ∈ found, ∀ other ∈ asked, Text.foldCase other ≠ name) ∧
      (∀ other : Source,
        (∀ name ∈ g.consulted, Gateway.resolve source name = Gateway.resolve other name) →
        let run := Question.askAll qs (Backing.store other).gateway
        run.2.stats = g.stats ∧ run.2.cache = g.cache ∧
          ∀ (n : Nat) (q : Question), qs[n]? = some q → q.looksUp?.isSome = true →
            run.1[n]? = (Question.askAll qs b.gateway).1[n]?) ∧
      ∀ name failure g', Gateway.descriptor? name g = .error failure g' →
        g'.stats = { g.stats with misses := g.stats.misses + 1 } ∧ g'.cache = g.cache ∧
          (∀ q : Question, q.looksUp? = some name → q.ask g = .error failure g') ∧
          ∀ later, (Question.askAll later g').1 = (Question.askAll later g).1) ∧
    ((∀ source, b.outcome ≠ some (.ok source)) → g.stats = ⟨0, 0, 0⟩) := by
  obtain ⟨cache, hits, misses, none⟩ := b.gateway_fresh
  intro g found
  constructor
  · intro source behind
    have start := Backing.gateway_connected.mpr behind
    have distinct : b.gateway.cache.keys.Nodup := by
      rw [cache]
      exact List.nodup_nil
    obtain ⟨connected, asked, counted⟩ := Question.counted_askAll start distinct qs
    have lookups := counted.lookups
    have consults := counted.misses
    have size := counted.size
    have keys := counted.keys
    have consulted : g.consulted = asked := by
      rw [counted.consulted, none, List.nil_append]
    rw [hits, misses, Nat.zero_add] at lookups
    rw [misses, Nat.zero_add, ← consulted] at consults
    rw [cache, misses, Nat.add_zero, List.length_nil, Nat.zero_add] at size
    rw [cache] at keys
    refine ⟨lookups, ?_, size, consults, ?_, ?_, ?_⟩
    · exact (List.length_map _).symm.trans (congrArg List.length keys)
    · intro later
      obtain ⟨-, more, further⟩ := Question.counted_askAll connected counted.distinct later
      refine ⟨more, further.consulted, ?_⟩
      rintro _ known other inside rfl
      refine further.fresh other inside ?_
      rw [keys, List.mem_eraseDups]
      exact known
    · intro other agrees
      have pair : b.gateway.Paired source other (Backing.store other).gateway :=
        ⟨start, Backing.gateway_connected.mpr rfl, cache⟩
      obtain ⟨own, here, there, last, answers⟩ := Question.askAll_paired pair distinct qs agrees
      obtain ⟨-, asked', counted'⟩ := Question.counted_askAll pair.right List.nodup_nil qs
      have lookups' := counted'.lookups.trans (Nat.zero_add _)
      have consults' := counted'.misses.trans (Nat.zero_add _)
      have same : asked' = asked :=
        (counted'.consulted.symm.trans there).trans (by rw [← consulted, here, none]; rfl)
      rw [same, ← consulted, ← consults] at consults'
      rw [consults', ← lookups] at lookups'
      refine ⟨?_, last.cache.symm, fun n q there looks => (answers n q there (.inl looks)).symm⟩
      rw [Gateway.stats, consults', Nat.add_right_cancel lookups', ← last.cache]
      rfl
    · intro name failure g' failed
      have lookedUp := Gateway.descriptor?_lookedUp connected name
      rw [failed] at lookedUp
      cases lookedUp with
      | failed ready absent refused =>
        refine ⟨rfl, rfl, fun q looks => ?_, Question.askAll_of_cache (ready.of_eq rfl rfl rfl)
          connected rfl counted.distinct⟩
        rw [Question.ask_eq looks connected.configured, bind_of_error failed]
  · intro apart
    refine (Question.askAll_idle ⟨fun source connected => ?_, ?_⟩ qs).stats
    · exact apart source (Backing.gateway_connected.mp connected)
    · rw [Gateway.stats, cache, hits, misses]
      rfl

end EntityAudit
