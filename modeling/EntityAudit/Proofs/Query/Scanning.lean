import EntityAudit.Proofs.Query.Readers

/-! # How expressions are read

`ScanStep` says what one step of reading an expression can do, and `Scans` what any number of them
can. An expression that is read is the end of such a run.
-/

namespace EntityAudit.Query

/-- Whether a piece is an operand or the last piece of one. -/
def Piece.isOperand : Piece → Bool
  | .keyword word => ["NULL", "TRUE", "FALSE", "END", "EMPTY"].contains word
  | .className _ | .number _ | .text _ | .parameter _ | .closing | .path _ | .variable _
  | .partialObject _ _ | .subselect _ => true
  | _ => false

namespace Read

/-- A token is kept as a piece of the expression, which leads to the next progress. -/
inductive Progress.Takes (p : Progress) (t : Token) (following : Option Token) :
    Piece → Progress → Prop where
  | closing (kind : t.kind = .closeParen) (inside : p.depth ≠ 0) :
      Takes p t following .closing { p.push .closing true with depth := p.depth - 1 }
  | opening (kind : t.kind = .openParen) (ready : ¬ p.afterOperand) :
      Takes p t following .opening { p.push .opening false with depth := p.depth + 1 }
  | comma (kind : t.kind = .comma) : Takes p t following .comma (p.push .comma false)
  | operator (kind : t.kind = .operator) :
      Takes p t following (.operator t.value) (p.push (.operator t.value) false)
  | keyword {word} (isWord : t.isWord word = true) (reserved : word ∈ reservedWords) :
      Takes p t following (.keyword word)
        { p.push (.keyword word) (Piece.keyword word).isOperand with
          classNext := p.classNext || word == "NEW" || (word == "OF" && p.endsIn "INSTANCE") }
  | className (named : t.isName = true) (ready : ¬ p.afterOperand) :
      Takes p t following (.className t.value)
        { p.push (.className t.value) true with classNext := false }
  | function (named : t.isName = true) (called : following.map (·.kind) = some .openParen)
      (ready : ¬ p.afterOperand) :
      Takes p t following (.function t.value) (p.push (.function t.value) false)
  | number (kind : t.kind = .integer ∨ t.kind = .float) (ready : ¬ p.afterOperand) :
      Takes p t following (.number t.value) (p.push (.number t.value) true)
  | text (kind : t.kind = .string) (ready : ¬ p.afterOperand) :
      Takes p t following (.text t.value) (p.push (.text t.value) true)
  | parameter (kind : t.kind = .parameter) (ready : ¬ p.afterOperand) :
      Takes p t following (.parameter t.value) (p.push (.parameter t.value) true)

/-- What may become of a token. -/
inductive Progress.Acts (p : Progress) (t : Token) (following : Option Token) : Action → Prop where
  | stop (closed : p.depth = 0) : Acts p t following .stop
  | unclosed : Acts p t following .unclosed
  | reject : Acts p t following .reject
  | take {piece next} (takes : p.Takes t following piece next) : Acts p t following (.take next)
  | variable (named : t.isName = true) (ready : ¬ p.afterOperand) : Acts p t following .variable
  | path (ready : ¬ p.afterOperand) : Acts p t following .path
  | partialObject (isWord : t.isWord "PARTIAL" = true) : Acts p t following .partialObject
  | subselect (kind : t.kind = .openParen) (ready : ¬ p.afterOperand) :
      Acts p t following .subselect

section Tokens

variable {p next : Progress} {t : Token} {following : Option Token} {piece : Piece}

theorem Progress.Takes.pieces (takes : p.Takes t following piece next) :
    next.pieces = p.pieces ++ [piece] := by
  cases takes <;> rfl

theorem ending_acts : p.Acts t following p.ending := by
  rw [Progress.ending]
  split
  · exact .stop ‹_›
  · exact .unclosed

theorem onName_acts (named : t.isName = true) :
    p.Acts t following (p.onName t.value (following.map (·.kind))) := by
  unfold Progress.onName
  split
  · exact ending_acts
  split
  · exact .take (.className named ‹_›)
  split
  · exact .path ‹_›
  · exact .take (.function named ‹_› ‹_›)
  · exact .variable named ‹_›

theorem onKeyword_acts {word} (isWord : t.isWord word = true) (reserved : word ∈ reservedWords) :
    p.Acts t following (p.onKeyword word) := by
  have takes : p.Takes t following (.keyword word) _ := .keyword isWord reserved
  rw [Progress.onKeyword]
  split
  · split
    · rename_i inside
      obtain ⟨-, rfl⟩ := inside
      have same : (p.classNext || "FROM" == "NEW" || ("FROM" == "OF" && p.endsIn "INSTANCE")) =
          p.classNext := by
        simp
      rw [same] at takes
      exact .take takes
    · exact ending_acts
  split
  · exact ending_acts
  split
  · rename_i same
    exact .partialObject (same ▸ isWord)
  · exact .take takes

theorem onLiteral_acts (takes : ¬ p.afterOperand → p.Takes t following piece (p.push piece true)) :
    p.Acts t following (p.onLiteral piece) := by
  rw [Progress.onLiteral]
  split
  · exact ending_acts
  · exact .take (takes ‹_›)

theorem action_acts (p : Progress) (t : Token) (following : Option Token) :
    p.Acts t following (p.action t following) := by
  cases kind : t.kind with
  | closeParen =>
    simp only [Progress.action, kind]
    split
    · exact .stop ‹_›
    · exact .take (.closing kind ‹_›)
  | openParen =>
    simp only [Progress.action, kind]
    split
    · exact ending_acts
    split
    · exact .subselect kind ‹_›
    · exact .take (.opening kind ‹_›)
  | comma =>
    simp only [Progress.action, kind]
    split
    · exact .stop ‹_›
    · exact .take (.comma kind)
  | identifier =>
    simp only [Progress.action, kind]
    split
    · rename_i reserved
      exact onKeyword_acts (by simp [Token.isWord, kind]) (List.contains_iff_mem.mp reserved)
    · exact onName_acts (by simp [Token.isName, kind])
  | qualifiedName =>
    simp only [Progress.action, kind]
    exact onName_acts (by simp [Token.isName, kind])
  | integer | float =>
    simp only [Progress.action, kind]
    exact onLiteral_acts (.number (by simp [kind]))
  | string =>
    simp only [Progress.action, kind]
    exact onLiteral_acts (.text kind)
  | parameter =>
    simp only [Progress.action, kind]
    exact onLiteral_acts (.parameter kind)
  | operator =>
    simp only [Progress.action, kind]
    exact .take (.operator kind)
  | dot | openCurly | closeCurly | unknown =>
    simp only [Progress.action, kind]
    exact .reject

theorem acts_of_action {action} (chosen : p.action t following = action) :
    p.Acts t following action :=
  chosen ▸ action_acts p t following

theorem takes_of_action (chosen : p.action t following = .take next) :
    ∃ piece, p.Takes t following piece next := by
  cases acts_of_action chosen with
  | take takes => exact ⟨_, takes⟩

end Tokens

/-- Reading an expression goes from `p` at the first cursor to the next progress at the second. -/
inductive ScanStep (sub : Read Select) (p : Progress) (c : Cursor) : Progress → Cursor → Prop where
  | take {token rest next} (here : c.rest = token :: rest)
      (chosen : p.action token rest.head? = .take next) :
      ScanStep sub p c next ⟨rest, c.mentions⟩
  | variable {token rest} (here : c.rest = token :: rest)
      (chosen : p.action token rest.head? = .variable) :
      ScanStep sub p c (p.push (.variable token.value) true)
        ⟨rest, c.mentions ++ [.variable token]⟩
  | path {token rest piece c'} (here : c.rest = token :: rest)
      (chosen : p.action token rest.head? = .path) (read : path p.pieces c = .ok piece c') :
      ScanStep sub p c (p.push piece true) c'
  | partialObject {token rest piece c'} (here : c.rest = token :: rest)
      (chosen : p.action token rest.head? = .partialObject)
      (read : partialObject ⟨rest, c.mentions⟩ = .ok piece c') :
      ScanStep sub p c (p.push piece true) c'
  | subselect {token rest query middle closing c'} (here : c.rest = token :: rest)
      (chosen : p.action token rest.head? = .subselect)
      (read : sub ⟨rest, c.mentions⟩ = .ok query middle) (closed : middle.Passes c' [closing] [])
      (isClosing : closing.kind = .closeParen) :
      ScanStep sub p c (p.push (.subselect query) true) c'

/-- An expression may end at the cursor. -/
def Progress.EndsAt (p : Progress) (c : Cursor) : Prop :=
  p.depth = 0 ∧ c.rest = [] ∨
    ∃ token rest, c.rest = token :: rest ∧ p.action token rest.head? = .stop

/-- Reading on from `p` at the first cursor comes to the expression at the second. -/
inductive Scans (sub : Read Select) : Progress → Cursor → Expression → Cursor → Prop where
  | stop {p c} (ends : p.EndsAt c) (nonempty : p.pieces ≠ []) : Scans sub p c p.pieces c
  | step {p c next middle e c'} (first : ScanStep sub p c next middle)
      (rest : Scans sub next middle e c') : Scans sub p c e c'

/-- What an action comes to: the next progress, unless the expression ends. -/
def perform (sub : Read Select) (p : Progress) (token : Token) : Action → Read (Option Progress)
  | .stop => return none
  | .unclosed => failExpected (.token "CLOSE_PARENTHESIS")
  | .reject => failUnexpected
  | .take next => do
    advance
    return some next
  | .variable => do
    advance
    note (.variable token)
    return some (p.push (.variable token.value) true)
  | .path => return some (p.push (← path p.pieces) true)
  | .partialObject => do
    advance
    return some (p.push (← partialObject) true)
  | .subselect => do
    advance
    let query ← sub
    discard (expect (·.kind == .closeParen) "CLOSE_PARENTHESIS")
    return some (p.push (.subselect query) true)

/-- One step of reading an expression. -/
def scanNext (sub : Read Select) (p : Progress) : Read (Option Progress) := do
  match ← peek with
  | none => if p.depth = 0 then return none else failExpected (.token "CLOSE_PARENTHESIS")
  | some token => perform sub p token (p.action token (← peekAt 1))

variable {sub : Read Select} {p next : Progress} {c c' : Cursor} {e : Expression}

theorem scan_succ (fuel : Nat) (p : Progress) :
    scan sub (fuel + 1) p = scanNext sub p >>= (·.elim (finish p) (scan sub fuel)) := by
  rw [scan, scanNext, bind_assoc]
  refine bind_congr fun head => ?_
  cases head with
  | none => by_cases closed : p.depth = 0 <;> simp only [closed, if_true, if_false] <;> rfl
  | some token =>
    rw [bind_assoc]
    refine bind_congr fun following => ?_
    cases p.action token following <;> simp only [perform, bind_assoc] <;> rfl

/-- With fuel for every token left, the text ends before the fuel does. -/
theorem scan_eq {fuel} (enough : c.rest.length ≤ fuel) :
    scan sub fuel p c =
      (scanNext sub p >>= (·.elim (finish p) (scan sub (fuel - 1)))) c := by
  cases fuel with
  | succ fuel => rw [scan_succ, Nat.add_sub_cancel]
  | zero =>
    have ended := List.length_eq_zero_iff.mp (Nat.le_zero.mp enough)
    have seen : peek c = .ok none c := by rw [← List.head?_nil, ← ended]; rfl
    rw [Nat.zero_sub, ← scan_succ, scan, scan, bind_of_ok seen]

theorem scanNext_nil (ended : c.rest = []) (sub : Read Select) (p : Progress) :
    scanNext sub p c =
      (if p.depth = 0 then pure none else failExpected (.token "CLOSE_PARENTHESIS") : Read _) c := by
  have seen : peek c = .ok none c := by rw [← List.head?_nil, ← ended]; rfl
  rw [scanNext, bind_of_ok seen]

theorem scanNext_cons {token rest} (here : c.rest = token :: rest) (sub : Read Select)
    (p : Progress) : scanNext sub p c = perform sub p token (p.action token rest.head?) c := by
  have seen : peek c = .ok (some token) c := by rw [← List.head?_cons, ← here]; rfl
  have after : peekAt 1 c = .ok rest.head? c := by
    rw [List.head?_eq_getElem?, ← List.getElem?_cons_succ, ← here]; rfl
  rw [scanNext, bind_of_ok seen]
  exact bind_of_ok after _

theorem scanNext_ok {found} (read : scanNext sub p c = .ok found c') :
    found = none ∧ c = c' ∧ p.EndsAt c ∨ ∃ next, found = some next ∧ ScanStep sub p c next c' := by
  cases here : c.rest with
  | nil =>
    rw [scanNext_nil here] at read
    split at read
    next closed =>
      obtain ⟨rfl, rfl⟩ := pure_ok.mp read
      exact .inl ⟨rfl, rfl, .inl ⟨closed, here⟩⟩
    next => exact (failExpected_ok.mp read).elim
  | cons token rest =>
    rw [scanNext_cons here] at read
    cases chosen : p.action token rest.head? with
    | stop =>
      obtain ⟨rfl, rfl⟩ := pure_ok.mp (chosen ▸ read)
      exact .inl ⟨rfl, rfl, .inr ⟨token, rest, here, chosen⟩⟩
    | unclosed => exact (failExpected_ok.mp (chosen ▸ read)).elim
    | reject => exact (failUnexpected_ok.mp (chosen ▸ read)).elim
    | take next =>
      simp only [chosen, perform, bind_of_ok (advance_cons here), pure_ok] at read
      obtain ⟨rfl, rfl⟩ := read
      exact .inr ⟨next, rfl, .take here chosen⟩
    | «variable» =>
      simp only [chosen, perform, bind_of_ok (advance_cons here), bind_ok, note_ok, pure_ok] at read
      obtain ⟨_, _, rfl, rfl, rfl⟩ := read
      exact .inr ⟨_, rfl, .variable here chosen⟩
    | path =>
      simp only [chosen, perform, bind_ok, pure_ok] at read
      obtain ⟨piece, _, found, rfl, rfl⟩ := read
      exact .inr ⟨_, rfl, .path here chosen found⟩
    | partialObject =>
      simp only [chosen, perform, bind_of_ok (advance_cons here), bind_ok, pure_ok] at read
      obtain ⟨piece, _, found, rfl, rfl⟩ := read
      exact .inr ⟨_, rfl, .partialObject here chosen found⟩
    | subselect =>
      simp only [chosen, perform, bind_of_ok (advance_cons here), bind_ok, discard_ok,
        pure_ok] at read
      obtain ⟨query, _, found, _, _, ⟨closing, closed⟩, rfl, rfl⟩ := read
      obtain ⟨passed, isClosing⟩ := expect_ok closed
      exact .inr ⟨_, rfl, .subselect here chosen found passed (eq_of_beq isClosing)⟩

theorem Progress.EndsAt.scanNext_ok (ends : p.EndsAt c) : scanNext sub p c = .ok none c := by
  rcases ends with ⟨closed, ended⟩ | ⟨token, rest, here, chosen⟩
  · rw [scanNext_nil ended, if_pos closed]
    rfl
  · rw [scanNext_cons here, chosen]
    rfl

theorem ScanStep.scanNext_ok (step : ScanStep sub p c next c') :
    scanNext sub p c = .ok (some next) c' := by
  cases step with
  | take here chosen =>
    rw [scanNext_cons here, chosen, perform, bind_of_ok (advance_cons here)]
    rfl
  | «variable» here chosen =>
    rw [scanNext_cons here, chosen, perform, bind_of_ok (advance_cons here)]
    rfl
  | path here chosen read =>
    rw [scanNext_cons here, chosen, perform, bind_of_ok read]
    rfl
  | partialObject here chosen read =>
    rw [scanNext_cons here, chosen, perform, bind_of_ok (advance_cons here), bind_of_ok read]
    rfl
  | subselect here chosen read closed isClosing =>
    have isClosing : (fun t : Token => t.kind == .closeParen) _ = true := beq_iff_eq.mpr isClosing
    rw [scanNext_cons here, chosen, perform, bind_of_ok (advance_cons here), bind_of_ok read,
      bind_of_ok ((discard_ok (u := ⟨⟩)).mpr ⟨_, expect_passes _ isClosing closed⟩)]
    rfl

theorem ScanStep.unique {next' m m'} (step : ScanStep sub p c next m)
    (other : ScanStep sub p c next' m') : next = next' ∧ m = m' := by
  obtain ⟨same, rfl⟩ := EStateM.Result.ok.inj (step.scanNext_ok.symm.trans other.scanNext_ok)
  exact ⟨Option.some.inj same, rfl⟩

section Onward

variable [Onward sub]

theorem ScanStep.shortens (step : ScanStep sub p c next c') : c'.rest.length < c.rest.length := by
  cases step with
  | take here chosen | «variable» here chosen => simp [here]
  | path here chosen read => exact Advances.advances read
  | partialObject here chosen read =>
    have := Advances.advances read
    simp only [here, List.length_cons] at this ⊢
    omega
  | subselect here chosen read closed =>
    have := length_le_of_ok read
    have := closed.length_lt
    simp only [here, List.length_cons] at *
    omega

instance : Onward (scanNext sub p) where
  moves c := by
    cases here : c.rest with
    | nil =>
      rw [scanNext_nil here]
      exact Moves.moves c
    | cons token rest =>
      -- Where the reader advances, there is the token that it saw.
      have onto : c.Reaches ⟨rest, c.mentions⟩ := ⟨[token], here.symm⟩
      rw [scanNext_cons here]
      cases p.action token rest.head? with
      | stop | unclosed | reject | path =>
        unfold perform
        exact Moves.moves c
      | take | «variable» | partialObject | subselect =>
        rw [perform, bind_of_ok (advance_cons here)]
        exact .trans onto (Moves.moves _)

instance : Onward (finish p) := by unfold finish; infer_instance

instance {fuel} : Onward (scan sub fuel p) := by
  induction fuel generalizing p with
  | zero => unfold scan; infer_instance
  | succ fuel ih =>
    rw [scan_succ]
    refine @Moves.bind _ _ _ _ _ _ _ fun found => ?_
    cases found with
    | none => exact inferInstanceAs (Onward (finish p))
    | some next => exact ih

instance : Onward (expression sub) :=
  inferInstanceAs (Onward (get >>= _))

theorem ScanStep.onward (step : ScanStep sub p c next c') : c'.rest <:+ c.rest :=
  onward_of_ok step.scanNext_ok

theorem Scans.onward (run : Scans sub p c e c') : c'.rest <:+ c.rest := by
  induction run with
  | stop => exact List.suffix_refl _
  | step first _ ih => exact ih.trans first.onward

end Onward

theorem finish_ok (read : finish p c = .ok e c') : p.pieces ≠ [] ∧ p.pieces = e ∧ c = c' := by
  simp only [finish] at read
  split at read
  next => exact (failUnexpected_ok.mp read).elim
  next filled =>
    obtain ⟨rfl, rfl⟩ := pure_ok.mp read
    exact ⟨by simpa using filled, rfl, rfl⟩

theorem finish_of_nonempty (nonempty : p.pieces ≠ []) : finish p c = .ok p.pieces c := by
  rw [finish, if_neg (by simpa using nonempty)]
  rfl

/-- Every step shortens the text, so more fuel than there are tokens changes nothing. -/
theorem scan_bounded [Onward sub] {p c n m} (enough : c.rest.length ≤ n)
    (enough' : c.rest.length ≤ m) : scan sub n p c = scan sub m p c := by
  rw [scan_eq enough, scan_eq enough']
  refine bind_eq_bind rfl fun found d first => ?_
  rcases scanNext_ok first with ⟨rfl, -⟩ | ⟨next, rfl, step⟩
  · rfl
  · have := step.shortens
    exact scan_bounded (by omega) (by omega)
termination_by c.rest.length

theorem scan_scans [Onward sub] {p c fuel} (enough : c.rest.length ≤ fuel)
    (read : scan sub fuel p c = .ok e c') : Scans sub p c e c' := by
  rw [scan_eq enough] at read
  obtain ⟨found, middle, first, read⟩ := bind_ok.mp read
  rcases scanNext_ok first with ⟨rfl, rfl, ends⟩ | ⟨next, rfl, step⟩
  · obtain ⟨nonempty, rfl, rfl⟩ := finish_ok read
    exact .stop ends nonempty
  · have := step.shortens
    exact .step step (scan_scans (by omega) read)
termination_by c.rest.length

theorem Scans.scan_ok [Onward sub] (run : Scans sub p c e c') {fuel}
    (enough : c.rest.length ≤ fuel) :
    scan sub fuel p c = .ok e c' := by
  induction run generalizing fuel with
  | stop ends nonempty =>
    rw [scan_eq enough, bind_of_ok ends.scanNext_ok]
    exact finish_of_nonempty nonempty
  | step first _ ih =>
    rw [scan_eq enough, bind_of_ok first.scanNext_ok]
    have := first.shortens
    exact ih (by omega)

theorem ScanStep.pushes {next} (step : ScanStep sub p c next c') :
    ∃ piece, next.pieces = p.pieces ++ [piece] := by
  cases step with
  | take here chosen => exact (takes_of_action chosen).imp fun _ takes => takes.pieces
  | _ => exact ⟨_, rfl⟩

theorem Scans.begins (scanned : Scans sub p c e c') : p.pieces <+: e := by
  induction scanned with
  | stop => exact List.prefix_refl _
  | step first _ ih =>
    obtain ⟨piece, pushed⟩ := first.pushes
    exact (pushed ▸ List.prefix_append _ _).trans ih

theorem Scans.single (scanned : Scans sub {} c e c') (short : e.length = 1) :
    ∃ next, ScanStep sub {} c next c' ∧ next.pieces = e := by
  cases scanned with
  | stop => cases short
  | @step _ _ next _ _ _ first later =>
    cases later with
    | stop => exact ⟨next, first, rfl⟩
    | step second last =>
      obtain ⟨piece, pushed⟩ := first.pushes
      obtain ⟨other, pushed'⟩ := second.pushes
      have long := last.begins.length_le
      rw [pushed', pushed, short] at long
      simp at long

theorem Scans.past {middle} (scanned : Scans sub p c e c') (step : ScanStep sub p c next middle) :
    Scans sub next middle e c' := by
  cases scanned with
  | stop ends => cases step.scanNext_ok.symm.trans ends.scanNext_ok
  | step first later =>
    obtain ⟨rfl, rfl⟩ := first.unique step
    exact later

theorem Scans.take {token rest} (scanned : Scans sub p c e c') (here : c.rest = token :: rest)
    (chosen : p.action token rest.head? = .take next) : Scans sub next ⟨rest, c.mentions⟩ e c' :=
  scanned.past (.take here chosen)

section Expression

variable [Onward sub]

theorem expression_scans (read : expression sub c = .ok e c') : Scans sub {} c e c' :=
  scan_scans (Nat.le_refl _) read

theorem Scans.expression_ok (run : Scans sub {} c e c') : expression sub c = .ok e c' :=
  run.scan_ok (Nat.le_refl _)

/-- An expression that is read is not empty. -/
instance : Advances (expression sub) where
  advances read := by
    cases expression_scans read with
    | stop _ nonempty => exact absurd rfl nonempty
    | step first rest => exact Nat.lt_of_le_of_lt rest.onward.length_le first.shortens

end Expression

set_option synthInstance.maxSize 2000

instance [Onward sub] : Advances (selectItem sub) := by unfold selectItem; infer_instance

instance [Onward sub] : Advances (join sub) := by unfold join; infer_instance

instance [Onward sub] : Advances (range sub) := by unfold range; infer_instance

instance [Onward sub] : Advances (orderItem sub) := by unfold orderItem; infer_instance

instance [Onward sub] : Advances (selectWith sub) := by unfold selectWith; infer_instance

instance {depth} : Advances (selectUpTo depth) := by
  induction depth with
  | zero => exact inferInstanceAs (Advances failUnexpected)
  | succ depth ih => exact inferInstanceAs (Advances (selectWith _))

instance : Advances select := inferInstanceAs (Advances (get >>= _))

instance : Advances assignment := by unfold assignment; infer_instance

instance : Advances update := by unfold update; infer_instance

instance : Advances delete := by unfold delete; infer_instance

end Read

end EntityAudit.Query
