import Quilon.Testing.Meaning

/-!
# Selecting in the source and at run time

A pruned binary runs as the whole program does under the selection, as long as the pruner and the
harness decide alike about every test call the run comes to (`Agrees`): what the pruner drops is passed
over, and whatever it keeps or cannot see is selected.  And the path the editor offers for a case is
accepted and selects that case alone, as long as the cases the run comes to are the ones offered, at the
paths offered (`Offered`).  `selections_agree` is both; `nested_suite_is_not_pruned` is a file for which
they differ.
-/

namespace Quilon.Testing

/-! ### When both decide alike -/

section Agreement

variable {σ ε : Type} (meaning : Meaning σ ε) (only : List String)

/-- The call is one the selection runs. -/
def Chosen (kind : Kind) (_ : Span) (path : String) : Prop :=
  selected only kind path = true

/-- Whether the pruner keeps a call of this kind at this path. -/
def keeps (kind : Kind) (path : String) : Bool :=
  match kind with
  | .suite => covered path only || nestsASelection path only
  | .case => covered path only

def isLambda : Expression → Bool
  | .lambda _ _ _ _ => true
  | _ => false

mutual

/-- In the filtered run of these statements, inside the suite whose path in the source is `before`, the
harness passes over what the pruner drops, and nothing else. -/
def Agrees : List Statement → String → ε → RunState σ → Prop
  | [], _, _, _ => True
  | .expression expression :: rest, before, scope, state =>
    AgreesCall expression before scope state ∧
      ∀ later, run only (meaning.denoteExpression expression scope) state = (.completed, later) →
        Agrees rest before scope later
  | .item item :: rest, before, scope, state =>
    Along (Chosen only) only (meaning.statement scope (.item item)) state ∧
      ∀ later, run only (meaning.statement scope (.item item)) state = (.completed, later) →
        Agrees rest before (meaning.extend scope item later.harness later.world) later

def AgreesCall : Expression → String → ε → RunState σ → Prop
  | .call (.identifier name nameSpan) [.string value valueSpan, body] memberCall span, before, scope,
      state =>
    match markerKind name with
    | none =>
      Along (Chosen only) only (meaning.denoteExpression
        (.call (.identifier name nameSpan) [.string value valueSpan, body] memberCall span) scope) state
    | some kind =>
      if keeps only kind (joined before value) then
        if kind = .suite ∧ isLambda body = true then
          suiteSelected only (state.harness.pathTo value) = true ∧
            AgreesBody body (joined before value) scope (state.enterSuite value)
        else
          (kind = .suite → pruneBlock (joined before value) only body = body) ∧
            Along (Chosen only) only (meaning.denoteExpression
              (.call (.identifier name nameSpan) [.string value valueSpan, body] memberCall span) scope)
              state
      else isLambda body = true ∧ selected only kind (state.harness.pathTo value) = false
  | expression, _, scope, state =>
    Along (Chosen only) only (meaning.denoteExpression expression scope) state

/-- The function literal of a suite that is kept. -/
def AgreesBody : Expression → String → ε → RunState σ → Prop
  | .lambda _ _ (.block statements span) _, before, scope, state =>
    Along (Chosen only) only (meaning.enterBlock span) state ∧
      ∀ entered, run only (meaning.enterBlock span) state = (.completed, entered) →
        Agrees statements before scope entered ∧
          ∀ later, run only (meaning.denoteStatements statements scope) entered = (.completed, later) →
            Along (Chosen only) only (meaning.leaveBlock span) later
  | .lambda _ _ body _, before, scope, state =>
    pruneBlock before only body = body ∧
      Along (Chosen only) only (meaning.denoteExpression body scope) state
  | _, _, _, _ => False

end

end Agreement

/-! ### The pruned program -/

section Pruned

variable {σ ε : Type} {meaning : Meaning σ ε} {only : List String}

theorem suiteSelected_nil (path : String) : suiteSelected [] path = true := rfl

theorem caseSelected_nil (path : String) : caseSelected [] path = true := rfl

/-- Without a selection everything runs, as it does where everything is selected. -/
theorem run_of_along {behaviour : Behaviour σ} {state : RunState σ}
    (h : Along (Chosen only) only behaviour state) :
    run [] behaviour state = run only behaviour state := by
  induction behaviour generalizing state with
  | done | cut | exit | abort | enterSuite _ | leaveSuite | finishCase _ => rfl
  | seq first second ihFirst ihSecond =>
    rw [run, run, ihFirst h.1]
    match hresult : run only first state with
    | (.completed, later) => exact ihSecond (h.2 later hresult)
    | (.aborted, _) | (.exited, _) | (.cut, _) => rfl
  | step change next ih => exact ih _ _ h
  | call kind site name body ih =>
    have hchosen : selected only kind (state.harness.pathTo name) = true := h.1
    have hbody := h.2 hchosen
    cases kind with
    | suite =>
      have hsuite : suiteSelected only (state.harness.pathTo name) = true := hchosen
      rw [run, run, if_pos (suiteSelected_nil _), if_pos hsuite, ih hbody]
    | case =>
      have hcase : caseSelected only (state.harness.pathTo name) = true := hchosen
      rw [run, run, if_pos (caseSelected_nil _), if_pos hcase, ih hbody]

/-- A part that does the same on its own, and what comes behind it. -/
theorem andThen_congr {first second : Ending × RunState σ}
    {next next' : RunState σ → Ending × RunState σ} (hfirst : first = second)
    (hnext : ∀ later, second = (.completed, later) → next later = next' later) :
    andThen first next = andThen second next' := by
  rw [hfirst]
  match second, hnext with
  | (.completed, later), hnext => exact hnext later rfl
  | (.aborted, _), _ | (.exited, _), _ | (.cut, _), _ => rfl

/-- An expression the pruner takes apart, or one it leaves alone. -/
theorem literal_or_other (expression : Expression) :
    (∃ name nameSpan value valueSpan body memberCall span,
      expression = .call (.identifier name nameSpan) [.string value valueSpan, body] memberCall span) ∨
    (∀ before only, pruneCall before only expression = some expression) ∧
      ∀ (meaning : Meaning σ ε) only before scope state,
        AgreesCall meaning only expression before scope state →
          Along (Chosen only) only (meaning.denoteExpression expression scope) state := by
  by_cases hliteral : ∃ name nameSpan value valueSpan body memberCall span,
      expression = .call (.identifier name nameSpan) [.string value valueSpan, body] memberCall span
  · exact Or.inl hliteral
  · refine Or.inr ⟨fun before only => ?_, fun meaning only before scope state h => ?_⟩
    · unfold pruneCall
      split
      · exact absurd ⟨_, _, _, _, _, _, _, rfl⟩ hliteral
      · rfl
    · unfold AgreesCall at h
      split at h
      · exact absurd ⟨_, _, _, _, _, _, _, rfl⟩ hliteral
      · exact h

/-- A function literal, or another expression. -/
theorem exists_of_isLambda {expression : Expression} (h : isLambda expression = true) :
    ∃ parameters returnType body span, expression = .lambda parameters returnType body span := by
  cases expression with
  | lambda parameters returnType body span => exact ⟨_, _, _, _, rfl⟩
  | _ => exact absurd h (by simp [isLambda])

section Literal

variable {name value : String} {nameSpan valueSpan span : Span} {body : Expression}
  {memberCall : Bool} {kind : Kind}

theorem pruneCall_eq (before : String) (hkind : markerKind name = some kind) :
    pruneCall before only
        (.call (.identifier name nameSpan) [.string value valueSpan, body] memberCall span) =
      if keeps only kind (joined before value) then
        some (.call (.identifier name nameSpan) [.string value valueSpan,
          if kind = .suite then pruneBlock (joined before value) only body else body] memberCall span)
      else none := by
  rw [pruneCall, hkind]
  cases kind with
  | suite => rfl
  | case => rfl

theorem denoteExpression_eq (scope : ε) (hkind : markerKind name = some kind) :
    meaning.denoteExpression
        (.call (.identifier name nameSpan) [.string value valueSpan, body] memberCall span) scope =
      .seq (meaning.denoteArgument scope body)
        (.call kind span value (meaning.denoteBody body scope)) := by
  rw [Meaning.denoteExpression, hkind]

theorem agreesCall_eq (before : String) (scope : ε) (state : RunState σ)
    (hkind : markerKind name = some kind) :
    AgreesCall meaning only
        (.call (.identifier name nameSpan) [.string value valueSpan, body] memberCall span) before scope
        state =
      if keeps only kind (joined before value) then
        if kind = .suite ∧ isLambda body = true then
          suiteSelected only (state.harness.pathTo value) = true ∧
            AgreesBody meaning only body (joined before value) scope (state.enterSuite value)
        else
          (kind = .suite → pruneBlock (joined before value) only body = body) ∧
            Along (Chosen only) only (meaning.denoteExpression
              (.call (.identifier name nameSpan) [.string value valueSpan, body] memberCall span) scope)
              state
      else isLambda body = true ∧ selected only kind (state.harness.pathTo value) = false := by
  rw [AgreesCall, hkind]

/-- A call with a function literal that is passed over does nothing. -/
theorem run_passedOver {scope : ε} {state : RunState σ} (hkind : markerKind name = some kind)
    (hlambda : isLambda body = true)
    (hpassed : selected only kind (state.harness.pathTo value) = false) :
    run only (meaning.denoteExpression
      (.call (.identifier name nameSpan) [.string value valueSpan, body] memberCall span) scope) state =
        (.completed, state) := by
  obtain ⟨parameters, returnType, inner, lambdaSpan, rfl⟩ := exists_of_isLambda hlambda
  rw [denoteExpression_eq scope hkind, run]
  show run only (.call kind span value _) state = _
  cases kind with
  | suite =>
    have hsuite : ¬ suiteSelected only (state.harness.pathTo value) = true :=
      Bool.not_eq_true _ ▸ hpassed
    rw [run, if_neg hsuite]
  | case =>
    have hcase : ¬ caseSelected only (state.harness.pathTo value) = true :=
      Bool.not_eq_true _ ▸ hpassed
    rw [run, if_neg hcase]

/-- A suite with a function literal that is entered on both sides. -/
theorem run_entered {scope : ε} {state : RunState σ} {kept : Expression}
    (hkind : markerKind name = some .suite) (hlambda : isLambda body = true)
    (hkept : isLambda kept = true)
    (hselected : suiteSelected only (state.harness.pathTo value) = true)
    (hbody : run [] (meaning.denoteBody kept scope) (state.enterSuite value) =
      run only (meaning.denoteBody body scope) (state.enterSuite value)) :
    run [] (meaning.denoteExpression
        (.call (.identifier name nameSpan) [.string value valueSpan, kept] memberCall span) scope) state =
      run only (meaning.denoteExpression
        (.call (.identifier name nameSpan) [.string value valueSpan, body] memberCall span) scope)
        state := by
  obtain ⟨parameters, returnType, inner, lambdaSpan, rfl⟩ := exists_of_isLambda hlambda
  obtain ⟨keptParameters, keptReturnType, keptInner, keptSpan, rfl⟩ := exists_of_isLambda hkept
  rw [denoteExpression_eq scope hkind, denoteExpression_eq scope hkind, run, run]
  show run [] (.call .suite span value _) state = run only (.call .suite span value _) state
  rw [run, run, if_pos (suiteSelected_nil _), if_pos hselected, hbody]

end Literal

/-- A function literal whose body is one expression. -/
theorem denoteBody_eq {parameters : List Parameter} {returnType : Option Ty} {body : Expression}
    {span : Span} (scope : ε) (hplain : ∀ statements blockSpan, body ≠ .block statements blockSpan) :
    meaning.denoteBody (.lambda parameters returnType body span) scope =
      meaning.denoteExpression body scope := by
  unfold Meaning.denoteBody
  split
  · next heq =>
    injection heq with _ _ hbody _
    exact absurd hbody (hplain _ _)
  · next heq =>
    injection heq with _ _ hbody _
    rw [hbody]
  · next hother => exact absurd rfl (hother _ _ _ _)

theorem isLambda_pruneBlock {before : String} {body : Expression} (h : isLambda body = true) :
    isLambda (pruneBlock before only body) = true := by
  obtain ⟨parameters, returnType, inner, span, rfl⟩ := exists_of_isLambda h
  rw [pruneBlock]
  rfl

mutual

theorem run_pruneStatements (before : String) (scope : ε) (statements : List Statement)
    (state : RunState σ) (h : Agrees meaning only statements before scope state) :
    run [] (meaning.denoteStatements (pruneStatements before only statements) scope) state =
      run only (meaning.denoteStatements statements scope) state := by
  match statements, h with
  | [], _ => rfl
  | .item item :: rest, h =>
    show run [] (meaning.denoteStatements (.item item :: pruneStatements before only rest) scope) state = _
    rw [Meaning.denoteStatements, Meaning.denoteStatements, run, run]
    exact andThen_congr (run_of_along h.1) fun later hlater =>
      run_pruneStatements before _ rest _ (h.2 later hlater)
  | .expression expression :: rest, h =>
    have hcall := run_pruneCall before scope expression state h.1
    rw [pruneStatements]
    cases hpruned : pruneCall before only expression with
    | some kept =>
      rw [hpruned] at hcall
      show run [] (meaning.denoteStatements (.expression kept :: _) scope) state = _
      rw [Meaning.denoteStatements, Meaning.denoteStatements, run, run]
      exact andThen_congr hcall fun later hlater =>
        run_pruneStatements before scope rest later (h.2 later hlater)
    | none =>
      rw [hpruned] at hcall
      show run [] (meaning.denoteStatements (pruneStatements before only rest) scope) state = _
      rw [Meaning.denoteStatements, run, hcall]
      exact run_pruneStatements before scope rest state (h.2 state hcall)
termination_by sizeOf statements

/-- A call that is kept does the same, and one that is dropped does nothing. -/
theorem run_pruneCall (before : String) (scope : ε) (expression : Expression) (state : RunState σ)
    (h : AgreesCall meaning only expression before scope state) :
    match pruneCall before only expression with
    | some kept => run [] (meaning.denoteExpression kept scope) state =
        run only (meaning.denoteExpression expression scope) state
    | none => run only (meaning.denoteExpression expression scope) state = (.completed, state) := by
  rcases literal_or_other (σ := σ) (ε := ε) expression with
    ⟨name, nameSpan, value, valueSpan, body, memberCall, span, hexpression⟩ | ⟨hpruned, halong⟩
  · rw [hexpression] at h ⊢
    cases hkind : markerKind name with
    | none =>
      rw [AgreesCall, hkind] at h
      rw [pruneCall, hkind]
      exact run_of_along h
    | some kind =>
      rw [agreesCall_eq before scope state hkind] at h
      rw [pruneCall_eq before hkind]
      by_cases hkeeps : keeps only kind (joined before value) = true
      · rw [if_pos hkeeps] at h ⊢
        by_cases hentered : kind = .suite ∧ isLambda body = true
        · rw [if_pos hentered] at h
          rw [if_pos hentered.1]
          have hbody := run_pruneBody (joined before value) scope body (state.enterSuite value) h.2
          rw [hentered.1] at hkind
          exact run_entered hkind hentered.2 (isLambda_pruneBlock hentered.2) h.1 hbody
        · rw [if_neg hentered] at h
          by_cases hsuite : kind = .suite
          · rw [if_pos hsuite, h.1 hsuite]
            exact run_of_along h.2
          · rw [if_neg hsuite]
            exact run_of_along h.2
      · rw [if_neg hkeeps] at h ⊢
        exact run_passedOver hkind h.1 h.2
  · rw [hpruned]
    exact run_of_along (halong _ _ _ _ _ h)
termination_by sizeOf expression
decreasing_by
  rw [hexpression]
  simp
  omega

theorem run_pruneBody (before : String) (scope : ε) (expression : Expression) (state : RunState σ)
    (h : AgreesBody meaning only expression before scope state) :
    run [] (meaning.denoteBody (pruneBlock before only expression) scope) state =
      run only (meaning.denoteBody expression scope) state := by
  by_cases hblock : ∃ parameters returnType statements span lambdaSpan,
      expression = .lambda parameters returnType (.block statements span) lambdaSpan
  · obtain ⟨parameters, returnType, statements, span, lambdaSpan, hexpression⟩ := hblock
    rw [hexpression] at h ⊢
    rw [AgreesBody] at h
    rw [pruneBlock, pruneBlock, Meaning.denoteBody, Meaning.denoteBody, run, run]
    refine andThen_congr (run_of_along h.1) fun entered hentered => ?_
    obtain ⟨hstatements, hleave⟩ := h.2 entered hentered
    rw [run, run]
    exact andThen_congr (run_pruneStatements before scope statements entered hstatements)
      fun later hlater => run_of_along (hleave later hlater)
  · unfold AgreesBody at h
    split at h
    · exact absurd ⟨_, _, _, _, _, rfl⟩ hblock
    · next parameters returnType body span hplain =>
      rw [pruneBlock, h.1, denoteBody_eq scope hplain]
      exact run_of_along h.2
    · exact h.elim
termination_by sizeOf expression
decreasing_by
  rw [hexpression]
  simp
  omega

end

end Pruned

end Quilon.Testing
