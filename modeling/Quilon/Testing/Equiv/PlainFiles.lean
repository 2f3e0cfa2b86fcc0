import Quilon.Testing.Equiv.Selection

/-!
# Plain test files

A file in which every `describe` and `it` is a statement of a suite's own block, with a literal name and
a function literal, and nothing else calls the harness.  In such a file the source paths are the ones of
the run, so a pruned binary does what the filtered run does (`agrees_of_plain`).
-/

namespace Quilon.Testing

variable {σ ε : Type}

/-- What leaves the harness alone. -/
def Quiet : Behaviour σ → Prop
  | .seq first second => Quiet first ∧ Quiet second
  | .step _ next => ∀ harness world, Quiet (next harness world)
  | .done | .cut | .exit | .abort => True
  | .enterSuite _ | .leaveSuite | .finishCase _ | .call _ _ _ _ => False

section Plain

variable (meaning : Meaning σ ε)

mutual

/-- The statements of a suite, or of the entry point. -/
def Plain : List Statement → Prop
  | [] => True
  | .expression expression :: rest => PlainCall expression ∧ Plain rest
  | .item item :: rest => (∀ scope, Quiet (meaning.statement scope (.item item))) ∧ Plain rest

def PlainCall : Expression → Prop
  | .call (.identifier name nameSpan) [.string value valueSpan, body] memberCall span =>
    match markerKind name with
    | none =>
      ∀ scope, Quiet (meaning.denoteExpression
        (.call (.identifier name nameSpan) [.string value valueSpan, body] memberCall span) scope)
    | some .case => isLambda body = true ∧ ∀ scope, Quiet (meaning.denoteBody body scope)
    | some .suite => PlainBody body
  | expression => ∀ scope, Quiet (meaning.denoteExpression expression scope)

def PlainBody : Expression → Prop
  | .lambda _ _ (.block statements span) _ =>
    Quiet (meaning.enterBlock span) ∧ Quiet (meaning.leaveBlock span) ∧ Plain statements
  | _ => False

end

end Plain

/-! ### The open names -/

/-- The path of the innermost open suite. -/
def Harness.openPath (harness : Harness) : String :=
  harness.openSuiteNames.foldl
    (fun path segment => if path = "" then segment else path ++ "/" ++ segment) ""

theorem Harness.pathTo_eq (harness : Harness) (name : String) :
    harness.pathTo name = joined harness.openPath name := by
  rw [pathTo, List.foldl_append]
  rfl

theorem Harness.openPath_enterSuite (harness : Harness) (name : String) :
    (harness.enterSuite name).openPath = joined harness.openPath name :=
  harness.pathTo_eq name

variable {only : List String}

/-- What is quiet makes no call, so whatever should hold of its calls does. -/
theorem Quiet.along {P : Kind → Span → String → Prop} {behaviour : Behaviour σ} {state : RunState σ}
    (h : Quiet behaviour) : Along P only behaviour state := by
  induction behaviour generalizing state with
  | done | cut | exit | abort => trivial
  | enterSuite _ | leaveSuite | finishCase _ => trivial
  | seq first second ihFirst ihSecond => exact ⟨ihFirst h.1, fun _ _ => ihSecond h.2⟩
  | step change next ih => exact ih _ _ (h _ _)
  | call kind site name body ih => exact h.elim

/-- What is quiet leaves the open names as they are, however it ends. -/
theorem Quiet.openSuiteNames {behaviour : Behaviour σ} (state : RunState σ) (h : Quiet behaviour) :
    (run only behaviour state).2.harness.openSuiteNames = state.harness.openSuiteNames := by
  induction behaviour generalizing state with
  | done | cut | exit | abort => rfl
  | enterSuite _ | leaveSuite | finishCase _ => exact h.elim
  | call kind site name body ih => exact h.elim
  | step change next ih => exact ih _ _ _ (h _ _)
  | seq first second ihFirst ihSecond =>
    have hfirst := ihFirst state h.1
    rw [run]
    match hresult : run only first state with
    | (.completed, later) =>
      rw [hresult] at hfirst
      exact (ihSecond later h.2).trans hfirst
    | (.aborted, _) | (.exited, _) | (.cut, _) =>
      rw [hresult] at hfirst
      exact hfirst

/-- Two parts that complete one behind the other. -/
theorem exists_of_andThen {result : Ending × RunState σ} {next : RunState σ → Ending × RunState σ}
    {later : RunState σ} (h : andThen result next = (.completed, later)) :
    ∃ middle, result = (.completed, middle) ∧ next middle = (.completed, later) := by
  match result, h with
  | (.completed, middle), h => exact ⟨middle, rfl, h⟩

theorem run_seq_completed {first second : Behaviour σ} {state later : RunState σ}
    (h : run only (.seq first second) state = (.completed, later)) :
    ∃ middle, run only first state = (.completed, middle) ∧
      run only second middle = (.completed, later) := by
  rw [run] at h
  exact exists_of_andThen h

/-- What is quiet and completes has left the open names as they were. -/
theorem Quiet.openSuiteNames_of_run {behaviour : Behaviour σ} {state later : RunState σ} {ending : Ending}
    (h : Quiet behaviour) (hrun : run only behaviour state = (ending, later)) :
    later.harness.openSuiteNames = state.harness.openSuiteNames := by
  calc later.harness.openSuiteNames
      = (run only behaviour state).2.harness.openSuiteNames := by rw [hrun]
    _ = state.harness.openSuiteNames := h.openSuiteNames state

/-! ### A plain file keeps the open names -/

section Preserved

variable {meaning : Meaning σ ε} {scope : ε} {name value : String} {nameSpan valueSpan span : Span}
  {body : Expression} {memberCall : Bool} {state later : RunState σ}

/-- A literal call that completes has either been passed over or run its body. -/
theorem run_literalCall {kind : Kind} (hkind : markerKind name = some kind) (hlambda : isLambda body = true)
    (hrun : run only (meaning.denoteExpression
      (.call (.identifier name nameSpan) [.string value valueSpan, body] memberCall span) scope) state =
        (.completed, later)) :
    later = state ∨
      (kind = .suite ∧ ∃ inside, run only (meaning.denoteBody body scope) (state.enterSuite value) =
        (.completed, inside) ∧ later = inside.leaveSuite) ∨
      (kind = .case ∧ ∃ ending inside, run only (meaning.denoteBody body scope)
        (state.beginCase span value) = (ending, inside) ∧ later = inside.finishCase value) := by
  obtain ⟨parameters, returnType, inner, lambdaSpan, rfl⟩ := exists_of_isLambda hlambda
  rw [denoteExpression_eq scope hkind] at hrun
  obtain ⟨middle, hargument, hcall⟩ := run_seq_completed hrun
  obtain rfl : state = middle := congrArg Prod.snd hargument
  cases kind with
  | suite =>
    rw [run] at hcall
    split at hcall
    · obtain ⟨inside, hinside, hleft⟩ := exists_of_andThen hcall
      exact .inr (.inl ⟨rfl, inside, hinside, (congrArg Prod.snd hleft).symm⟩)
    · exact .inl (congrArg Prod.snd hcall).symm
  | case =>
    rw [run] at hcall
    split at hcall
    · match hinside : run only (meaning.denoteBody (.lambda parameters returnType inner lambdaSpan) scope)
        (state.beginCase span value), hcall with
      | (.completed, inside), hcall | (.aborted, inside), hcall =>
        exact .inr (.inr ⟨rfl, _, inside, rfl, (congrArg Prod.snd hcall).symm⟩)
      | (.exited, inside), hcall | (.cut, inside), hcall =>
        exact absurd (congrArg Prod.fst hcall) (by simp [andFinish])
    · exact .inl (congrArg Prod.snd hcall).symm

theorem exists_of_plainBody {expression : Expression} (h : PlainBody meaning expression) :
    ∃ parameters returnType statements span lambdaSpan,
      expression = .lambda parameters returnType (.block statements span) lambdaSpan := by
  unfold PlainBody at h
  split at h
  · exact ⟨_, _, _, _, _, rfl⟩
  · exact h.elim

/-- An expression that is no literal call is quiet as a whole. -/
theorem plainCall_other {expression : Expression} (h : PlainCall meaning expression)
    (hother : ∀ name nameSpan value valueSpan body memberCall span,
      expression ≠ .call (.identifier name nameSpan) [.string value valueSpan, body] memberCall span) :
    ∀ scope, Quiet (meaning.denoteExpression expression scope) := by
  unfold PlainCall at h
  split at h
  · exact absurd rfl (hother _ _ _ _ _ _ _)
  · exact h

mutual

theorem openSuiteNames_of_plain (scope : ε) (statements : List Statement) (state later : RunState σ)
    (h : Plain meaning statements)
    (hrun : run only (meaning.denoteStatements statements scope) state = (.completed, later)) :
    later.harness.openSuiteNames = state.harness.openSuiteNames := by
  match statements, h, hrun with
  | [], _, hrun =>
    obtain rfl : state = later := congrArg Prod.snd hrun
    rfl
  | .item item :: rest, h, hrun =>
    rw [Meaning.denoteStatements] at hrun
    obtain ⟨middle, hitem, hrest⟩ := run_seq_completed hrun
    have hnames := (h.1 scope).openSuiteNames_of_run hitem
    exact (openSuiteNames_of_plain _ rest middle later h.2 hrest).trans hnames
  | .expression expression :: rest, h, hrun =>
    rw [Meaning.denoteStatements] at hrun
    obtain ⟨middle, hexpression, hrest⟩ := run_seq_completed hrun
    have hnames := openSuiteNames_of_plainCall scope expression state middle h.1 hexpression
    exact (openSuiteNames_of_plain scope rest middle later h.2 hrest).trans hnames
termination_by sizeOf statements

theorem openSuiteNames_of_plainCall (scope : ε) (expression : Expression) (state later : RunState σ)
    (h : PlainCall meaning expression)
    (hrun : run only (meaning.denoteExpression expression scope) state = (.completed, later)) :
    later.harness.openSuiteNames = state.harness.openSuiteNames := by
  by_cases hliteral : ∃ name nameSpan value valueSpan body memberCall span,
      expression = .call (.identifier name nameSpan) [.string value valueSpan, body] memberCall span
  · obtain ⟨name, nameSpan, value, valueSpan, body, memberCall, span, hexpression⟩ := hliteral
    rw [hexpression] at h hrun
    rw [PlainCall] at h
    cases hkind : markerKind name with
    | none =>
      rw [hkind] at h
      exact (h scope).openSuiteNames_of_run hrun
    | some kind =>
      rw [hkind] at h
      cases kind with
      | case =>
        rcases run_literalCall hkind h.1 hrun with rfl | ⟨hkind, _⟩ | ⟨_, ending, inside, hinside, rfl⟩
        · rfl
        · exact absurd hkind nofun
        · have hkept := (h.2 scope).openSuiteNames_of_run hinside
          exact hkept
      | suite =>
        obtain ⟨parameters, returnType, statements, blockSpan, lambdaSpan, hbody⟩ :=
          exists_of_plainBody h
        rcases run_literalCall hkind (by rw [hbody]; rfl) hrun with
          rfl | ⟨_, inside, hinside, rfl⟩ | ⟨hkind, _⟩
        · rfl
        · have hkept := openSuiteNames_of_plainBody scope body _ inside h hinside
          show inside.harness.leaveSuite.openSuiteNames = _
          rw [Harness.leaveSuite_openSuiteNames, hkept]
          exact List.dropLast_concat
        · exact absurd hkind nofun
  · have hother : ∀ name nameSpan value valueSpan body memberCall span, expression ≠
        .call (.identifier name nameSpan) [.string value valueSpan, body] memberCall span :=
      fun _ _ _ _ _ _ _ heq => hliteral ⟨_, _, _, _, _, _, _, heq⟩
    exact (plainCall_other h hother scope).openSuiteNames_of_run hrun
termination_by sizeOf expression
decreasing_by
  rw [hexpression]
  simp
  omega

theorem openSuiteNames_of_plainBody (scope : ε) (expression : Expression) (state later : RunState σ)
    (h : PlainBody meaning expression)
    (hrun : run only (meaning.denoteBody expression scope) state = (.completed, later)) :
    later.harness.openSuiteNames = state.harness.openSuiteNames := by
  obtain ⟨parameters, returnType, statements, span, lambdaSpan, hexpression⟩ := exists_of_plainBody h
  rw [hexpression] at h hrun
  rw [PlainBody] at h
  rw [Meaning.denoteBody] at hrun
  obtain ⟨entered, henter, hrest⟩ := run_seq_completed hrun
  obtain ⟨inside, hinside, hleave⟩ := run_seq_completed hrest
  calc later.harness.openSuiteNames
      = inside.harness.openSuiteNames := h.2.1.openSuiteNames_of_run hleave
    _ = entered.harness.openSuiteNames :=
        openSuiteNames_of_plain scope statements entered inside h.2.2 hinside
    _ = state.harness.openSuiteNames := h.1.openSuiteNames_of_run henter
termination_by sizeOf expression
decreasing_by
  rw [hexpression]
  simp
  omega

end

end Preserved

/-! ### In a plain file both decide alike -/

theorem keeps_eq_selected (hsome : only ≠ []) (kind : Kind) (path : String) :
    keeps only kind path = selected only kind path := by
  have hempty : only.isEmpty = false := by
    rw [Bool.eq_false_iff]
    exact fun h => hsome (List.isEmpty_iff.mp h)
  cases kind with
  | suite =>
    show _ = (only.isEmpty || covered path only || nestsASelection path only)
    rw [hempty, Bool.false_or]
    rfl
  | case =>
    show _ = (only.isEmpty || covered path only)
    rw [hempty, Bool.false_or]
    rfl

section Agreement

variable {meaning : Meaning σ ε}

mutual

/-- A plain file meets the condition under which a pruned binary does what the filtered run does. -/
theorem agrees_of_plain (hsome : only ≠ []) (before : String) (scope : ε) (statements : List Statement)
    (state : RunState σ) (h : Plain meaning statements) (hopen : state.harness.openPath = before) :
    Agrees meaning only statements before scope state := by
  match statements, h with
  | [], _ => trivial
  | .item item :: rest, h =>
    refine ⟨(h.1 scope).along, fun later hlater => ?_⟩
    have hnames := (h.1 scope).openSuiteNames_of_run hlater
    exact agrees_of_plain hsome before _ rest later h.2 (by rw [← hopen, Harness.openPath, hnames]; rfl)
  | .expression expression :: rest, h =>
    refine ⟨agreesCall_of_plain hsome before scope expression state h.1 hopen, fun later hlater => ?_⟩
    have hnames := openSuiteNames_of_plainCall scope expression state later h.1 hlater
    exact agrees_of_plain hsome before scope rest later h.2
      (by rw [← hopen, Harness.openPath, hnames]; rfl)
termination_by sizeOf statements

theorem agreesCall_of_plain (hsome : only ≠ []) (before : String) (scope : ε) (expression : Expression)
    (state : RunState σ) (h : PlainCall meaning expression) (hopen : state.harness.openPath = before) :
    AgreesCall meaning only expression before scope state := by
  by_cases hliteral : ∃ name nameSpan value valueSpan body memberCall span,
      expression = .call (.identifier name nameSpan) [.string value valueSpan, body] memberCall span
  · obtain ⟨name, nameSpan, value, valueSpan, body, memberCall, span, hexpression⟩ := hliteral
    rw [hexpression] at h ⊢
    rw [PlainCall] at h
    have hpath : state.harness.pathTo value = joined before value := by
      rw [Harness.pathTo_eq, hopen]
    cases hkind : markerKind name with
    | none =>
      rw [hkind] at h
      rw [AgreesCall, hkind]
      exact (h scope).along
    | some kind =>
      rw [hkind] at h
      rw [agreesCall_eq before scope state hkind, hpath, keeps_eq_selected hsome]
      by_cases hkept : selected only kind (joined before value) = true
      · rw [if_pos hkept]
        cases kind with
        | case =>
          rw [if_neg (fun hcase => nomatch hcase.1)]
          refine ⟨nofun, ?_⟩
          obtain ⟨parameters, returnType, inner, lambdaSpan, hlambda⟩ := exists_of_isLambda h.1
          have hchosen : Chosen only .case span (state.harness.pathTo value) := by
            rw [hpath]
            exact hkept
          have hbody := h.2 scope
          rw [denoteExpression_eq scope hkind, hlambda] at *
          refine ⟨trivial, fun later hlater => ?_⟩
          obtain rfl : state = later := congrArg Prod.snd hlater
          exact ⟨hchosen, fun _ => hbody.along⟩
        | suite =>
          obtain ⟨parameters, returnType, statements, blockSpan, lambdaSpan, hbody⟩ :=
            exists_of_plainBody h
          rw [if_pos ⟨rfl, by rw [hbody]; rfl⟩]
          have hinside : (state.enterSuite value).harness.openPath = joined before value := by
            rw [← hpath]
            exact Harness.openPath_enterSuite _ _ |>.trans (Harness.pathTo_eq _ _).symm
          exact ⟨hkept, agreesBody_of_plain hsome _ scope body _ h hinside⟩
      · rw [if_neg hkept]
        refine ⟨?_, Bool.not_eq_true _ ▸ hkept⟩
        cases kind with
        | case => exact h.1
        | suite =>
          obtain ⟨parameters, returnType, statements, blockSpan, lambdaSpan, hbody⟩ :=
            exists_of_plainBody h
          rw [hbody]
          rfl
  · have hother : ∀ name nameSpan value valueSpan body memberCall span, expression ≠
        .call (.identifier name nameSpan) [.string value valueSpan, body] memberCall span :=
      fun _ _ _ _ _ _ _ heq => hliteral ⟨_, _, _, _, _, _, _, heq⟩
    have hquiet := plainCall_other h hother scope
    unfold AgreesCall
    split
    · exact absurd rfl (hother _ _ _ _ _ _ _)
    · exact hquiet.along
termination_by sizeOf expression
decreasing_by
  rw [hexpression]
  simp
  omega

theorem agreesBody_of_plain (hsome : only ≠ []) (before : String) (scope : ε) (expression : Expression)
    (state : RunState σ) (h : PlainBody meaning expression) (hopen : state.harness.openPath = before) :
    AgreesBody meaning only expression before scope state := by
  obtain ⟨parameters, returnType, statements, span, lambdaSpan, hexpression⟩ := exists_of_plainBody h
  rw [hexpression] at h ⊢
  rw [PlainBody] at h
  rw [AgreesBody]
  refine ⟨h.1.along, fun entered hentered => ⟨?_, fun later _ => h.2.1.along⟩⟩
  have hnames := h.1.openSuiteNames_of_run hentered
  exact agrees_of_plain hsome before scope statements entered h.2.2
    (by rw [← hopen, Harness.openPath, hnames]; rfl)
termination_by sizeOf expression
decreasing_by
  rw [hexpression]
  simp
  omega

end

end Agreement

end Quilon.Testing
