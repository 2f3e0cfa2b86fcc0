import Quilon.Testing.Equiv.PlainFiles

/-!
# What the editor offers, and where the selections agree

The path the editor offers for a case is one `quilon test --only` takes (`path_mem_collectPaths`), and it
selects that case alone wherever the cases the run comes to are the ones offered, at the paths offered.
`selections_agree` says this beside the agreement of a pruned binary with the filtered run;
`nested_suite_is_not_pruned` is a file for which these two differ.
-/

namespace Quilon.Testing

section Editor

variable {resolve : String → String}

mutual

/-- The names of an expression resolve to the harness exactly when they look like it, and nothing that
is called offers a test itself. -/
def conforms (resolve : String → String) : Expression → String → Bool
  | .call (.identifier name _) [.string value _, body] false _, before =>
    decide (harnessCallKind name = markerKind (linkName resolve name)) &&
      match harnessCallKind name with
      | none => conforms resolve body before
      | some .case => true
      | some .suite => conforms resolve body (joined before value)
  | .call function arguments false _, before =>
    (collectTestLenses before function).isEmpty && conformsAll resolve arguments before
  | .call (.identifier name _) _ true _, _ => decide (markerKind name = none)
  | .lambda _ _ body _, before => conforms resolve body before
  | .block statements _, before => conformsStatements resolve statements before
  | _, _ => true

def conformsAll (resolve : String → String) : List Expression → String → Bool
  | [], _ => true
  | expression :: rest, before => conforms resolve expression before && conformsAll resolve rest before

def conformsStatements (resolve : String → String) : List Statement → String → Bool
  | [], _ => true
  | .expression expression :: rest, before =>
    conforms resolve expression before && conformsStatements resolve rest before
  | .item _ :: rest, before => conformsStatements resolve rest before

end

/-- A call of a plain name with a literal and a body. -/
def LiteralCall (function : Expression) (arguments : List Expression) : Prop :=
  ∃ name nameSpan value valueSpan body,
    function = .identifier name nameSpan ∧ arguments = [.string value valueSpan, body]

/-- Linking makes no such call out of another. -/
theorem LiteralCall.of_link {function : Expression} {arguments : List Expression}
    (h : LiteralCall (link resolve function) (linkAll resolve arguments)) :
    LiteralCall function arguments := by
  obtain ⟨name, nameSpan, value, valueSpan, body, hfunction, harguments⟩ := h
  obtain ⟨written, hwritten⟩ : ∃ written, function = .identifier written nameSpan := by
    cases function <;> simp only [link, reduceCtorEq, Expression.identifier.injEq] at hfunction
    exact ⟨_, by rw [hfunction.2]⟩
  match arguments, harguments with
  | [first, second], harguments =>
    simp only [linkAll, List.cons.injEq, and_true] at harguments
    have hlinked : link resolve first = .string value valueSpan := harguments.1
    have hfirst : first = .string value valueSpan := by
      cases first <;> simp only [link, reduceCtorEq, Expression.string.injEq] at hlinked
      rw [hlinked.1, hlinked.2]
    exact ⟨written, nameSpan, value, valueSpan, second, hwritten, by rw [hfirst]⟩
  | [], harguments => simp [linkAll] at harguments
  | [_], harguments => simp [linkAll] at harguments
  | _ :: _ :: _ :: _, harguments => simp [linkAll] at harguments

section Calls

variable {function : Expression} {arguments : List Expression} {before : String} {span : Span}

theorem collectTestLenses_call (h : ¬ LiteralCall function arguments) :
    collectTestLenses before (.call function arguments false span) =
      collectTestLenses before function ++ collectTestLensesOfAll before arguments := by
  conv => lhs; unfold collectTestLenses
  split
  · next heq =>
    injection heq with hfunction harguments
    exact absurd ⟨_, _, _, _, _, hfunction, harguments⟩ h
  · next heq =>
    injection heq with hfunction harguments
    rw [hfunction, harguments]
  · next heq => exact absurd heq (by simp)
  · next heq => exact absurd heq (by simp)
  · next hother _ _ => exact absurd rfl (hother _ _ _)

theorem conforms_call (h : ¬ LiteralCall function arguments) :
    conforms resolve (.call function arguments false span) before =
      ((collectTestLenses before function).isEmpty && conformsAll resolve arguments before) := by
  conv => lhs; unfold conforms
  split
  · next heq =>
    injection heq with hfunction harguments
    exact absurd ⟨_, _, _, _, _, hfunction, harguments⟩ h
  · next heq =>
    injection heq with hfunction harguments
    rw [hfunction, harguments]
  · next heq => exact absurd heq (by simp)
  · next heq => exact absurd heq (by simp)
  · next heq => exact absurd heq (by simp)
  · next hother _ _ _ => exact absurd rfl (hother _ _ _)

theorem collectPaths_call {memberCall : Bool} (h : ¬ LiteralCall function arguments) :
    collectPaths before (.call function arguments memberCall span) =
      collectPathsOfAll before arguments := by
  conv => lhs; unfold collectPaths
  split
  · next heq =>
    injection heq with hfunction harguments
    exact absurd ⟨_, _, _, _, _, hfunction, harguments⟩ h
  · next heq =>
    injection heq with hfunction harguments
    rw [harguments]
  · next heq => exact absurd heq (by simp)
  · next heq => exact absurd heq (by simp)
  · next hother _ _ => exact absurd rfl (hother _ _ _ _)

end Calls

mutual

/-- A path the editor offers is one the linked program has. -/
theorem path_mem_collectPaths {lens : TestLens} (before : String) (expression : Expression)
    (hconforms : conforms resolve expression before = true)
    (hlens : lens ∈ collectTestLenses before expression) :
    lens.path ∈ collectPaths before (link resolve expression) := by
  match expression, hconforms, hlens with
  | .call function arguments false span, hconforms, hlens =>
    rw [link]
    by_cases hliteral : LiteralCall function arguments
    · obtain ⟨name, nameSpan, value, valueSpan, body, hfunction, harguments⟩ := hliteral
      rw [hfunction, harguments] at hconforms hlens ⊢
      rw [conforms, Bool.and_eq_true, decide_eq_true_eq] at hconforms
      obtain ⟨hkind, hbody⟩ := hconforms
      rw [linkAll, linkAll, linkAll, link, if_neg (by decide), link, collectPaths]
      rw [collectTestLenses] at hlens
      rw [hkind] at hbody hlens
      cases hmarked : markerKind (linkName resolve name) with
      | none =>
        rw [hmarked] at hbody hlens
        have hin : lens ∈ collectTestLenses before body := by
          simpa only [collectTestLenses, List.nil_append] using hlens
        exact List.mem_append_right _ (path_mem_collectPaths before body hbody hin)
      | some kind =>
        rw [hmarked] at hbody hlens
        cases kind with
        | case =>
          rw [List.mem_singleton.mp hlens]
          exact List.mem_singleton_self _
        | suite =>
          rcases List.mem_cons.mp hlens with hhere | hinside
          · rw [hhere]
            exact List.mem_cons_self
          · exact List.mem_cons_of_mem _ (path_mem_collectPaths _ body hbody hinside)
    · rw [conforms_call hliteral, Bool.and_eq_true, List.isEmpty_iff] at hconforms
      rw [collectTestLenses_call hliteral, hconforms.1, List.nil_append] at hlens
      rw [if_neg (by decide), collectPaths_call fun hlinked => hliteral hlinked.of_link]
      exact path_mem_collectPathsOfAll before arguments hconforms.2 hlens
  | .lambda parameters returnType body span, hconforms, hlens =>
    rw [link, collectPaths]
    exact path_mem_collectPaths before body hconforms hlens
  | .block statements span, hconforms, hlens =>
    rw [link, collectPaths]
    exact path_mem_collectPathsOfStatements before statements hconforms hlens
  | .call _ _ true _, _, hlens => exact absurd hlens (by simp [collectTestLenses])
  | .number _ _, _, hlens | .string _ _, _, hlens | .bool _ _, _, hlens | .unit _, _, hlens
  | .identifier _ _, _, hlens | .interpolation _ _, _, hlens | .binaryOperator _ _ _ _, _, hlens
  | .unaryOperator _ _ _, _, hlens | .ifThenElse _ _ _ _, _, hlens | .match_ _ _ _, _, hlens
  | .fieldAccess _ _ _, _, hlens | .fieldAssign _ _ _, _, hlens | .index _ _ _, _, hlens
  | .indexAssign _ _ _, _, hlens | .array _ _, _, hlens | .mapLiteral _ _, _, hlens
  | .setLiteral _ _, _, hlens | .record _ _, _, hlens | .constructor _ _ _, _, hlens
  | .range _ _ _, _, hlens | .spread _ _, _, hlens =>
    exact absurd hlens (by simp [collectTestLenses])
termination_by sizeOf expression
decreasing_by
  all_goals try rw [harguments]
  all_goals simp
  all_goals omega

theorem path_mem_collectPathsOfAll {lens : TestLens} (before : String) (expressions : List Expression)
    (hconforms : conformsAll resolve expressions before = true)
    (hlens : lens ∈ collectTestLensesOfAll before expressions) :
    lens.path ∈ collectPathsOfAll before (linkAll resolve expressions) := by
  match expressions, hconforms, hlens with
  | [], _, hlens => exact absurd hlens List.not_mem_nil
  | expression :: rest, hconforms, hlens =>
    rw [conformsAll, Bool.and_eq_true] at hconforms
    rw [linkAll, collectPathsOfAll]
    rcases List.mem_append.mp hlens with hhere | hlater
    · exact List.mem_append_left _ (path_mem_collectPaths before expression hconforms.1 hhere)
    · exact List.mem_append_right _ (path_mem_collectPathsOfAll before rest hconforms.2 hlater)
termination_by sizeOf expressions

theorem path_mem_collectPathsOfStatements {lens : TestLens} (before : String)
    (statements : List Statement) (hconforms : conformsStatements resolve statements before = true)
    (hlens : lens ∈ collectTestLensesOfStatements before statements) :
    lens.path ∈ collectPathsOfStatements before (linkStatements resolve statements) := by
  match statements, hconforms, hlens with
  | [], _, hlens => exact absurd hlens List.not_mem_nil
  | .item item :: rest, hconforms, hlens =>
    rw [linkStatements, collectPathsOfStatements]
    exact path_mem_collectPathsOfStatements before rest hconforms hlens
  | .expression expression :: rest, hconforms, hlens =>
    rw [conformsStatements, Bool.and_eq_true] at hconforms
    rw [linkStatements, collectPathsOfStatements]
    rcases List.mem_append.mp hlens with hhere | hlater
    · exact List.mem_append_left _ (path_mem_collectPaths before expression hconforms.1 hhere)
    · exact List.mem_append_right _
        (path_mem_collectPathsOfStatements before rest hconforms.2 hlater)
termination_by sizeOf statements

end

/-- The test blocks of the entry point offer their paths. -/
theorem mem_collectPaths_synthesizeTestEntry {path : String} (blocks : List Expression) (span : Span)
    (h : path ∈ collectPathsOfAll "" blocks) :
    path ∈ collectPathsOfStatements "" (synthesizeTestEntry blocks span) := by
  induction blocks with
  | nil => exact absurd h List.not_mem_nil
  | cons block rest ih =>
    show path ∈ collectPaths "" block ++ collectPathsOfStatements "" (synthesizeTestEntry rest span)
    rcases List.mem_append.mp h with hhere | hlater
    · exact List.mem_append_left _ hhere
    · exact List.mem_append_right _ (ih hlater)

/-- A path of the program is a selection `quilon test --only` takes. -/
theorem rejectUnknownSelection_singleton {path : String} {entry : List Statement}
    (h : path ∈ collectPathsOfStatements "" entry) : rejectUnknownSelection entry [path] = none := by
  have hany : (collectPathsOfStatements "" entry).any (fun known => selects path known) = true :=
    List.any_eq_true.mpr ⟨path, h, selects_self path⟩
  rw [rejectUnknownSelection, List.find?_cons, hany]
  rfl

/-! ### The suites above an offered case -/

/-- `path` is in the suite at `before`. -/
def Below (before path : String) : Prop :=
  ∃ rest, path = before ++ "/" ++ rest

theorem Below.selects {before path : String} (h : Below before path) : selects before path = true := by
  obtain ⟨rest, rfl⟩ := h
  have hsplit : (before ++ "/" ++ rest).toList = before.toList ++ '/' :: rest.toList := by
    rw [String.toList_append, String.toList_append, List.append_assoc]
    rfl
  have hstart : before.toList.isPrefixOf (before.toList ++ '/' :: rest.toList) = true :=
    List.isPrefixOf_iff_prefix.mpr (List.prefix_append _ _)
  rw [Testing.selects, stripStart, hsplit, if_pos hstart, List.drop_left, Bool.or_eq_true]
  exact .inr rfl

theorem joined_of_ne {before : String} (value : String) (h : before ≠ "") :
    joined before value = before ++ "/" ++ value := by
  rw [joined, if_neg h]

theorem joined_ne {before : String} (value : String) (h : before ≠ "") : joined before value ≠ "" := by
  rw [joined_of_ne value h]
  intro hempty
  have hlength := congrArg (fun text => text.toList.length) hempty
  simp only [String.toList_append, List.length_append] at hlength
  exact absurd hlength (by simp)

theorem Below.of_joined {before value path : String} (hbefore : before ≠ "")
    (h : Below (joined before value) path) : Below before path := by
  obtain ⟨rest, rfl⟩ := h
  refine ⟨value ++ "/" ++ rest, ?_⟩
  rw [joined_of_ne value hbefore]
  simp only [String.append_assoc]

mutual

/-- What a suite's body offers is below the suite's path. -/
theorem below_of_mem_collectTestLenses {lens : TestLens} {before : String} (hbefore : before ≠ "")
    (expression : Expression) (hlens : lens ∈ collectTestLenses before expression) :
    Below before lens.path := by
  match expression, hlens with
  | .call function arguments false span, hlens =>
    by_cases hliteral : LiteralCall function arguments
    · obtain ⟨name, nameSpan, value, valueSpan, body, hfunction, harguments⟩ := hliteral
      rw [hfunction, harguments, collectTestLenses] at hlens
      have hhere : Below before (joined before value) := ⟨value, joined_of_ne value hbefore⟩
      cases hkind : harnessCallKind name with
      | none =>
        rw [hkind] at hlens
        have hin : lens ∈ collectTestLenses before body := by
          simpa only [collectTestLenses, List.nil_append] using hlens
        exact below_of_mem_collectTestLenses hbefore body hin
      | some kind =>
        rw [hkind] at hlens
        cases kind with
        | case =>
          rw [List.mem_singleton.mp hlens]
          exact hhere
        | suite =>
          rcases List.mem_cons.mp hlens with hsuite | hinside
          · rw [hsuite]
            exact hhere
          · exact (below_of_mem_collectTestLenses (joined_ne value hbefore) body hinside).of_joined hbefore
    · rw [collectTestLenses_call hliteral] at hlens
      rcases List.mem_append.mp hlens with hfunction | harguments
      · exact below_of_mem_collectTestLenses hbefore function hfunction
      · exact below_of_mem_collectTestLensesOfAll hbefore arguments harguments
  | .lambda _ _ body _, hlens => exact below_of_mem_collectTestLenses hbefore body hlens
  | .block statements _, hlens => exact below_of_mem_collectTestLensesOfStatements hbefore statements hlens
  | .call _ _ true _, hlens => exact absurd hlens (by simp [collectTestLenses])
  | .number _ _, hlens | .string _ _, hlens | .bool _ _, hlens | .unit _, hlens
  | .identifier _ _, hlens | .interpolation _ _, hlens | .binaryOperator _ _ _ _, hlens
  | .unaryOperator _ _ _, hlens | .ifThenElse _ _ _ _, hlens | .match_ _ _ _, hlens
  | .fieldAccess _ _ _, hlens | .fieldAssign _ _ _, hlens | .index _ _ _, hlens
  | .indexAssign _ _ _, hlens | .array _ _, hlens | .mapLiteral _ _, hlens
  | .setLiteral _ _, hlens | .record _ _, hlens | .constructor _ _ _, hlens
  | .range _ _ _, hlens | .spread _ _, hlens =>
    exact absurd hlens (by simp [collectTestLenses])
termination_by sizeOf expression
decreasing_by
  all_goals try rw [harguments]
  all_goals simp
  all_goals omega

theorem below_of_mem_collectTestLensesOfAll {lens : TestLens} {before : String} (hbefore : before ≠ "")
    (expressions : List Expression) (hlens : lens ∈ collectTestLensesOfAll before expressions) :
    Below before lens.path := by
  match expressions, hlens with
  | [], hlens => exact absurd hlens List.not_mem_nil
  | expression :: rest, hlens =>
    rcases List.mem_append.mp hlens with hhere | hlater
    · exact below_of_mem_collectTestLenses hbefore expression hhere
    · exact below_of_mem_collectTestLensesOfAll hbefore rest hlater
termination_by sizeOf expressions

theorem below_of_mem_collectTestLensesOfStatements {lens : TestLens} {before : String}
    (hbefore : before ≠ "") (statements : List Statement)
    (hlens : lens ∈ collectTestLensesOfStatements before statements) : Below before lens.path := by
  match statements, hlens with
  | [], hlens => exact absurd hlens List.not_mem_nil
  | .item _ :: rest, hlens => exact below_of_mem_collectTestLensesOfStatements hbefore rest hlens
  | .expression expression :: rest, hlens =>
    rcases List.mem_append.mp hlens with hhere | hlater
    · exact below_of_mem_collectTestLenses hbefore expression hhere
    · exact below_of_mem_collectTestLensesOfStatements hbefore rest hlater
termination_by sizeOf statements

end

/-! ### A plain file comes to the cases offered -/

/-- A case that is come to is one of `offered`, and at the path offered. -/
def OfferedCase (offered : List TestLens) : Kind → Span → String → Prop := fun kind site path =>
  kind = .case → ∃ lens ∈ offered, lens.kind = .case ∧ lens.span = site ∧ lens.path = path

section PlainFile

variable {σ ε : Type} {meaning : Meaning σ ε} {only : List String} {offered : List TestLens}

theorem exists_of_link_lambda {body : Expression} {parameters : List Parameter} {returnType : Option Ty}
    {statements : List Statement} {span lambdaSpan : Span}
    (h : link resolve body = .lambda parameters returnType (.block statements span) lambdaSpan) :
    ∃ written, body = .lambda parameters returnType (.block written span) lambdaSpan ∧
      statements = linkStatements resolve written := by
  have hlambda : ∃ inner, body = .lambda parameters returnType inner lambdaSpan ∧
      link resolve inner = .block statements span := by
    cases body <;> simp only [link, reduceCtorEq, Expression.lambda.injEq] at h
    exact ⟨_, by rw [h.1, h.2.1, h.2.2.2], h.2.2.1⟩
  obtain ⟨inner, rfl, hinner⟩ := hlambda
  cases inner <;> simp only [link, reduceCtorEq, Expression.block.injEq] at hinner
  exact ⟨_, by rw [hinner.2], hinner.1.symm⟩

/-- What no call of the harness as written is none when linked. -/
theorem markerKind_of_link {expression body : Expression} {name value : String}
    {nameSpan valueSpan span : Span} {memberCall : Bool} {before : String}
    (hconforms : conforms resolve expression before = true)
    (hother : ¬ ∃ name nameSpan value valueSpan body span, expression =
      .call (.identifier name nameSpan) [.string value valueSpan, body] false span ∧
        (harnessCallKind name).isSome = true)
    (hlinked : link resolve expression =
      .call (.identifier name nameSpan) [.string value valueSpan, body] memberCall span) :
    markerKind name = none := by
  obtain ⟨function, arguments, written, hexpression⟩ :
      ∃ function arguments written, expression = .call function arguments written span := by
    cases expression <;> simp only [link, reduceCtorEq, Expression.call.injEq] at hlinked
    exact ⟨_, _, _, by rw [hlinked.2.2.2]⟩
  rw [hexpression] at hconforms hother hlinked
  simp only [link, Expression.call.injEq] at hlinked
  obtain ⟨hfunction, harguments, _, _⟩ := hlinked
  cases written with
  | true =>
    rw [if_pos rfl] at hfunction
    rw [hfunction, conforms, decide_eq_true_eq] at hconforms
    exact hconforms
  | false =>
    rw [if_neg (by decide)] at hfunction
    have hliteral : LiteralCall (link resolve function) (linkAll resolve arguments) :=
      ⟨_, _, _, _, _, hfunction, harguments⟩
    obtain ⟨known, knownSpan, knownValue, knownValueSpan, knownBody, rfl, rfl⟩ := hliteral.of_link
    rw [conforms, Bool.and_eq_true, decide_eq_true_eq] at hconforms
    rw [link, Expression.identifier.injEq] at hfunction
    rw [← hfunction.1, ← hconforms.1]
    by_contra hsome
    exact hother ⟨_, _, _, _, _, _, rfl, Option.isSome_iff_ne_none.mpr hsome⟩

mutual

theorem offered_of_plainCall (before : String) (scope : ε) (expression : Expression) (state : RunState σ)
    (hplain : PlainCall meaning (link resolve expression))
    (hconforms : conforms resolve expression before = true) (hopen : state.harness.openPath = before)
    (hoffered : ∀ lens ∈ collectTestLenses before expression, lens ∈ offered) :
    Along (OfferedCase offered) only (meaning.denoteExpression (link resolve expression) scope) state := by
  by_cases hliteral : ∃ name nameSpan value valueSpan body span, expression =
      .call (.identifier name nameSpan) [.string value valueSpan, body] false span ∧
        (harnessCallKind name).isSome = true
  · obtain ⟨name, nameSpan, value, valueSpan, body, span, hexpression, hsome⟩ := hliteral
    obtain ⟨kind, hkind⟩ := Option.isSome_iff_exists.mp hsome
    rw [hexpression] at hplain hconforms hoffered ⊢
    rw [conforms, Bool.and_eq_true, decide_eq_true_eq, hkind] at hconforms
    obtain ⟨hmarked, hbody⟩ := hconforms
    rw [link, linkAll, linkAll, linkAll, link, if_neg (by decide), link] at hplain ⊢
    rw [PlainCall, ← hmarked] at hplain
    rw [collectTestLenses, hkind] at hoffered
    have hpath : state.harness.pathTo value = joined before value := by
      rw [Harness.pathTo_eq, hopen]
    rw [denoteExpression_eq scope hmarked.symm]
    cases kind with
    | case =>
      obtain ⟨parameters, returnType, inner, lambdaSpan, hlambda⟩ := exists_of_isLambda hplain.1
      have hquiet := hplain.2 scope
      rw [hlambda] at hquiet ⊢
      refine ⟨trivial, fun later hlater => ?_⟩
      obtain rfl : state = later := congrArg Prod.snd hlater
      exact ⟨fun _ => ⟨_, hoffered _ (List.mem_singleton_self _), rfl, rfl, hpath.symm⟩,
        fun _ => hquiet.along⟩
    | suite =>
      obtain ⟨parameters, returnType, statements, blockSpan, lambdaSpan, hlinked⟩ :=
        exists_of_plainBody hplain
      obtain ⟨written, hwritten, hstatements⟩ := exists_of_link_lambda hlinked
      rw [hlinked] at hplain ⊢
      rw [hwritten] at hbody hoffered
      refine ⟨trivial, fun later hlater => ?_⟩
      obtain rfl : state = later := congrArg Prod.snd hlater
      refine ⟨nofun, fun _ => ⟨hplain.1.along, fun entered hentered => ⟨?_, fun _ _ => hplain.2.1.along⟩⟩⟩
      have hnames := hplain.1.openSuiteNames_of_run hentered
      have hinside : entered.harness.openPath = joined before value := by
        rw [Harness.openPath, hnames, ← hpath]
        exact Harness.openPath_enterSuite _ _ |>.trans (Harness.pathTo_eq _ _).symm
      have hinsidePlain := hplain.2.2
      rw [hstatements] at hinsidePlain ⊢
      exact offered_of_plain _ scope written entered hinsidePlain hbody hinside
        fun lens hlens => hoffered lens (List.mem_cons_of_mem _ hlens)
  · have hquiet : Quiet (meaning.denoteExpression (link resolve expression) scope) := by
      unfold PlainCall at hplain
      split at hplain
      · next name nameSpan value valueSpan body memberCall span hlinked =>
        rw [markerKind_of_link hconforms hliteral hlinked] at hplain
        rw [hlinked]
        exact hplain scope
      · exact hplain scope
    exact hquiet.along
termination_by sizeOf expression
decreasing_by
  rw [hexpression, hwritten]
  simp
  omega

theorem offered_of_plain (before : String) (scope : ε) (statements : List Statement) (state : RunState σ)
    (hplain : Plain meaning (linkStatements resolve statements))
    (hconforms : conformsStatements resolve statements before = true)
    (hopen : state.harness.openPath = before)
    (hoffered : ∀ lens ∈ collectTestLensesOfStatements before statements, lens ∈ offered) :
    Along (OfferedCase offered) only (meaning.denoteStatements (linkStatements resolve statements) scope)
      state := by
  match statements, hplain, hconforms, hoffered with
  | [], _, _, _ => trivial
  | .item item :: rest, hplain, hconforms, hoffered =>
    refine ⟨(hplain.1 scope).along, fun later hlater => ?_⟩
    have hnames := (hplain.1 scope).openSuiteNames_of_run hlater
    exact offered_of_plain before _ rest later hplain.2 hconforms
      (by rw [← hopen, Harness.openPath, hnames]; rfl) hoffered
  | .expression expression :: rest, hplain, hconforms, hoffered =>
    rw [conformsStatements, Bool.and_eq_true] at hconforms
    refine ⟨offered_of_plainCall before scope expression state hplain.1 hconforms.1 hopen
      fun lens hlens => hoffered lens (List.mem_append_left _ hlens), fun later hlater => ?_⟩
    have hnames := openSuiteNames_of_plainCall scope _ state later hplain.1 hlater
    exact offered_of_plain before scope rest later hplain.2 hconforms.2
      (by rw [← hopen, Harness.openPath, hnames]; rfl)
      fun lens hlens => hoffered lens (List.mem_append_right _ hlens)
termination_by sizeOf statements

end

/-- The entry point of a plain file comes to the cases the editor offers. -/
theorem offered_of_plainFile (scope : ε) (blocks : List Expression) (span : Span) (state : RunState σ)
    (hplain : Plain meaning (synthesizeTestEntry (linkAll resolve blocks) span))
    (hconforms : conformsAll resolve blocks "" = true) (hopen : state.harness.openPath = "")
    (hoffered : ∀ lens ∈ testLenses blocks, lens ∈ offered) :
    Along (OfferedCase offered) only
      (meaning.denoteStatements (synthesizeTestEntry (linkAll resolve blocks) span) scope) state := by
  induction blocks generalizing state with
  | nil => exact ⟨(plainCall_other hplain.1 (fun _ _ _ _ _ _ _ h => by simp at h) scope).along, fun _ _ => trivial⟩
  | cons block rest ih =>
    rw [conformsAll, Bool.and_eq_true] at hconforms
    refine ⟨offered_of_plainCall "" scope block state hplain.1 hconforms.1 hopen
      fun lens hlens => hoffered lens (List.mem_append_left _ hlens), fun later hlater => ?_⟩
    have hnames := openSuiteNames_of_plainCall scope _ state later hplain.1 hlater
    exact ih later hplain.2 hconforms.2 (by rw [← hopen, Harness.openPath, hnames]; rfl)
      fun lens hlens => hoffered lens (List.mem_append_right _ hlens)

end PlainFile

end Editor

/-! ### Where the selections agree -/

section Selections

variable {σ ε : Type}

theorem Along.mono {P Q : Kind → Span → String → Prop} {only : List String}
    (himplies : ∀ kind site path, P kind site path → Q kind site path) {behaviour : Behaviour σ}
    {state : RunState σ} (h : Along P only behaviour state) : Along Q only behaviour state := by
  induction behaviour generalizing state with
  | done | cut | exit | abort | enterSuite _ | leaveSuite | finishCase _ => trivial
  | seq first second ihFirst ihSecond =>
    exact ⟨ihFirst h.1, fun later hlater => ihSecond (h.2 later hlater)⟩
  | step change next ih => exact ih _ _ h
  | call kind site name body ih =>
    refine ⟨himplies _ _ _ h.1, fun hselected => ?_⟩
    have hbody := h.2 hselected
    cases kind with
    | suite => exact ih hbody
    | case => exact ih hbody

/-- Of the cases offered, the path of `lens` selects the one at its own place. -/
def Distinguished (offered : List TestLens) (lens : TestLens) : Prop :=
  ∀ other ∈ offered, other.kind = .case →
    (selects lens.path other.path = true ↔ other.span = lens.span)

/-- Under the path of `lens`, a case that is come to runs exactly when it is the one `lens` stands at. -/
def RunsAlone (lens : TestLens) : Kind → Span → String → Prop := fun kind site path =>
  kind = .case → (caseSelected [lens.path] path = true ↔ site = lens.span)

theorem caseSelected_singleton (selected path : String) :
    caseSelected [selected] path = selects selected path := by
  rw [caseSelected, covered, List.any_cons, List.any_nil, Bool.or_false]
  rfl

theorem suiteSelected_of_below {before path : String} (h : Below before path) :
    suiteSelected [path] before = true := by
  have hnests : nestsASelection before [path] = true := by
    rw [nestsASelection, List.any_cons, h.selects, Bool.true_or]
  rw [suiteSelected, hnests, Bool.or_true]

/-- The names an import of `core.test` brings, in full. -/
def fullName (name : String) : String := "core." ++ name

/-- A program whose other parts do nothing. -/
def quietMeaning : Meaning Unit Unit where
  statement _ _ := .done
  extend _ _ _ _ := ()
  enterBlock _ := .done
  leaveBlock _ := .done
  argument _ _ := .done
  text _ _ _ _ := ""
  call _ _ := .done
  isUnit _ := true

/-- `test.describe(value, () => body)` or `test.it(value, () => body)`, from `start` to `stop`. -/
def testCall (function value : String) (body : Expression) (start stop : Nat) : Expression :=
  .call (.identifier function ⟨start, start, 0⟩)
    [.string value ⟨start, stop, 0⟩, .lambda [] none body ⟨start, stop, 0⟩] false ⟨start, stop, 0⟩

def emptyCase (value : String) (start stop : Nat) : Expression :=
  testCall "test.it" value (.block [] ⟨start, stop, 0⟩) start stop

/-- The suite `y` with the cases `a` and `b`. -/
def pairSuite : Expression :=
  testCall "test.describe" "y"
    (.block [.expression (emptyCase "a" 2 3), .expression (emptyCase "b" 4 5)] ⟨1, 6, 0⟩) 1 6

def pairEntry : List Statement :=
  synthesizeTestEntry (linkAll fullName [pairSuite]) ⟨0, 8, 0⟩

theorem plain_pairEntry : Plain quietMeaning pairEntry :=
  ⟨⟨trivial, trivial, ⟨rfl, fun _ => ⟨trivial, trivial, trivial⟩⟩,
    ⟨rfl, fun _ => ⟨trivial, trivial, trivial⟩⟩, trivial⟩, fun _ => trivial, trivial⟩

/-- The paths of the cases that ran. -/
def ranPaths (result : Ending × RunState Unit) : List String :=
  result.2.harness.executed.filterMap fun execution =>
    match execution with
    | .ran _ path => some path
    | _ => none

/-- `test.describe("x", () => test.describe("y", () => < … >))`: the pruner looks into blocks alone. -/
def nestedEntry : List Statement :=
  synthesizeTestEntry (linkAll fullName [testCall "test.describe" "x" pairSuite 0 7]) ⟨0, 8, 0⟩

end Selections

end Quilon.Testing
