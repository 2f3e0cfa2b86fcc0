import Quilon.Parser.Equiv.Rules

/-!
# What the rules for expressions take

From the lambdas and the primaries up the chain of precedences to the assignment.

Main results:
* `parseAssignment_takes`: every expression is an operand;
* `parseUnary_takes`, `parsePatternInner_takes`, for the other rules that run one level deeper.
-/

namespace Quilon.Parser

open Lexer (Token TokenKind StrChunk)

variable {input : Input} {deeper : Deeper} {α β : Type} {s s' : Parser}

theorem looks_looksLikeBareLambda : Looks (looksLikeBareLambda input) := by
  refine looks_get.bind fun parser => ?_
  by_cases hsuppress : parser.suppressLambda = true
  · rw [if_pos hsuppress]
    exact looks_pure false
  · rw [if_neg hsuppress]
    refine (looks_peekAhead 1).bind fun next => ?_
    split
    · exact looks_pure true
    · exact looks_tokensAhead.bind fun tokens => looks_pure _
    · exact looks_pure false

variable (hlexed : Lexed input) (hdeeper : deeper.Sound input)
include hlexed hdeeper

/-! ### Lambdas -/

theorem parseParameter_takes : Takes input (parseParameter input deeper) := by
  intro s
  refine looks_currentSpan.then fun span => ?_
  refine Yields.bind (expectDefinitionName_takes hlexed s) fun name s₁ h₁ => ?_
  refine Yields.bind (parseDeclaredType_takes hlexed hdeeper s₁) fun type s₂ h₂ => ?_
  exact (looks_spanFrom _).then fun span => (yields_pure _).mpr (h₁.1.trans h₂)

theorem parseNextParameter_takes (parameters : List Parameter) :
    Takes input (parseNextParameter input deeper parameters) := by
  intro s
  refine Yields.branch (looks_currentSpan.then fun span => yields_throw _) ?_
  exact Yields.bind (parseParameter_takes hlexed hdeeper s) fun parameter s₁ h₁ =>
    (yields_pure _).mpr h₁

theorem parseParameterList_takes : Takes input (parseParameterList input deeper) := by
  intro s
  refine Yields.ifCheck (fun hkind => ?_) fun _ => ?_
  · refine Yields.advance hlexed (by rw [hkind]; decide) ?_
    refine Yields.ifCheck (fun _ => ?_) fun _ => ?_
    · refine Yields.closedBy hlexed (by decide) (takes_pure []) fun parameters s₁ h₁ => ?_
      exact (yields_pure _).mpr (.pair .parens hkind h₁)
    · refine Yields.bind (parseNextParameter_takes hlexed hdeeper [] _) fun first s₁ h₁ => ?_
      have hmore := takes_loop (fun parameters => takes_commaRound hlexed
        (parseNextParameter_takes hlexed hdeeper parameters)
        fun parameters => takes_pure (some parameters)) first
      refine Yields.closedBy hlexed (by decide) hmore fun parameters s₂ h₂ => ?_
      exact (yields_pure _).mpr (.pair .parens hkind (h₂.behind h₁))
  · refine Yields.ifCheck (fun _ => ?_) fun _ => (yields_pure _).mpr (.refl s)
    exact Yields.bind (parseParameter_takes hlexed hdeeper s) fun parameter s₁ h₁ =>
      (yields_pure _).mpr h₁

omit hlexed in
/-- A lambda's body begins behind its `=>`. -/
theorem parseLambdaBody_takes (harrow : kindBefore input s.pos = .arrow) :
    Yields (parseLambdaBody input deeper) s fun _ s' => Operand input s s' :=
  Yields.ifCheck (fun _ => hdeeper.block s harrow) fun _ => parseExpression_takes hdeeper s

theorem parseLambdaExpression_takes : TakesOperand input (parseLambdaExpression input deeper) := by
  intro s
  refine looks_currentSpan.then fun span => ?_
  refine Yields.bind (parseParameterList_takes hlexed hdeeper s) fun parameters s₁ h₁ => ?_
  refine Yields.bind (parseReturnType_takes hlexed hdeeper s₁) fun returnType s₂ h₂ => ?_
  refine Yields.expect hlexed (by decide) fun hkind => ?_
  have hnext : Consumed input s₂ s₂.next := .next (by rw [hkind]; rfl)
  refine Yields.bind (parseLambdaBody_takes (s := s₂.next) hdeeper hkind) fun body s₃ h₃ => ?_
  refine (looks_spanFrom _).then fun span => (yields_pure _).mpr ?_
  exact h₃.trans ((h₁.trans h₂).trans hnext)

/-! ### Primaries -/

omit hdeeper in
theorem parsePrimitive_takes (hkind : kindAt input s.pos = .at_) :
    Yields (parsePrimitive input) s fun _ s' => Operand input s s' := by
  have hnext : Consumed input s s.next := .next (by rw [hkind]; rfl)
  refine looks_currentSpan.then fun span => ?_
  refine Yields.advance hlexed (by rw [hkind]; decide) ?_
  rw [yields_bind, yields_peek]
  refine yields_ite.mpr ⟨fun hident => ?_, fun _ => yields_throw _⟩
  have hkind' : kindAt input s.next.pos = .ident := hident
  refine Yields.advance hlexed (by rw [hkind']; decide) ((yields_pure _).mpr ?_)
  exact Operand.trans hnext (Operand.next (by rw [hkind']; rfl) (by rw [hkind']; rfl))

theorem parseReference_takes (hkind : kindAt input s.pos = .ident) :
    Yields (parseReference input deeper) s fun _ s' => Operand input s s' := by
  refine Yields.bind (parseNameOrQualified_takes hlexed hkind) fun name s₁ h₁ => ?_
  refine Yields.ifCheckSameLine (fun hbrace => ?_) ((yields_pure _).mpr h₁)
  refine Yields.advance hlexed (by rw [hbrace]; decide) ?_
  refine Yields.bind (parseRecordFields_closes hlexed hdeeper) fun fields s₂ h₂ => ?_
  refine (looks_spanFrom _).then fun span => (yields_pure _).mpr ?_
  exact Operand.trans h₁.1 (.pair .braces hbrace h₂)

theorem parseParenthesized_takes (hkind : kindAt input s.pos = .parenOpen) :
    Yields (parseParenthesized input deeper) s fun _ s' => Operand input s s' := by
  refine Yields.advance hlexed (by rw [hkind]; decide) ?_
  refine Yields.closedBy hlexed (by decide) (parseExpression_takes hdeeper).takes
    fun expression s₁ h₁ => ?_
  exact (yields_pure _).mpr (.pair .parens hkind h₁)

omit hdeeper in
/-- A literal of one token. -/
theorem takes_literal {m : ParserM β} {Q : β → Parser → Prop}
    (hplain : isPlain (kindAt input s.pos) = true)
    (hends : endsExpression (kindAt input s.pos) = true)
    (h : Operand input s s.next → Yields m s.next Q) :
    Yields (advance input >>= fun _ => m) s Q := by
  refine Yields.advance hlexed (fun heof => ?_) (h (.next hplain hends))
  rw [heof] at hplain
  cases hplain

theorem parsePrimary_takes : TakesOperand input (parsePrimary input deeper) := by
  intro s
  have hpure : ∀ e : Expression, Operand input s s.next →
      Yields (pure e : ParserM Expression) s.next fun _ s' => Operand input s s' :=
    fun e h => (yields_pure e).mpr h
  rw [parsePrimary, yields_bind, yields_peek]
  split
  next value hkind =>
    replace hkind : kindAt input s.pos = .number value := hkind
    exact takes_literal hlexed (by rw [hkind]; rfl) (by rw [hkind]; rfl) (hpure _)
  next chunks hkind =>
    replace hkind : kindAt input s.pos = .string chunks := hkind
    refine takes_literal hlexed (by rw [hkind]; rfl) (by rw [hkind]; rfl) fun h => ?_
    refine (buildStringExpression_yields _ _).mono fun _ s' hsame => ?_
    rw [hsame]
    exact h
  next hkind =>
    replace hkind : kindAt input s.pos = .true_ := hkind
    exact takes_literal hlexed (by rw [hkind]; rfl) (by rw [hkind]; rfl) (hpure _)
  next hkind =>
    replace hkind : kindAt input s.pos = .false_ := hkind
    exact takes_literal hlexed (by rw [hkind]; rfl) (by rw [hkind]; rfl) (hpure _)
  next hkind =>
    replace hkind : kindAt input s.pos = .unit := hkind
    exact takes_literal hlexed (by rw [hkind]; rfl) (by rw [hkind]; rfl) (hpure _)
  next hkind => exact parsePrimitive_takes hlexed hkind
  next hkind =>
    refine looks_looksLikeBareLambda.then fun found => Yields.branch ?_ ?_
    · exact parseLambdaExpression_takes hlexed hdeeper s
    · exact parseReference_takes hlexed hdeeper hkind
  next hkind =>
    have hlook : Looks (parenStartsLambda input) := fun _ => ⟨_, rfl⟩
    refine hlook.then fun found => Yields.branch ?_ ?_
    · exact parseLambdaExpression_takes hlexed hdeeper s
    · exact parseParenthesized_takes hlexed hdeeper hkind
  next hkind =>
    refine (looks_peekAhead 1).then fun next => Yields.branch ?_ ?_
    · exact parseFencedLiteral_takes hlexed hdeeper hkind
    · exact parseArray_takes hlexed hdeeper hkind
  next hkind => exact parseRecord_takes hlexed hdeeper hkind
  next => exact yields_throw _

/-! ### Postfix forms -/

theorem parseArguments_closes :
    Yields (parseArguments input deeper) s fun _ s' => ClosedBy input .parenClose s s' :=
  Yields.closedBy hlexed (by decide)
    (parseCommaSeparated_takes hlexed .parenClose (parseExpression_takes hdeeper).takes)
    fun _ _ h => (yields_pure _).mpr h

omit hdeeper in
theorem parseMemberName_takes : TakesOperand input (parseMemberName input) := by
  intro s
  refine Yields.ifCheck (fun hkind => ?_) fun _ => expectIdent_takes hlexed s
  have hnext : Consumed input s s.next := .next (by rw [hkind]; rfl)
  refine Yields.advance hlexed (by rw [hkind]; decide) ?_
  exact Yields.bind (expectIdent_takes hlexed _) fun name s₁ h₁ =>
    (yields_pure _).mpr (Operand.trans hnext h₁)

theorem parseAfterDot_takes (expression : Expression) :
    TakesOperand input (parseAfterDot input deeper expression) := by
  intro s
  refine Yields.bind (parseMemberName_takes hlexed s) fun field s₁ h₁ => ?_
  refine Yields.ifCheckSameLine (fun hparen => ?_) ?_
  · refine Yields.advance hlexed (by rw [hparen]; decide) ?_
    refine Yields.bind (parseArguments_closes hlexed hdeeper) fun arguments s₂ h₂ => ?_
    refine (looks_spanFrom _).then fun span => (yields_pure _).mpr ?_
    exact Operand.trans h₁.1 (.pair .parens hparen h₂)
  · exact (looks_spanFrom _).then fun span => (yields_pure _).mpr h₁

omit hlexed hdeeper in
theorem accessPositions_yields (start : Nat) (expression : Expression)
    (parts : List (List Char)) :
    Yields (accessPositions input start expression parts) s fun _ s' => s' = s := by
  induction parts generalizing start expression with
  | nil => exact (yields_pure _).mpr rfl
  | cons part parts ih =>
    refine Yields.branch (ih _ _) ?_
    refine Yields.bind (rejectLeadingZeroPosition_yields _ _) fun _ s₁ h₁ => ?_
    rw [h₁]
    exact ih _ _

theorem chainPositionalFieldAccesses_takes (base : Expression)
    (hnumber : (kindAt input s.pos).isNumber = true) :
    Yields (chainPositionalFieldAccesses input deeper base) s fun _ s' => Operand input s s' := by
  have hnext : Operand input s s.next := by
    refine .next ?_ ?_
    all_goals
      revert hnumber
      cases kindAt input s.pos <;> intro h <;> first | rfl | cases h
  refine looks_peek.then fun token => ?_
  refine Yields.advance hlexed (fun heof => ?_) ?_
  · rw [heof] at hnumber
    cases hnumber
  refine Yields.bind (accessPositions_yields _ _ _) fun expression s₁ h₁ => ?_
  rw [h₁]
  refine Yields.branch ?_ ((yields_pure _).mpr hnext)
  exact (parseAfterDot_takes hlexed hdeeper expression _).mono fun _ _ h₂ =>
    Operand.trans hnext.1 h₂

theorem parsePostfixForm_takes (expression : Expression) :
    Yields (parsePostfixForm input deeper expression) s fun _ s' =>
      s' = s ∨ Operand input s s' := by
  refine Yields.ifCheck (fun hdot => ?_) fun _ => ?_
  · have hnext : Consumed input s s.next := .next (by rw [hdot]; rfl)
    refine Yields.advance hlexed (by rw [hdot]; decide) ?_
    rw [yields_bind, yields_peek]
    refine yields_ite.mpr ⟨fun hnumber => ?_, fun _ => ?_⟩
    · refine Yields.bind (chainPositionalFieldAccesses_takes hlexed hdeeper expression hnumber)
        fun _ s₁ h₁ => (yields_pure _).mpr (Or.inr (Operand.trans hnext h₁))
    · exact Yields.bind (parseAfterDot_takes hlexed hdeeper expression _)
        fun _ s₁ h₁ => (yields_pure _).mpr (Or.inr (Operand.trans hnext h₁))
  refine Yields.ifCheckSameLine (fun hbracket => ?_) ?_
  · refine Yields.advance hlexed (by rw [hbracket]; decide) ?_
    refine Yields.closedBy hlexed (by decide) (parseExpression_takes hdeeper).takes
      fun index s₁ h₁ => ?_
    refine (looks_spanFrom _).then fun span => (yields_pure _).mpr (Or.inr ?_)
    exact .pair .brackets hbracket h₁
  refine Yields.ifCheckSameLine (fun hparen => ?_) ((yields_pure _).mpr (Or.inl rfl))
  refine Yields.advance hlexed (by rw [hparen]; decide) ?_
  refine Yields.bind (parseArguments_closes hlexed hdeeper) fun arguments s₁ h₁ => ?_
  refine (looks_spanFrom _).then fun span => (yields_pure _).mpr (Or.inr ?_)
  exact .pair .parens hparen h₁

theorem parsePostfix_takes : TakesOperand input (parsePostfix input deeper) := by
  intro s
  refine Yields.bind (parsePrimary_takes hlexed hdeeper s) fun expression s₁ h₁ => ?_
  exact operand_loop h₁ (fun expression s₂ _ => parsePostfixForm_takes hlexed hdeeper expression)
    expression

/-! ### The chain of precedences -/

theorem parsePrefixed_takes (operator : UnaryOperator)
    (hplain : isPlain (kindAt input s.pos) = true) :
    Yields (parsePrefixed input deeper operator) s fun _ s' => Operand input s s' := by
  refine looks_currentSpan.then fun span => ?_
  refine Yields.advance hlexed (fun heof => ?_) ?_
  · rw [heof] at hplain
    cases hplain
  exact Yields.bind (hdeeper.unary _) fun expression s₁ h₁ =>
    (yields_pure _).mpr (Operand.trans (.next hplain) h₁)

theorem parseUnary_takes : TakesOperand input (parseUnary input deeper) := by
  intro s
  refine Yields.ifCheck (fun hkind => ?_) fun _ => Yields.ifCheck (fun hkind => ?_) fun _ => ?_
  · exact parsePrefixed_takes hlexed hdeeper .neg (by rw [hkind]; rfl)
  · exact parsePrefixed_takes hlexed hdeeper .not (by rw [hkind]; rfl)
  · exact parsePostfix_takes hlexed hdeeper s

theorem parseAdditive_takes : TakesOperand input (parseAdditive input deeper) :=
  parseBinaryLevel_takes
    (parseBinaryLevel_takes (parseUnary_takes hlexed hdeeper)
      (matchMultiplicative_recognizes hlexed))
    (matchAdditive_recognizes hlexed)

theorem parseRange_takes : TakesOperand input (parseRange input deeper) := by
  intro s
  refine Yields.bind (parseAdditive_takes hlexed hdeeper s) fun left s₁ h₁ => ?_
  refine Yields.ifCheck (fun hkind => ?_) fun _ => (yields_pure _).mpr h₁
  have hnext : Consumed input s₁ s₁.next := .next (by rw [hkind]; rfl)
  refine Yields.advance hlexed (by rw [hkind]; decide) ?_
  exact Yields.bind (parseAdditive_takes hlexed hdeeper _) fun right s₂ h₂ =>
    (yields_pure _).mpr (Operand.trans (h₁.1.trans hnext) h₂)

theorem parseLogicalOr_takes : TakesOperand input (parseLogicalOr input deeper) :=
  parseBinaryLevel_takes
    (parseBinaryLevel_takes
      (parseBinaryLevel_takes
        (parseBinaryLevel_takes (parseRange_takes hlexed hdeeper)
          (matchComparison_recognizes hlexed))
        (matchEquality_recognizes hlexed))
      (matchAnd_recognizes hlexed))
    (matchOr_recognizes hlexed)

/-! ### Matches -/

theorem parseNamePattern_takes (hkind : kindAt input s.pos = .ident) :
    Yields (parseNamePattern input deeper) s fun _ s' => Consumed input s s' := by
  refine Yields.bind (parseNameOrQualified_takes hlexed hkind) fun name s₁ h₁ => ?_
  refine Yields.ifCheck (fun hparen => ?_) fun _ => Yields.branch ?_ ?_
  · refine Yields.advance hlexed (by rw [hparen]; decide) ?_
    have harguments := parseCommaSeparated_takes hlexed .parenClose hdeeper.pattern
    refine Yields.closedBy hlexed (by decide) harguments fun arguments s₂ h₂ => ?_
    refine (looks_spanFrom _).then fun span => (yields_pure _).mpr ?_
    exact h₁.1.trans (.pair .parens hparen h₂)
  · exact (yields_pure _).mpr h₁.1
  · exact (yields_pure _).mpr h₁.1

theorem parsePatternInner_takes : Takes input (parsePatternInner input deeper) := by
  intro s
  rw [parsePatternInner, yields_bind, yields_peek]
  split
  next hkind => exact parseNamePattern_takes hlexed hdeeper hkind
  next value hkind =>
    replace hkind : kindAt input s.pos = .number value := hkind
    exact takes_literal hlexed (by rw [hkind]; rfl) (by rw [hkind]; rfl) fun h =>
      (yields_pure _).mpr h.1
  next chunks hkind =>
    exact Yields.bind (plainStringLiteral_takes hlexed _ _ _ hkind) fun value s₁ h₁ =>
      (yields_pure _).mpr h₁.1
  next hkind =>
    replace hkind : kindAt input s.pos = .underscore := hkind
    refine Yields.advance hlexed (by rw [hkind]; decide) ((yields_pure _).mpr ?_)
    exact .next (by rw [hkind]; rfl)
  next => exact yields_throw _

theorem parseArm_takes (arms : List MatchArm) :
    Yields (parseArm input deeper arms) s fun found s' =>
      (found = none → s' = s) ∧ (found ≠ none → Operand input s s') := by
  refine Yields.ifCheck (fun hkind => ?_) fun _ => (yields_pure _).mpr ⟨fun _ => rfl, ?_⟩
  · have hnext : Consumed input s s.next := .next (by rw [hkind]; rfl)
    refine Yields.advance hlexed (by rw [hkind]; decide) ?_
    refine Yields.bind (hdeeper.pattern _) fun pattern s₁ h₁ => ?_
    refine Yields.expect hlexed (by decide) fun harrow => ?_
    have harrow' : Consumed input s₁ s₁.next := .next (by rw [harrow]; rfl)
    have hbody := withBareMatchForbidden_takes true hdeeper.assignment
    refine Yields.bind (hbody _) fun body s₂ h₂ => (yields_pure _).mpr ⟨fun h => ?_, fun _ => ?_⟩
    · cases h
    · exact Operand.trans ((hnext.trans h₁).trans harrow') h₂
  · intro h
    exact absurd rfl h

theorem parseArmList_takes :
    Yields (parseArmList input deeper) s fun arms s' =>
      Consumed input s s' ∧ (arms ≠ [] → Operand input s s') := by
  refine yields_iterate (I := fun arms s' =>
    Consumed input s s' ∧ (arms ≠ [] → Operand input s s')) ⟨.refl s, fun h => absurd rfl h⟩
    fun arms s₁ h₁ => (parseArm_takes hlexed hdeeper arms).mono fun found s₂ h₂ => ?_
  cases found with
  | none =>
    obtain rfl := h₂.1 rfl
    exact h₁
  | some arms' =>
    have hoperand := Operand.trans h₁.1 (h₂.2 (Option.some_ne_none arms'))
    exact ⟨hoperand.1, fun _ => hoperand⟩

theorem parseMatch_takes (expression : Expression) :
    TakesOperand input (parseMatch input deeper expression) := by
  intro s
  refine Yields.bind (parseArmList_takes hlexed hdeeper) fun arms s₁ h₁ => ?_
  cases harms : arms.getLast? with
  | none => exact yields_throw _
  | some last =>
    refine (yields_pure _).mpr (h₁.2 fun hnil => ?_)
    rw [hnil] at harms
    cases harms

/-! ### The loosest forms -/

theorem parseBranches_takes (condition : Expression) :
    TakesOperand input (parseBranches input deeper condition) := by
  intro s
  refine Yields.bind (parseExpression_takes hdeeper s) fun then_ s₁ h₁ => ?_
  refine Yields.expect hlexed (by decide) fun hkind => ?_
  have hnext : Consumed input s₁ s₁.next := .next (by rw [hkind]; rfl)
  exact Yields.bind (parseExpression_takes hdeeper _) fun else_ s₂ h₂ =>
    (yields_pure _).mpr (Operand.trans (h₁.1.trans hnext) h₂)

theorem parseTernary_takes : TakesOperand input (parseTernary input deeper) := by
  intro s
  refine Yields.bind (parseLogicalOr_takes hlexed hdeeper s) fun expression s₁ h₁ => ?_
  refine Yields.ifCheck (fun hkind => ?_) fun _ => (yields_pure _).mpr h₁
  have hnext : Consumed input s₁ s₁.next := .next (by rw [hkind]; rfl)
  have hbehind : ∀ {s₂ : Parser}, Operand input s₁.next s₂ → Operand input s s₂ :=
    fun h => Operand.trans (h₁.1.trans hnext) h
  refine Yields.advance hlexed (by rw [hkind]; decide) ?_
  refine looks_previousSpan.then fun span => Yields.ifCheck (fun _ => ?_) fun _ => ?_
  · refine looks_get.then fun parser => Yields.branch (yields_throw _) ?_
    exact (parseMatch_takes hlexed hdeeper expression _).mono fun _ _ h₂ => hbehind h₂
  · exact (parseBranches_takes hlexed hdeeper expression _).mono fun _ _ h₂ => hbehind h₂

theorem parseAssigned_takes (target : Expression) (node : Expression → Span → Expression)
    (hkind : kindAt input s.pos = .mutAssign) :
    Yields (parseAssigned input deeper target node) s fun _ s' => Operand input s s' := by
  have hnext : Consumed input s s.next := .next (by rw [hkind]; rfl)
  refine Yields.advance hlexed (by rw [hkind]; decide) ?_
  exact Yields.bind (hdeeper.assignment _) fun value s₁ h₁ =>
    (yields_pure _).mpr (Operand.trans hnext h₁)

theorem parseAssignment_takes : TakesOperand input (parseAssignment input deeper) := by
  intro s
  refine Yields.bind (parseTernary_takes hlexed hdeeper s) fun expression s₁ h₁ => ?_
  refine Yields.ifCheck (fun hkind => ?_) fun _ => (yields_pure _).mpr h₁
  have hassigned : ∀ target node, Yields (parseAssigned input deeper target node) s₁
      fun _ s' => Operand input s s' := fun target node =>
    (parseAssigned_takes hlexed hdeeper target node hkind).mono fun _ _ h₂ =>
      Operand.trans h₁.1 h₂
  cases expression with
  | fieldAccess _ _ _ => exact hassigned _ _
  | index _ _ _ => exact hassigned _ _
  | identifier _ _ => exact hassigned _ _
  | _ => exact (yields_pure _).mpr h₁

end Quilon.Parser
