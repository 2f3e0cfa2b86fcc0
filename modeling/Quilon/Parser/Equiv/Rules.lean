import Quilon.Parser.Equiv.Cursor

/-!
# What the rules take

Every rule of the grammar takes a phrase, and those for expressions take an operand.  The rules that
run one level deeper are assumed to (`Deeper.Sound`), so that an induction on the levels ties the
knot (`deeper_sound`).  Here are those for types, operators and literals.
-/

namespace Quilon.Parser

open Lexer (Token TokenKind StrChunk)

variable {input : Input} {deeper : Deeper} {α β : Type} {s s' : Parser}

/-- The rules one level deeper take what they should. -/
structure Deeper.Sound (input : Input) (deeper : Deeper) : Prop where
  assignment : TakesOperand input deeper.assignment
  unary : TakesOperand input deeper.unary
  block : ∀ s, kindBefore input s.pos = .arrow →
    Yields deeper.block s fun _ s' => Operand input s s'
  pattern : Takes input deeper.pattern
  type : Takes input deeper.type

/-- What stands between a delimiter and its partner is an operand with them. -/
theorem Operand.pair {opener closer : TokenKind} (hpair : IsPair opener closer)
    (hopen : kindAt input s.pos = opener) (h : ClosedBy input closer s.next s') :
    Operand input s s' := by
  obtain ⟨s₁, hbody, hclose, hpos, huses⟩ := h
  have hle : s.pos + 1 ≤ s₁.pos := hbody.le
  refine ⟨.pair hpair hopen ⟨s₁, hbody, hclose, hpos, huses⟩, by omega, ?_⟩
  rw [hpos, kindBefore_succ, hclose]
  cases hpair <;> rfl

theorem ClosedBy.behind {closer : TokenKind} {s₁ : Parser} (h : Consumed input s s₁)
    (h' : ClosedBy input closer s₁ s') : ClosedBy input closer s s' := by
  obtain ⟨s₂, hbody, hclose⟩ := h'
  exact ⟨s₂, h.trans hbody, hclose⟩

variable (hlexed : Lexed input) (hdeeper : deeper.Sound input)
include hlexed

/-! ### Types -/

/-- The bracket of a closing fence is the partner of the one that opens it. -/
theorem expectFenceClose_closes :
    Yields (expectFenceClose input) s fun _ s' => ClosedBy input .bracketClose s s' := by
  refine Yields.expect hlexed (by decide) fun hpipe => ?_
  have hconsumed : Consumed input s s.next := .next (by rw [hpipe]; rfl)
  refine yields_expect hlexed (by decide) fun hclose => ?_
  exact ⟨s.next, hconsumed, hclose, rfl, rfl⟩

section Types

include hdeeper

theorem parseRecordTypeEntry_takes : Takes input (parseRecordTypeEntry input deeper) := by
  intro s
  refine (looks_peekAhead 1).then fun next => looks_check.then fun found => ?_
  refine Yields.branch ?_ ?_
  · refine Yields.bind (expectDefinitionName_takes hlexed s) fun name s₁ h₁ => ?_
    refine Yields.expect hlexed (by decide) fun hkind => ?_
    have hcolon : Consumed input s₁ s₁.next := .next (by rw [hkind]; rfl)
    refine Yields.bind (hdeeper.type s₁.next) fun type s₂ h₂ => (yields_pure _).mpr ?_
    exact (h₁.1.trans hcolon).trans h₂
  · exact Yields.bind (hdeeper.type s) fun type s₁ h₁ => (yields_pure _).mpr h₁

theorem parseAnonymousRecordType_takes (hkind : kindAt input s.pos = .braceOpen) :
    Yields (parseAnonymousRecordType input deeper) s fun _ s' => Consumed input s s' := by
  refine looks_currentSpan.then fun span => ?_
  refine Yields.expect hlexed (by decide) fun _ => ?_
  have hentries := parseCommaSeparated_takes hlexed .braceClose
    (parseRecordTypeEntry_takes hlexed hdeeper)
  refine Yields.closedBy hlexed (by decide) hentries fun entries s' h' => ?_
  refine (looks_spanFrom _).then fun span => ?_
  have hpair : Consumed input s s' := .pair .braces hkind h'
  refine Yields.branch (yields_throw _) (Yields.branch (yields_throw _) (Yields.branch ?_ ?_))
  · exact (yields_pure _).mpr hpair
  · exact (yields_pure _).mpr hpair

theorem parseFencedType_takes (hkind : kindAt input s.pos = .bracketOpen) :
    Yields (parseFencedType input deeper) s fun _ s' => Consumed input s s' := by
  refine Yields.expect hlexed (by decide) fun _ => ?_
  refine Yields.expect hlexed (by decide) fun hpipe => ?_
  have hfence : Consumed input s.next s.next.next := .next (by rw [hpipe]; rfl)
  refine Yields.bind (hdeeper.type _) fun first s₁ h₁ => ?_
  refine Yields.ifCheck (fun harrow => ?_) fun _ => ?_
  · have hnext : Consumed input s₁ s₁.next := .next (by rw [harrow]; rfl)
    refine Yields.advance hlexed (by rw [harrow]; decide) ?_
    refine Yields.bind (hdeeper.type _) fun value s₂ h₂ => ?_
    refine Yields.bind (expectFenceClose_closes hlexed) fun _ s₃ h₃ => (yields_pure _).mpr ?_
    exact .pair .brackets hkind (h₃.behind (((hfence.trans h₁).trans hnext).trans h₂))
  · refine Yields.bind (expectFenceClose_closes hlexed) fun _ s₂ h₂ => (yields_pure _).mpr ?_
    exact .pair .brackets hkind (h₂.behind (hfence.trans h₁))

theorem parseFunctionType_takes (hkind : kindAt input s.pos = .parenOpen) :
    Yields (parseFunctionType input deeper) s fun _ s' => Consumed input s s' := by
  refine Yields.expect hlexed (by decide) fun _ => ?_
  have hparameters := parseCommaSeparated_takes hlexed .parenClose hdeeper.type
  refine Yields.closedBy hlexed (by decide) hparameters fun parameters s₁ h₁ => ?_
  refine Yields.expect hlexed (by decide) fun harrow => ?_
  have hnext : Consumed input s₁ s₁.next := .next (by rw [harrow]; rfl)
  refine Yields.bind (hdeeper.type _) fun type s₂ h₂ => (yields_pure _).mpr ?_
  exact ((Consumed.pair .parens hkind h₁).trans hnext).trans h₂

omit hdeeper in
/-- A word of a type is a name. -/
theorem takes_word {m : ParserM β} {Q : β → Parser → Prop}
    (hword : input.letters.isCapitalized (tokenAt input s.pos).text = true)
    (h : Consumed input s s.next → Yields m s.next Q) :
    Yields (advance input >>= fun _ => m) s Q := by
  have hkind := hlexed.capital hword
  exact Yields.advance hlexed (by rw [hkind]; decide) (h (.next (by rw [hkind]; rfl)))

omit hdeeper in
theorem parseTypeName_takes : Takes input (parseTypeName input) := by
  intro s
  rw [parseTypeName, yields_bind, yields_peek]
  have hascii : ∀ word : String, word.toList.head?.any Char.isUpper = true →
      word.toList.head?.any (·.toNat < 128) = true → input.letters.isCapitalized word = true := by
    intro word hupper hsmall
    rw [Letters.isCapitalized]
    cases hword : word.toList.head? with
    | none =>
      rw [hword] at hupper
      cases hupper
    | some c =>
      rw [hword] at hupper hsmall
      exact (input.letters.isUppercase_ascii c (of_decide_eq_true hsmall)).trans hupper
  have hword : ∀ {word : String} {m : ParserM Ty}, (tokenAt input s.pos).text = word →
      word.toList.head?.any Char.isUpper = true →
      word.toList.head?.any (·.toNat < 128) = true →
      (Consumed input s s.next → Yields m s.next fun _ s' => Consumed input s s') →
      Yields (advance input >>= fun _ => m) s fun _ s' => Consumed input s s' := by
    intro word m htext hupper hsmall hm
    exact takes_word hlexed (by rw [htext]; exact hascii word hupper hsmall) hm
  have hpure : ∀ type : Ty, Consumed input s s.next →
      Yields (pure type : ParserM Ty) s.next fun _ s' => Consumed input s s' :=
    fun type h => (yields_pure type).mpr h
  refine yields_ite.mpr ⟨fun htext => hword htext rfl rfl (hpure _), fun _ => ?_⟩
  refine yields_ite.mpr ⟨fun htext => hword htext rfl rfl (hpure _), fun _ => ?_⟩
  refine yields_ite.mpr ⟨fun htext => hword htext rfl rfl (hpure _), fun _ => ?_⟩
  refine yields_ite.mpr ⟨fun htext => hword htext rfl rfl (hpure _), fun _ => ?_⟩
  refine yields_ite.mpr ⟨fun hcapital => ?_, fun _ => yields_throw _⟩
  exact takes_word hlexed hcapital (hpure _)

theorem parseTypeInner_takes : Takes input (parseTypeInner input deeper) := by
  intro s
  refine Yields.bind (tryParseModuleMember_takes hlexed) fun found s₁ h₁ => ?_
  cases found with
  | some found => exact (yields_pure _).mpr (h₁.2 (Option.some_ne_none found)).1
  | none =>
    obtain rfl := h₁.1 rfl
    show Yields (peek input >>= _) s₁ _
    rw [yields_bind, yields_peek]
    refine (looks_peekAhead 1).then fun next => ?_
    refine yields_ite.mpr ⟨fun hunit => ?_, fun _ => ?_⟩
    · have hkind : kindAt input s₁.pos = .unit := hunit
      refine Yields.advance hlexed (by rw [hkind]; decide) ((yields_pure _).mpr ?_)
      exact .next (by rw [hkind]; rfl)
    refine yields_ite.mpr ⟨fun hkind => ?_, fun _ => ?_⟩
    · exact parseAnonymousRecordType_takes hlexed hdeeper hkind
    refine yields_ite.mpr ⟨fun hkind => ?_, fun _ => ?_⟩
    · exact parseFencedType_takes hlexed hdeeper hkind.1
    refine yields_ite.mpr ⟨fun hkind => ?_, fun _ => ?_⟩
    · exact parseFunctionType_takes hlexed hdeeper hkind
    refine yields_ite.mpr ⟨fun hbracket => ?_, fun _ => parseTypeName_takes hlexed s₁⟩
    have hkind : kindAt input s₁.pos = .bracketOpen := hbracket
    refine Yields.advance hlexed (by rw [hkind]; decide) ?_
    refine Yields.expect hlexed (by decide) fun hclose => ?_
    have hpair : Consumed input s₁ s₁.next.next :=
      .pair .brackets hkind ⟨s₁.next, .refl _, hclose, rfl, rfl⟩
    refine Yields.bind (hdeeper.type _) fun element s₂ h₂ => (yields_pure _).mpr ?_
    exact hpair.trans h₂

theorem parseDeclaredType_takes : Takes input (parseDeclaredType input deeper) := by
  intro s
  refine Yields.ifCheck (fun hkind => ?_) fun _ => (yields_pure _).mpr (.refl s)
  have hnext : Consumed input s s.next := .next (by rw [hkind]; rfl)
  refine Yields.advance hlexed (by rw [hkind]; decide) ?_
  exact Yields.bind (hdeeper.type _) fun type s₁ h₁ => (yields_pure _).mpr (hnext.trans h₁)

theorem parseReturnType_takes : Takes input (parseReturnType input deeper) := by
  intro s
  refine Yields.ifCheck (fun hkind => ?_) fun _ => (yields_pure _).mpr (.refl s)
  have hnext : Consumed input s s.next := .next (by rw [hkind]; rfl)
  refine Yields.advance hlexed (by rw [hkind]; decide) ?_
  exact Yields.bind (hdeeper.type _) fun type s₁ h₁ => (yields_pure _).mpr (hnext.trans h₁)

end Types

/-! ### Operators -/

omit hlexed in
/-- The rule takes an operator that stands at the cursor, or nothing. -/
def Recognizes (input : Input) (rule : ParserM (Option BinaryOperator)) : Prop :=
  ∀ s, Yields rule s fun found s' => (found = none → s' = s) ∧
    ∀ operator, found = some operator →
      operatorOf (kindAt input s.pos) = some operator ∧ s' = s.next

omit hlexed in
theorem recognizes_none {s : Parser} :
    Yields (pure none : ParserM (Option BinaryOperator)) s fun found s' =>
      (found = none → s' = s) ∧ ∀ operator, found = some operator →
        operatorOf (kindAt input s.pos) = some operator ∧ s' = s.next :=
  (yields_pure _).mpr ⟨fun _ => rfl, fun _ h => absurd h (Option.some_ne_none _).symm⟩

theorem recognizes_some {operator : BinaryOperator}
    (h : operatorOf (kindAt input s.pos) = some operator) :
    Yields (advance input >>= fun _ => pure (some operator)) s fun found s' =>
      (found = none → s' = s) ∧ ∀ operator, found = some operator →
        operatorOf (kindAt input s.pos) = some operator ∧ s' = s.next := by
  refine Yields.advance hlexed (fun heof => ?_) ((yields_pure _).mpr ⟨?_, ?_⟩)
  · rw [heof] at h
    cases h
  · intro hnone
    cases hnone
  · intro found hfound
    rw [← Option.some.inj hfound]
    exact ⟨h, rfl⟩

theorem matchOr_recognizes : Recognizes input (matchOr input) := fun _ =>
  Yields.ifCheck (fun hkind => recognizes_some hlexed (by rw [hkind]; rfl)) fun _ => recognizes_none

theorem matchAnd_recognizes : Recognizes input (matchAnd input) := fun _ =>
  Yields.ifCheck (fun hkind => recognizes_some hlexed (by rw [hkind]; rfl)) fun _ => recognizes_none

theorem matchOperator_recognizes {operators : TokenKind → Option BinaryOperator}
    (h : ∀ kind operator, operators kind = some operator → operatorOf kind = some operator) :
    Recognizes input (matchOperator input operators) := by
  intro s
  have hlook : Looks (atOperatorDefinition input) := fun _ => ⟨_, rfl⟩
  refine hlook.then fun found => Yields.branch recognizes_none ?_
  rw [yields_bind, yields_peek]
  cases hoperator : operators (tokenAt input s.pos).kind with
  | none => exact recognizes_none
  | some operator => exact recognizes_some hlexed (h _ _ hoperator)

theorem matchEquality_recognizes : Recognizes input (matchEquality input) :=
  matchOperator_recognizes hlexed fun kind operator h => by
    cases kind <;> first | exact h | cases h

theorem matchComparison_recognizes : Recognizes input (matchComparison input) :=
  matchOperator_recognizes hlexed fun kind operator h => by
    cases kind <;> first | exact h | cases h

theorem matchAdditive_recognizes : Recognizes input (matchAdditive input) :=
  matchOperator_recognizes hlexed fun kind operator h => by
    cases kind <;> first | exact h | cases h

theorem matchMultiplicative_recognizes : Recognizes input (matchMultiplicative input) :=
  matchOperator_recognizes hlexed fun kind operator h => by
    cases kind <;> first | exact h | cases h

omit hlexed in
/-- A level takes an operand, if the level below does and its operators are operators. -/
theorem parseBinaryLevel_takes {next : ParserM Expression}
    {matchOperator : ParserM (Option BinaryOperator)} (hnext : TakesOperand input next)
    (hmatch : Recognizes input matchOperator) :
    TakesOperand input (parseBinaryLevel input next matchOperator) := by
  intro s
  refine Yields.bind (hnext s) fun left s₁ h₁ => operand_loop h₁ (fun left s₂ h₂ => ?_) left
  rw [yields_bind, yields_position]
  refine Yields.bind (hmatch s₂) fun found s₃ h₃ => ?_
  cases found with
  | none => exact (yields_pure _).mpr (Or.inl (h₃.1 rfl))
  | some operator =>
    obtain ⟨hoperator, rfl⟩ := h₃.2 operator rfl
    refine Yields.bind (hnext _) fun right s₄ h₄ => ?_
    refine yields_bind.mpr ((yields_modify _).mpr ((yields_pure _).mpr (Or.inr ?_)))
    have hlt : s₂.pos + 1 < s₄.pos := h₄.2.1
    exact ⟨.operator h₂.2.2 hoperator h₄.1 rfl rfl, Nat.lt_of_succ_lt hlt, h₄.2.2⟩

/-! ### Literals -/

omit hlexed in
theorem rejectLeadingZeroPosition_yields (text : List Char) (span : Span) :
    Yields (rejectLeadingZeroPosition text span) s fun _ s' => s' = s :=
  Yields.branch (yields_throw _) ((yields_pure _).mpr rfl)

omit hlexed in
theorem parseParts_yields (chunks : List StrChunk) :
    Yields (parseParts input chunks) s fun _ s' => s' = s := by
  induction chunks with
  | nil => exact (yields_pure _).mpr rfl
  | cons chunk chunks ih =>
    cases chunk with
    | lit text => exact Yields.bind ih fun parts s' h => (yields_pure _).mpr h
    | hole src offset =>
      rw [parseParts, yields_bind, yields_get]
      cases input.parseHole src (input.spanBase + offset) s.modulePaths with
      | error e => exact yields_throw e
      | ok expression => exact Yields.bind ih fun parts s' h => (yields_pure _).mpr h

omit hlexed in
theorem buildStringExpression_yields (chunks : List StrChunk) (span : Span) :
    Yields (buildStringExpression input chunks span) s fun _ s' => s' = s := by
  rw [buildStringExpression.eq_def]
  split
  · exact (yields_pure _).mpr rfl
  · exact Yields.bind (parseParts_yields _) fun parts s' h => (yields_pure _).mpr h

section Expressions

include hdeeper

omit hlexed in
theorem parseExpression_takes : TakesOperand input (parseExpression deeper) :=
  withBareMatchForbidden_takes false hdeeper.assignment

theorem tryParseSpread_takes :
    Yields (tryParseSpread input deeper) s fun found s' =>
      (found = none → s' = s) ∧ Consumed input s s' := by
  refine Yields.ifCheck (fun hkind => ?_) fun _ => (yields_pure _).mpr ⟨fun _ => rfl, .refl s⟩
  have hnext : Consumed input s s.next := .next (by rw [hkind]; rfl)
  refine looks_currentSpan.then fun span => ?_
  refine Yields.advance hlexed (by rw [hkind]; decide) ?_
  refine Yields.bind (parseExpression_takes hdeeper _) fun source s₁ h₁ => ?_
  refine (looks_spanFrom _).then fun span => (yields_pure _).mpr ⟨fun h => ?_, hnext.trans h₁.1⟩
  cases h

/-- A spread, or what else may stand in its place. -/
theorem takes_orSpread {more : Expression → ParserM α} {other : ParserM α}
    (hmore : ∀ spread, Takes input (more spread)) (hother : Takes input other) :
    Takes input (do
      match ← tryParseSpread input deeper with
      | some spread => more spread
      | none => other) := by
  intro s
  refine Yields.bind (tryParseSpread_takes hlexed hdeeper) fun found s₁ h₁ => ?_
  cases found with
  | some spread => exact (hmore spread s₁).mono fun _ _ h₂ => h₁.2.trans h₂
  | none =>
    obtain rfl := h₁.1 rfl
    exact hother s₁

/-- What is named, and its value. -/
theorem takes_named {f : String → Expression → α} :
    Takes input (do
      let name ← expectIdent input
      expect input .assign
      return f name (← parseExpression deeper)) := by
  intro s
  refine Yields.bind (expectIdent_takes hlexed s) fun name s₁ h₁ => ?_
  refine Yields.expect hlexed (by decide) fun hkind => ?_
  have hnext : Consumed input s₁ s₁.next := .next (by rw [hkind]; rfl)
  refine Yields.bind (parseExpression_takes hdeeper _) fun value s₂ h₂ => (yields_pure _).mpr ?_
  exact (h₁.1.trans hnext).trans h₂.1

theorem parseRecordField_takes : Takes input (parseRecordField input deeper) :=
  takes_orSpread hlexed hdeeper (fun _ => takes_pure _) (takes_named hlexed hdeeper)

theorem parseRecordFields_closes :
    Yields (parseRecordFields input deeper) s fun _ s' => ClosedBy input .braceClose s s' :=
  Yields.closedBy hlexed (by decide)
    (parseCommaSeparated_takes hlexed .braceClose (parseRecordField_takes hlexed hdeeper))
    fun _ _ h => (yields_pure _).mpr h

theorem parseRecordEntry_takes : Takes input (parseRecordEntry input deeper) := by
  refine takes_orSpread hlexed hdeeper (fun _ => takes_pure _) fun s => ?_
  rw [yields_bind, yields_peek]
  refine (looks_peekAhead 1).then fun next => ?_
  refine Yields.branch (takes_named hlexed hdeeper s) ?_
  refine yields_ite.mpr ⟨fun hnumber => ?_, fun _ => ?_⟩
  · have hkind : isPlain (kindAt input s.pos) = true := by
      have h : (kindAt input s.pos).isNumber = true := hnumber.1
      revert h
      cases kindAt input s.pos <;> intro h <;> first | rfl | cases h
    refine Yields.bind (rejectLeadingZeroPosition_yields _ _) fun _ s₁ h₁ => ?_
    rw [h₁]
    refine Yields.advance hlexed (fun heof => ?_) ?_
    · rw [heof] at hkind
      cases hkind
    refine Yields.expect hlexed (by decide) fun hassign => ?_
    have hnext : Consumed input s.next s.next.next := .next (by rw [hassign]; rfl)
    refine Yields.bind (parseExpression_takes hdeeper _) fun value s₂ h₂ => (yields_pure _).mpr ?_
    exact ((Consumed.next hkind).trans hnext).trans h₂.1
  · exact Yields.bind (parseExpression_takes hdeeper s) fun value s₁ h₁ => (yields_pure _).mpr h₁.1

theorem parseRecordLiteralFields_closes :
    Yields (parseRecordLiteralFields input deeper) s fun _ s' =>
      ClosedBy input .braceClose s s' := by
  refine looks_currentSpan.then fun span => ?_
  have hentries := parseCommaSeparated_takes hlexed .braceClose
    (parseRecordEntry_takes hlexed hdeeper)
  refine Yields.closedBy hlexed (by decide) hentries fun entries s' h' => ?_
  refine (looks_spanFrom _).then fun span => ?_
  refine Yields.branch (yields_throw _) (Yields.branch (yields_throw _)
    (Yields.branch (yields_throw _) (Yields.branch ?_ ?_)))
  · exact (yields_pure _).mpr h'
  · exact (yields_pure _).mpr h'

theorem parseRecord_takes (hkind : kindAt input s.pos = .braceOpen) :
    Yields (parseRecord input deeper) s fun _ s' => Operand input s s' := by
  refine looks_currentSpan.then fun span => ?_
  refine Yields.expect hlexed (by decide) fun _ => ?_
  refine Yields.bind (parseRecordLiteralFields_closes hlexed hdeeper) fun fields s₁ h₁ => ?_
  exact (looks_spanFrom _).then fun span => (yields_pure _).mpr (.pair .braces hkind h₁)

theorem parseArrayElement_takes : Takes input (parseArrayElement input deeper) :=
  takes_orSpread hlexed hdeeper (fun _ => takes_pure _) (parseExpression_takes hdeeper).takes

theorem parseArray_takes (hkind : kindAt input s.pos = .bracketOpen) :
    Yields (parseArray input deeper) s fun _ s' => Operand input s s' := by
  refine looks_currentSpan.then fun span => ?_
  refine Yields.expect hlexed (by decide) fun _ => ?_
  have helements := parseCommaSeparated_takes hlexed .bracketClose
    (parseArrayElement_takes hlexed hdeeper)
  refine Yields.closedBy hlexed (by decide) helements fun elements s₁ h₁ => ?_
  exact (looks_spanFrom _).then fun span => (yields_pure _).mpr (.pair .brackets hkind h₁)

omit hlexed in
theorem parseFenceKey_takes : TakesOperand input (parseFenceKey deeper) :=
  withSuppressLambda_takes true (parseExpression_takes hdeeper)

theorem parseMapEntries_takes (first : Expression × Expression) :
    Takes input (parseMapEntries input deeper first) := by
  refine takes_loop (fun entries => ?_) [first]
  refine takes_commaRound hlexed (parseFenceKey_takes hdeeper).takes fun key s => ?_
  refine Yields.expect hlexed (by decide) fun hkind => ?_
  have hnext : Consumed input s s.next := .next (by rw [hkind]; rfl)
  refine Yields.bind (parseExpression_takes hdeeper _) fun value s₁ h₁ => (yields_pure _).mpr ?_
  exact hnext.trans h₁.1

theorem parseSetElements_takes (first : Expression) :
    Takes input (parseSetElements input deeper first) :=
  takes_loop (fun _ => takes_commaRound hlexed (parseExpression_takes hdeeper).takes
    fun _ => takes_pure _) [first]

theorem parseFenceEntries_closes (start : Nat) :
    Yields (parseFenceEntries input deeper start) s fun _ s' =>
      ClosedBy input .bracketClose s s' := by
  refine Yields.bind (parseFenceKey_takes hdeeper s) fun first s₁ h₁ => ?_
  refine Yields.ifCheck (fun hkind => ?_) fun _ => ?_
  · have hnext : Consumed input s₁ s₁.next := .next (by rw [hkind]; rfl)
    refine Yields.advance hlexed (by rw [hkind]; decide) ?_
    refine Yields.bind (parseExpression_takes hdeeper _) fun value s₂ h₂ => ?_
    refine Yields.bind (parseMapEntries_takes hlexed hdeeper _ s₂) fun entries s₃ h₃ => ?_
    refine Yields.bind (expectFenceClose_closes hlexed) fun _ s₄ h₄ => ?_
    refine (looks_spanFrom _).then fun span => (yields_pure _).mpr ?_
    exact h₄.behind (((h₁.1.trans hnext).trans h₂.1).trans h₃)
  · refine Yields.bind (parseSetElements_takes hlexed hdeeper _ s₁) fun elements s₂ h₂ => ?_
    refine Yields.bind (expectFenceClose_closes hlexed) fun _ s₃ h₃ => ?_
    refine (looks_spanFrom _).then fun span => (yields_pure _).mpr ?_
    exact h₃.behind (h₁.1.trans h₂)

theorem parseFencedLiteral_takes (hkind : kindAt input s.pos = .bracketOpen) :
    Yields (parseFencedLiteral input deeper) s fun _ s' => Operand input s s' := by
  refine looks_currentSpan.then fun span => ?_
  refine Yields.expect hlexed (by decide) fun _ => ?_
  refine Yields.ifCheck (fun hor => ?_) fun _ => ?_
  · have hnext : Consumed input s.next s.next.next := .next (by rw [hor]; rfl)
    refine Yields.advance hlexed (by rw [hor]; decide) ?_
    refine Yields.expect hlexed (by decide) fun hclose => ?_
    refine (looks_spanFrom _).then fun span => (yields_pure _).mpr ?_
    exact .pair .brackets hkind ⟨_, hnext, hclose, rfl, rfl⟩
  refine Yields.expect hlexed (by decide) fun hpipe => ?_
  have hfence : Consumed input s.next s.next.next := .next (by rw [hpipe]; rfl)
  rw [yields_bind, yields_peek]
  refine yields_ite.mpr ⟨fun harrow => ?_, fun _ => Yields.branch ?_ ?_⟩
  · have hkind' : kindAt input s.next.next.pos = .arrow := harrow
    have hnext : Consumed input s.next.next s.next.next.next := .next (by rw [hkind']; rfl)
    refine Yields.advance hlexed (by rw [hkind']; decide) ?_
    refine Yields.bind (expectFenceClose_closes hlexed) fun _ s₁ h₁ => ?_
    refine (looks_spanFrom _).then fun span => (yields_pure _).mpr ?_
    exact .pair .brackets hkind (h₁.behind (hfence.trans hnext))
  · refine Yields.bind (expectFenceClose_closes hlexed) fun _ s₁ h₁ => ?_
    refine (looks_spanFrom _).then fun span => (yields_pure _).mpr ?_
    exact .pair .brackets hkind (h₁.behind hfence)
  · refine (parseFenceEntries_closes hlexed hdeeper _).mono fun _ s₁ h₁ => ?_
    exact .pair .brackets hkind (h₁.behind hfence)

end Expressions

end Quilon.Parser
