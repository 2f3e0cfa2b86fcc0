import Quilon.Parser
import Quilon.Parser.Equiv.Exprs

/-!
# What the rules for declarations take

Main results:
* `parseBlockInner_takes`: a block behind its `=>` is an operand;
* `deeper_sound`: the rules at every depth take what they should;
* `parseProgram_takes`: a program is a phrase up to the end of the file.
-/

namespace Quilon.Parser

open Lexer (Token TokenKind StrChunk)

variable {input : Input} {deeper : Deeper} {α : Type} {s s' : Parser}

variable (hlexed : Lexed input) (hdeeper : deeper.Sound input)
include hlexed hdeeper

omit hlexed hdeeper in
/-- Whatever the rule gives, it has taken a phrase that is not empty. -/
def Advances (input : Input) (rule : ParserM α) : Prop :=
  ∀ s, Yields rule s fun _ s' => Consumed input s s' ∧ s.pos < s'.pos

omit hlexed hdeeper in
theorem Advances.takes {rule : ParserM α} (h : Advances input rule) : Takes input rule :=
  fun s => (h s).mono fun _ _ h => h.1

omit hdeeper in
/-- A token that is no delimiter, and what follows it. -/
theorem takes_plain {m : ParserM α} {Q : α → Parser → Prop}
    (hplain : isPlain (kindAt input s.pos) = true)
    (h : Consumed input s s.next → Yields m s.next Q) :
    Yields (advance input >>= fun _ => m) s Q := by
  refine Yields.advance hlexed (fun heof => ?_) (h (.next hplain))
  rw [heof] at hplain
  cases hplain

omit hlexed hdeeper in
theorem isPlain_of_operatorSymbol {kind : TokenKind} (h : (operatorSymbol kind).isSome = true) :
    isPlain kind = true := by
  revert h
  cases kind <;> intro h <;> first | rfl | cases h

/-! ### Functions -/

omit hlexed in
/-- The body of a definition begins behind its `=>`. -/
theorem parseBody_takes (what : String) (harrow : kindBefore input s.pos = .arrow) :
    Yields (parseBody input deeper what) s fun _ s' => Operand input s s' :=
  Yields.ifCheck (fun _ => hdeeper.block s harrow) fun _ => looks_peek.then fun _ => yields_throw _

/-- Parameters, a return type, an `=>` and a body. -/
theorem takes_signature {Q : α → Parser → Prop} (what : String)
    {k : List Parameter → Option Ty → Expression → ParserM α}
    (h : ∀ parameters type body s', Consumed input s s' → Yields (k parameters type body) s' Q) :
    Yields (parseParameterList input deeper >>= fun parameters =>
      parseReturnType input deeper >>= fun type => expect input .arrow >>= fun _ =>
        parseBody input deeper what >>= fun body => k parameters type body) s Q := by
  refine Yields.bind (parseParameterList_takes hlexed hdeeper s) fun parameters s₁ h₁ => ?_
  refine Yields.bind (parseReturnType_takes hlexed hdeeper s₁) fun type s₂ h₂ => ?_
  refine Yields.expect hlexed (by decide) fun hkind => ?_
  have hnext : Consumed input s₂ s₂.next := .next (by rw [hkind]; rfl)
  have hbody := parseBody_takes (s := s₂.next) hdeeper what hkind
  exact Yields.bind hbody fun body s₃ h₃ =>
    h parameters type body s₃ (((h₁.trans h₂).trans hnext).trans h₃.1)

theorem parseFunctionDeclaration_takes (name : String) (start : Nat) (type : Option Ty)
    (exported : Bool) :
    Takes input (parseFunctionDeclaration input deeper name start type exported) := fun _ =>
  takes_signature hlexed hdeeper "function" fun _ _ _ _ h =>
    (looks_spanFrom _).then fun _ => (yields_pure _).mpr h

/-! ### Types -/

omit hdeeper in
theorem parseMemberBlockName_takes : Takes input (parseMemberBlockName input) := by
  intro s
  rw [parseMemberBlockName, yields_bind, yields_peek]
  refine (looks_peekAhead 1).then fun next => ?_
  refine yields_bind.mpr ((yields_ok (t := s) rfl).mpr ?_)
  refine yields_bind.mpr ((yields_ok (t := s) rfl).mpr ?_)
  refine yields_ite.mpr ⟨fun hrender => ?_, fun _ => ?_⟩
  · have hkind : kindAt input s.pos = .backtick := hrender
    refine Yields.advance hlexed (by rw [hkind]; decide) ((yields_pure _).mpr ?_)
    exact .next (by rw [hkind]; rfl)
  refine yields_ite.mpr ⟨fun hoperator => ?_, fun _ => ?_⟩
  · have hplain := isPlain_of_operatorSymbol (Option.isSome_of_isSome_filter _ _ hoperator)
    exact takes_plain hlexed hplain fun h => (yields_pure _).mpr h
  refine yields_ite.mpr ⟨fun _ => yields_throw _, fun _ => ?_⟩
  refine yields_ite.mpr ⟨fun hat => ?_, fun _ => (expectDefinitionName_takes hlexed).takes s⟩
  have hkind : kindAt input s.pos = .at_ := hat
  have hnext : Consumed input s s.next := .next (by rw [hkind]; rfl)
  refine Yields.advance hlexed (by rw [hkind]; decide) ?_
  exact Yields.bind (expectDefinitionName_takes hlexed _) fun name s₁ h₁ =>
    (yields_pure _).mpr (hnext.trans h₁.1)

theorem parseMethod_takes (name : String)
    (hkind : kindAt input s.pos = .assign ∨ kindAt input s.pos = .mutAssign) :
    Yields (parseMethod input deeper name) s fun _ s' => Consumed input s s' := by
  have hplain : isPlain (kindAt input s.pos) = true := by
    obtain h | h := hkind <;> rw [h] <;> rfl
  refine looks_peek.then fun token => Yields.branch (yields_throw _) ?_
  refine Yields.advance hlexed (fun heof => ?_) (looks_currentSpan.then fun span => ?_)
  · rw [heof] at hplain
    cases hplain
  · exact takes_signature hlexed hdeeper "method" fun _ _ _ _ h =>
      (looks_spanFrom _).then fun _ => (yields_pure _).mpr ((Consumed.next hplain).trans h)

theorem parseMember_takes (name : String) (members : MemberBlock) :
    Takes input (parseMember input deeper name members) := by
  intro s
  rw [parseMember, yields_bind, yields_peek]
  refine yields_ite.mpr ⟨fun hcolon => ?_, fun _ => yields_ite.mpr ⟨fun hassign => ?_, fun _ => ?_⟩⟩
  · have hkind : kindAt input s.pos = .doubleColon := hcolon
    have hnext : Consumed input s s.next := .next (by rw [hkind]; rfl)
    refine Yields.advance hlexed (by rw [hkind]; decide) ?_
    exact Yields.bind (hdeeper.type _) fun type s₁ h₁ => (yields_pure _).mpr (hnext.trans h₁)
  · exact Yields.bind (parseMethod_takes hlexed hdeeper name hassign) fun method s₁ h₁ =>
      (yields_pure _).mpr h₁
  · exact yields_throw _

theorem parseNextMember_takes (members : MemberBlock) :
    Takes input (parseNextMember input deeper members) := by
  intro s
  refine looks_check.then fun found => looks_isAtEnd.then fun ended => ?_
  refine Yields.branch ((yields_pure _).mpr (.refl s)) ?_
  refine Yields.bind (parseMemberBlockName_takes hlexed s) fun name s₁ h₁ => ?_
  refine Yields.bind (parseMember_takes hlexed hdeeper name members s₁) fun members s₂ h₂ => ?_
  refine Yields.ifCheck (fun hkind => ?_) fun _ => (yields_pure _).mpr (h₁.trans h₂)
  have hnext : Consumed input s₂ s₂.next := .next (by rw [hkind]; rfl)
  refine Yields.advance hlexed (by rw [hkind]; decide) ((yields_pure _).mpr ?_)
  exact (h₁.trans h₂).trans hnext

theorem parseMemberBlock_takes : Takes input (parseMemberBlock input deeper) := by
  intro s
  refine Yields.expect hlexed (by decide) fun hkind => ?_
  refine Yields.closedBy hlexed (by decide)
    (takes_loop (parseNextMember_takes hlexed hdeeper) ([], [])) fun members s₁ h₁ => ?_
  exact (yields_pure _).mpr (.pair .braces hkind h₁)

theorem parseTypeDeclaration_takes (name : String) (start : Nat) (exported : Bool) :
    Takes input (parseTypeDeclaration input deeper name start exported) := fun s =>
  Yields.bind (parseMemberBlock_takes hlexed hdeeper s) fun _ _ h =>
    (looks_spanFrom _).then fun _ => (yields_pure _).mpr h

theorem parsePayload_takes (name : String) : Takes input (parsePayload input deeper name) := by
  intro s
  refine Yields.ifCheck (fun hkind => ?_) fun _ => (yields_pure _).mpr (.refl s)
  refine looks_currentSpan.then fun span => ?_
  refine Yields.advance hlexed (by rw [hkind]; decide) ?_
  have hfields := parseCommaSeparated_takes hlexed .parenClose hdeeper.type
  refine Yields.closedBy hlexed (by decide) hfields fun fields s₁ h₁ => Yields.branch ?_ ?_
  · exact (looks_spanFrom _).then fun _ => yields_throw _
  · exact (yields_pure _).mpr (.pair .parens hkind h₁)

theorem parseVariant_takes : Takes input (parseVariant input deeper) := by
  intro s
  refine Yields.bind (expectDefinitionName_takes hlexed s) fun name s₁ h₁ => ?_
  refine looks_previousSpan.then fun span => Yields.branch ?_ (yields_throw _)
  exact Yields.bind (parsePayload_takes hlexed hdeeper name s₁) fun fields s₂ h₂ =>
    (yields_pure _).mpr (h₁.1.trans h₂)

theorem parseVariants_takes : Takes input (parseVariants input deeper) := by
  intro s
  refine Yields.bind (parseVariant_takes hlexed hdeeper s) fun first s₁ h₁ => ?_
  refine (takes_loop (fun variants s₂ => ?_) [first] s₁).mono fun _ _ h₂ => h₁.trans h₂
  refine Yields.ifCheck (fun hkind => ?_) fun _ => (yields_pure _).mpr (.refl s₂)
  have hnext : Consumed input s₂ s₂.next := .next (by rw [hkind]; rfl)
  refine Yields.advance hlexed (by rw [hkind]; decide) ?_
  exact Yields.bind (parseVariant_takes hlexed hdeeper _) fun variant s₃ h₃ =>
    (yields_pure _).mpr (hnext.trans h₃)

theorem parseSumMethods_takes (name : String) :
    Takes input (parseSumMethods input deeper name) := by
  intro s
  refine Yields.ifCheck (fun _ => ?_) fun _ => (yields_pure _).mpr (.refl s)
  refine Yields.bind (parseMemberBlock_takes hlexed hdeeper s) fun members s₁ h₁ => ?_
  refine Yields.branch (looks_previousSpan.then fun _ => yields_throw _) ?_
  cases members.2.find? MethodDeclaration.mutating with
  | some method => exact yields_throw _
  | none => exact (yields_pure _).mpr h₁

theorem parseSumTypeDeclaration_takes (name : String) (start : Nat) (exported : Bool) :
    Takes input (parseSumTypeDeclaration input deeper name start exported) := fun s =>
  Yields.bind (parseVariants_takes hlexed hdeeper s) fun _ s₁ h₁ =>
    Yields.bind (parseSumMethods_takes hlexed hdeeper name s₁) fun _ _ h₂ =>
      (looks_spanFrom _).then fun _ => (yields_pure _).mpr (h₁.trans h₂)

/-! ### Items -/

omit hlexed in
theorem parseVariableDeclaration_takes (isMutable : Bool) (name : String) (type : Option Ty)
    (start : Nat) (exported atMarker : Bool) : Takes input
      (parseVariableDeclaration input deeper isMutable name type start exported atMarker) :=
  fun s => Yields.bind (parseExpression_takes hdeeper s) fun _ _ h =>
    (looks_spanFrom _).then fun _ => (yields_pure _).mpr h.1

omit hlexed hdeeper in
theorem looks_functionAhead : Looks (functionAhead input) := by
  refine looks_peek.bind fun token => (looks_peekAhead 1).bind fun next => ?_
  split
  · exact looks_pure true
  · split
    · exact fun _ => ⟨_, rfl⟩
    · exact looks_pure _

omit hlexed hdeeper in
theorem looks_firstMember : Looks (firstMember input) := by
  refine (looks_peekAhead 1).bind fun name => (looks_peekAhead 2).bind fun behind => ?_
  have hlist : Looks (parameterListAheadFrom input 3) := fun _ => ⟨_, rfl⟩
  refine (looks_peekAhead 3).bind fun third => hlist.bind fun list => ?_
  split
  · split
    · exact looks_pure _
    · split <;> exact looks_pure _
  · exact looks_pure _

theorem parseDefinition_takes (name : String) (start : Nat) (type : Option Ty)
    (exported atMarker : Bool) :
    Takes input (parseDefinition input deeper name start type exported atMarker) := by
  intro s
  have hlook : Looks (looksLikeSumDeclaration input) := fun _ => ⟨_, rfl⟩
  refine hlook.then fun sumAhead => Yields.branch ?_ (looks_functionAhead.then fun found => ?_)
  · exact parseSumTypeDeclaration_takes hlexed hdeeper name start exported s
  refine Yields.branch ?_ ?_
  · exact parseFunctionDeclaration_takes hlexed hdeeper name start type exported s
  · exact parseVariableDeclaration_takes hdeeper false name type start exported atMarker s

theorem parseImmutable_takes (name : String) (start : Nat) (type : Option Ty)
    (exported atMarker : Bool) :
    Takes input (parseImmutable input deeper name start type exported atMarker) := by
  have hdefinition := parseDefinition_takes hlexed hdeeper name start type exported atMarker
  have hrecord := parseTypeDeclaration_takes hlexed hdeeper name start exported
  have hfield : Looks (memberBlockHasField input) := fun _ => ⟨_, rfl⟩
  intro s
  refine looks_check.then fun found => Yields.branch ?_ (hdefinition s)
  refine looks_firstMember.then fun member => ?_
  cases member with
  | field => exact hrecord s
  | method =>
    refine hfield.then fun found => Yields.branch (hrecord s) ?_
    exact looks_currentSpan.then fun _ => yields_throw _
  | other => exact hdefinition s

theorem parseBinding_takes (name : String) (start : Nat) (exported atMarker : Bool) :
    Takes input (parseBinding input deeper name start exported atMarker) := by
  intro s
  refine Yields.ifCheckSameLine (fun _ => looks_currentSpan.then fun _ => yields_throw _) ?_
  refine Yields.bind (parseDeclaredType_takes hlexed hdeeper s) fun type s₁ h₁ => ?_
  refine Yields.ifCheck (fun hkind => ?_) fun _ => ?_
  · refine takes_plain hlexed (by rw [hkind]; rfl) fun hnext => ?_
    exact (parseVariableDeclaration_takes hdeeper true name type start exported atMarker _).mono
      fun _ _ h₂ => (h₁.trans hnext).trans h₂
  · refine Yields.expect hlexed (by decide) fun hkind => ?_
    have hnext : Consumed input s₁ s₁.next := .next (by rw [hkind]; rfl)
    exact (parseImmutable_takes hlexed hdeeper name start type exported atMarker _).mono
      fun _ _ h₂ => (h₁.trans hnext).trans h₂

omit hdeeper in
theorem parseExported_takes : Takes input (parseExported input) := fun s =>
  Yields.ifCheck (fun hkind => takes_plain hlexed (by rw [hkind]; rfl) fun hnext =>
    (yields_pure _).mpr hnext) fun _ => (yields_pure _).mpr (.refl s)

theorem parseItem_advances : Advances input (parseItem input deeper) := by
  intro s
  refine looks_currentSpan.then fun span => ?_
  refine Yields.bind (parseExported_takes hlexed s) fun exported s₁ h₁ => ?_
  have hle : s.pos ≤ s₁.pos := h₁.le
  refine yields_bind.mpr ((yields_ok (t := s₁) rfl).mpr ?_)
  split
  next operator hoperator =>
    -- A definition of an operator: its symbol, and an `=` behind it.
    have hsymbol : (operatorSymbol (kindAt input s₁.pos)).isSome = true :=
      Option.isSome_of_isSome_filter _ _ (Option.isSome_of_mem hoperator)
    refine takes_plain hlexed (isPlain_of_operatorSymbol hsymbol) fun hnext => ?_
    refine Yields.expect hlexed (by decide) fun hassign => ?_
    have hnext' : Consumed input s₁.next s₁.next.next := .next (by rw [hassign]; rfl)
    have hfunction :=
      parseFunctionDeclaration_takes hlexed hdeeper operator span.start none exported
    refine (hfunction _).mono fun _ s₂ h₂ => ⟨((h₁.trans hnext).trans hnext').trans h₂, ?_⟩
    have hmore : s₁.pos + 1 ≤ s₂.pos := (hnext'.trans h₂).le
    omega
  next =>
    refine Yields.ifCheck (fun hkind => ?_) fun _ => ?_
    · refine takes_plain hlexed (by rw [hkind]; rfl) fun hnext => ?_
      refine Yields.bind (expectDefinitionName_takes hlexed _) fun name s₂ h₂ => ?_
      have hbinding := parseBinding_takes hlexed hdeeper ("@" ++ name) span.start exported true
      refine (hbinding s₂).mono fun _ s₃ h₃ => ⟨((h₁.trans hnext).trans h₂.1).trans h₃, ?_⟩
      have hmore : s₁.pos + 1 ≤ s₃.pos := (h₂.1.trans h₃).le
      omega
    · refine Yields.bind (expectDefinitionName_takes hlexed s₁) fun name s₂ h₂ => ?_
      have hbinding := parseBinding_takes hlexed hdeeper name span.start exported false
      refine (hbinding s₂).mono fun _ s₃ h₃ => ⟨(h₁.trans h₂.1).trans h₃, ?_⟩
      have hname : s₁.pos < s₂.pos := h₂.2.1
      have hmore : s₂.pos ≤ s₃.pos := h₃.le
      omega

/-! ### Blocks -/

theorem parseStatement_takes (statements : List Statement) :
    Takes input (parseStatement input deeper statements) := by
  have hbinding : Looks (bindingAhead input) := fun _ => ⟨_, rfl⟩
  intro s
  refine looks_check.then fun found => looks_isAtEnd.then fun ended => ?_
  refine Yields.branch ((yields_pure _).mpr (.refl s)) ?_
  refine Yields.ifCheck (fun _ => looks_currentSpan.then fun _ => yields_throw _) fun _ => ?_
  refine hbinding.then fun found => Yields.branch ?_ ?_
  · exact Yields.bind (parseItem_advances hlexed hdeeper s) fun _ _ h => (yields_pure _).mpr h.1
  · exact Yields.bind (parseExpression_takes hdeeper s) fun _ _ h => (yields_pure _).mpr h.1

omit hlexed hdeeper in
theorem rememberBlockClose_yields (bodyStart : Nat) :
    Yields (rememberBlockClose input bodyStart) s fun _ s' =>
      s'.pos = s.pos ∧ s'.uses = s.uses := by
  refine looks_peek.then fun closer => looks_position.then fun stop => ?_
  exact Yields.branch ((yields_modify _).mpr ⟨rfl, rfl⟩) ((yields_pure _).mpr ⟨rfl, rfl⟩)

/-- A block stands behind its `=>`, and ends with the `>` that is its partner. -/
theorem parseBlockInner_takes (harrow : kindBefore input s.pos = .arrow) :
    Yields (parseBlockInner input deeper) s fun _ s' => Operand input s s' := by
  refine looks_currentSpan.then fun span => ?_
  rw [yields_bind, yields_position]
  refine Yields.expect hlexed (by decide) fun hopen => looks_position.then fun bodyStart => ?_
  have hstatements := takes_loop (parseStatement_takes hlexed hdeeper) [] s.next
  refine Yields.bind hstatements fun statements s₁ h₁ => ?_
  refine Yields.bind (rememberBlockClose_yields bodyStart) fun _ s₂ h₂ => ?_
  rw [yields_bind, yields_position]
  refine Yields.expect hlexed (by decide) fun hclose => ?_
  have hbody : Consumed input s.next s₂ := h₁.trans (.of_same h₂.1 h₂.2)
  refine yields_bind.mpr ((yields_modify _).mpr (yields_bind.mpr ((yields_modify _).mpr ?_)))
  refine (looks_spanFrom _).then fun span => (yields_pure _).mpr ⟨?_, ?_, ?_⟩
  · exact .block harrow hopen hbody hclose rfl rfl
  · have hle : s.pos + 1 ≤ s₂.pos := hbody.le
    show s.pos < s₂.pos + 1
    omega
  · show endsExpression (kindBefore input (s₂.pos + 1)) = true
    rw [kindBefore_succ, hclose]
    rfl

/-! ### Programs -/

omit hdeeper in
theorem parseDottedPath_takes : Takes input (parseDottedPath input) := by
  intro s
  refine Yields.bind (expectIdent_takes hlexed s) fun first s₁ h₁ => ?_
  refine (takes_loop (fun parts s₂ => ?_) [first] s₁).mono fun _ _ h₂ => h₁.1.trans h₂
  refine Yields.ifCheck (fun hkind => ?_) fun _ => (yields_pure _).mpr (.refl s₂)
  refine takes_plain hlexed (by rw [hkind]; rfl) fun hnext => ?_
  exact Yields.bind (expectIdent_takes hlexed _) fun part s₃ h₃ =>
    (yields_pure _).mpr (hnext.trans h₃.1)

omit hdeeper in
theorem parseImportPath_takes : Takes input (parseImportPath input) := by
  intro s
  rw [parseImportPath, yields_bind, yields_peek]
  split
  next chunks hkind =>
    exact Yields.bind (plainStringLiteral_takes hlexed _ _ _ hkind) fun _ _ h =>
      (yields_pure _).mpr h.1
  next =>
    exact Yields.bind (parseDottedPath_takes hlexed s) fun _ _ h => (yields_pure _).mpr h

omit hlexed hdeeper in
theorem registerImport_yields (path : Modules.ModulePath) :
    Yields (registerImport path) s fun _ s' => s'.pos = s.pos ∧ s'.uses = s.uses := by
  rw [registerImport]
  cases bindingName path with
  | none => exact (yields_pure _).mpr ⟨rfl, rfl⟩
  | some binding => exact (yields_modify _).mpr ⟨rfl, rfl⟩

omit hdeeper in
theorem parseImport_advances : Advances input (parseImport input) := by
  intro s
  refine looks_currentSpan.then fun span => ?_
  refine Yields.expect hlexed (by decide) fun hkind => ?_
  have hnext : Consumed input s s.next := .next (by rw [hkind]; rfl)
  refine Yields.bind (parseImportPath_takes hlexed _) fun path s₁ h₁ => ?_
  refine Yields.bind (registerImport_yields path) fun _ s₂ h₂ => ?_
  have hpath : Consumed input s.next s₂ := h₁.trans (.of_same h₂.1 h₂.2)
  exact (looks_spanFrom _).then fun span => (yields_pure _).mpr ⟨hnext.trans hpath, hpath.le⟩

theorem parseTrapDeclaration_advances : Advances input (parseTrapDeclaration input deeper) := by
  intro s
  refine looks_currentSpan.then fun span => ?_
  refine Yields.expect hlexed (by decide) fun hkind => ?_
  have hnext : Consumed input s s.next := .next (by rw [hkind]; rfl)
  refine Yields.bind (parseArmList_takes hlexed hdeeper) fun arms s₁ h₁ => ?_
  cases arms.getLast? with
  | none => exact (looks_spanFrom _).then fun _ => yields_throw _
  | some last => exact (yields_pure _).mpr ⟨hnext.trans h₁.1, h₁.1.le⟩

omit hlexed hdeeper in
theorem looks_atTestBlock : Looks (atTestBlock input) := by
  have hchain : Looks (atPossibleModuleChain input) := fun _ => ⟨_, rfl⟩
  refine hchain.bind fun possible => ?_
  split
  · refine looks_tokensAhead.bind fun tokens => looks_get.bind fun parser => ?_
    split
    · exact looks_pure false
    · exact (looks_peekAhead _).bind fun next => looks_pure _
  · exact looks_pure false

theorem parseConstruct_advances (parsed : Modules.Parsed) :
    Advances input (parseConstruct input deeper parsed) := by
  intro s
  refine Yields.ifCheck (fun _ => ?_) fun _ => ?_
  · exact Yields.bind (parseImport_advances hlexed s) fun _ _ h => (yields_pure _).mpr h
  refine looks_atTestBlock.then fun found => Yields.branch ?_ ?_
  · exact Yields.bind (parseExpression_takes hdeeper s) fun _ _ h =>
      (yields_pure _).mpr ⟨h.1, h.2.1⟩
  refine Yields.ifCheck (fun _ => ?_) fun _ => ?_
  · exact Yields.bind (parseTrapDeclaration_advances hlexed hdeeper s) fun _ _ h =>
      (yields_pure _).mpr h
  · exact Yields.bind (parseItem_advances hlexed hdeeper s) fun _ _ h => (yields_pure _).mpr h

omit hlexed hdeeper in
theorem blaming_advances {construct : ParserM α} (h : Advances input construct) :
    Advances input (blaming construct) := by
  intro s a s' hrun
  rw [blaming] at hrun
  cases hconstruct : construct s with
  | error e t =>
    rw [hconstruct] at hrun
    cases hrun
  | ok b t =>
    obtain ⟨hconsumed, hlt⟩ := h s b t hconstruct
    rw [hconstruct] at hrun
    dsimp only at hrun
    split at hrun
    · obtain ⟨-, rfl⟩ := EStateM.Result.ok.inj hrun
      exact ⟨hconsumed.trans (.of_same rfl rfl), hlt⟩
    · obtain ⟨-, rfl⟩ := EStateM.Result.ok.inj hrun
      exact ⟨hconsumed, hlt⟩

theorem parseNextConstruct_takes (parsed : Modules.Parsed) (s : Parser) :
    Yields (parseNextConstruct input deeper parsed) s fun found s' => Consumed input s s' ∧
      (found.isSome → s.pos < s'.pos ∧ s.pos < input.tokens.length) ∧
      (found = none → input.tokens.length ≤ s'.pos ∨ kindAt input s'.pos = .eof) := by
  rw [parseNextConstruct, yields_bind]
  refine (yields_ok (t := s) rfl).mpr (yields_ite.mpr ⟨fun hend => ?_, fun hnot => ?_⟩)
  · rw [Bool.or_eq_true, decide_eq_true_eq, decide_eq_true_eq] at hend
    exact (yields_pure _).mpr ⟨.refl s, fun h => absurd h Bool.false_ne_true, fun _ => hend⟩
  · rw [Bool.or_eq_true, decide_eq_true_eq, decide_eq_true_eq, not_or] at hnot
    refine Yields.bind (blaming_advances (parseConstruct_advances hlexed hdeeper parsed) s)
      fun next s₁ h₁ => (yields_pure _).mpr
        ⟨h₁.1, fun _ => ⟨h₁.2, ?_⟩, fun h => absurd h (Option.some_ne_none next)⟩
    exact Nat.lt_of_not_le hnot.1

/-- A program is a phrase up to the end of the file. -/
theorem parseProgram_takes (s : Parser) : Yields (parseProgram input deeper) s fun _ s' =>
    Consumed input s s' ∧ (input.tokens.length ≤ s'.pos ∨ kindAt input s'.pos = .eof) := by
  have hnext := parseNextConstruct_takes hlexed hdeeper
  have hshrinks : Shrinks (parseNextConstruct input deeper)
      fun s => input.tokens.length - s.pos := fun parsed s =>
    (hnext parsed s).mono fun found s' h hsome => by
      have hprogress := h.2.1 hsome
      show input.tokens.length - s'.pos < input.tokens.length - s.pos
      omega
  refine yields_iterate_last (I := fun _ s' => Consumed input s s') hshrinks ?_ (.refl s)
    fun parsed s₁ h₁ => (hnext parsed s₁).mono fun found s₂ h₂ => ⟨h₁.trans h₂.1, fun hnone => ?_⟩
  · show input.tokens.length - s.pos < input.tokens.length + 1
    omega
  · exact ⟨h₁.trans h₂.1, h₂.2.2 hnone⟩

omit hdeeper in
/-- The rules at every depth take what they should. -/
theorem deeper_sound (levels : Nat) : (Quilon.Parser.deeper input levels).Sound input := by
  induction levels with
  | zero =>
    exact ⟨fun _ => nestingTooDeep_yields, fun _ => nestingTooDeep_yields,
      fun _ _ => nestingTooDeep_yields, fun _ => nestingTooDeep_yields,
      fun _ => nestingTooDeep_yields⟩
  | succ levels ih =>
    exact ⟨parseAssignment_takes hlexed ih, parseUnary_takes hlexed ih,
      fun _ => parseBlockInner_takes hlexed ih, parsePatternInner_takes hlexed ih,
      parseTypeInner_takes hlexed ih⟩

end Quilon.Parser
