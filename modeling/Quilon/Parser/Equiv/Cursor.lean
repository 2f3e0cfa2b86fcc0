import Quilon.Parser.Equiv.Phrases
import Mathlib.Data.List.GetD

/-!
# What the cursor takes

The steps the rules of the grammar are made of: what each leaves behind, and what it takes of the
tokens of a text that has been lexed (`Lexed`).
-/

namespace Quilon.Parser

open Lexer (Token TokenKind StrChunk)

/-- What the lexer promises of its tokens: the end of the file is the last, no name begins with an
`@`, and only names begin with a capital. -/
structure Lexed (input : Input) : Prop where
  ends : ∀ i, input.tokens.length ≤ i → kindAt input i = .eof
  names : ∀ token ∈ input.tokens, token.kind = .ident → token.text.toList.head? ≠ some '@'
  capitals : ∀ token ∈ input.tokens, input.letters.isCapitalized token.text = true →
    token.kind = .ident

variable (input : Input)

/-- Whatever the rule gives, it has taken a phrase. -/
def Takes {α : Type} (rule : ParserM α) : Prop :=
  ∀ s, Yields rule s fun _ s' => Consumed input s s'

/-- Whatever the rule gives, it has taken an operand. -/
def TakesOperand {α : Type} (rule : ParserM α) : Prop :=
  ∀ s, Yields rule s fun _ s' => Operand input s s'

variable {input} {α β : Type} {s : Parser} {Q : β → Parser → Prop} {kind : TokenKind}

/-! ### Looking -/

theorem looks_peekAhead (offset : Nat) : Looks (peekAhead input offset) := fun _ => ⟨_, rfl⟩

theorem looks_peek : Looks (peek input) := looks_peekAhead 0

theorem looks_tokensAhead : Looks (tokensAhead input) := fun _ => ⟨_, rfl⟩

theorem looks_check : Looks (check input kind) := fun _ => ⟨_, rfl⟩

theorem looks_isAtEnd : Looks (isAtEnd input) := fun _ => ⟨_, rfl⟩

theorem looks_currentSpan : Looks (currentSpan input) := fun _ => ⟨_, rfl⟩

theorem looks_previousSpan : Looks (previousSpan input) := fun _ => ⟨_, rfl⟩

theorem looks_spanFrom (start : Nat) : Looks (spanFrom input start) := fun _ => ⟨_, rfl⟩

theorem looks_position : Looks position := fun _ => ⟨_, rfl⟩

theorem yields_peek {Q : Token → Parser → Prop} :
    Yields (peek input) s Q ↔ Q (tokenAt input s.pos) s := yields_ok rfl

theorem yields_position {Q : Nat → Parser → Prop} : Yields position s Q ↔ Q s.pos s :=
  yields_ok rfl

/-! ### Branching on the token at the cursor -/

theorem Yields.ifCheck {m m' : ParserM β} (hyes : kindAt input s.pos = kind → Yields m s Q)
    (hno : kindAt input s.pos ≠ kind → Yields m' s Q) :
    Yields (check input kind >>= fun found => if found = true then m else m') s Q := by
  refine yields_bind.mpr ((yields_ok (a := decide (kindAt input s.pos = kind)) rfl).mpr ?_)
  rw [yields_ite]
  exact ⟨fun h => hyes (of_decide_eq_true h), fun h => hno fun heq => h (decide_eq_true heq)⟩

theorem Yields.ifCheckSameLine {m m' : ParserM β}
    (hyes : kindAt input s.pos = kind → Yields m s Q) (hno : Yields m' s Q) :
    Yields (checkSameLine input kind >>= fun found => if found = true then m else m') s Q := by
  refine yields_bind.mpr ((yields_ok (a := decide (kindAt input s.pos = kind) &&
    !(tokenAt input s.pos).firstOnLine) rfl).mpr ?_)
  rw [yields_ite]
  exact ⟨fun h => hyes (of_decide_eq_true (Bool.and_eq_true_iff.mp h).1), fun _ => hno⟩

/-- Either way. -/
theorem Yields.branch {p : Prop} [Decidable p] {m m' : ParserM β} (hyes : Yields m s Q)
    (hno : Yields m' s Q) : Yields (if p then m else m') s Q :=
  yields_ite.mpr ⟨fun _ => hyes, fun _ => hno⟩

/-! ### Taking a token -/

section Lexed

variable (hlexed : Lexed input)
include hlexed

theorem Lexed.lt_length {i : Nat} (h : kindAt input i ≠ .eof) : i < input.tokens.length := by
  by_contra hend
  exact h (hlexed.ends i (Nat.le_of_not_lt hend))

/-- Only a name begins with a capital. -/
theorem Lexed.capital {i : Nat}
    (h : input.letters.isCapitalized (tokenAt input i).text = true) : kindAt input i = .ident := by
  by_cases hmem : tokenAt input i ∈ input.tokens
  · exact hlexed.capitals _ hmem h
  · -- Past the end stands the last token, if there is one.
    have hpast : ¬i < input.tokens.length := fun hlt => hmem (by
      rw [tokenAt, List.getD_eq_getElem _ _ hlt]
      exact List.getElem_mem hlt)
    rw [tokenAt, List.getD_eq_default _ _ (Nat.le_of_not_lt hpast)] at h hmem
    cases htokens : input.tokens with
    | nil =>
      rw [htokens] at h
      cases h
    | cons token tokens =>
      rw [htokens, List.getLastD_cons] at hmem
      exact absurd List.getLastD_mem_cons hmem

theorem advance_apply (hkind : kindAt input s.pos ≠ .eof) :
    advance input s = .ok ⟨⟩ s.next := by
  have hlt := hlexed.lt_length hkind
  have hend : isAtEnd input s = .ok false s := by
    have hnot : decide ((tokenAt input s.pos).kind = .eof) = false := decide_eq_false hkind
    show EStateM.Result.ok _ s = _
    rw [decide_eq_false (Nat.not_le.mpr hlt), hnot]
    rfl
  rw [advance, bind_of_ok hend]
  rfl

theorem Yields.advance {k : Unit → ParserM β} (hkind : kindAt input s.pos ≠ .eof)
    (h : Yields (k ⟨⟩) s.next Q) : Yields (advance input >>= k) s Q :=
  yields_bind.mpr ((yields_ok (advance_apply hlexed hkind)).mpr h)

theorem yields_expect {Q : Unit → Parser → Prop} (hkind : kind ≠ .eof)
    (h : kindAt input s.pos = kind → Q ⟨⟩ s.next) : Yields (expect input kind) s Q := by
  refine Yields.ifCheck (fun hfound => ?_) fun _ => ?_
  · exact (yields_ok (advance_apply hlexed (hfound ▸ hkind))).mpr (h hfound)
  · exact looks_peek.then fun token => yields_throw _

theorem Yields.expect {k : Unit → ParserM β} (hkind : kind ≠ .eof)
    (h : kindAt input s.pos = kind → Yields (k ⟨⟩) s.next Q) :
    Yields (expect input kind >>= k) s Q :=
  yields_bind.mpr (yields_expect hlexed hkind h)

theorem expectIdent_takes : TakesOperand input (expectIdent input) := by
  intro s
  rw [expectIdent, yields_bind, yields_peek, yields_ite]
  refine ⟨fun hident => ?_, fun _ => ?_⟩
  · have hkind : kindAt input s.pos = .ident := hident
    refine Yields.advance hlexed (by rw [hkind]; decide) ((yields_pure _).mpr ?_)
    exact Operand.next (by rw [hkind]; rfl) (by rw [hkind]; rfl)
  · rw [yields_ite]
    refine ⟨fun hentry => ?_, fun _ => yields_throw _⟩
    have hkind : kindAt input s.pos = .entryPoint := hentry
    refine Yields.advance hlexed (by rw [hkind]; decide) ((yields_pure _).mpr ?_)
    exact Operand.next (by rw [hkind]; rfl) (by rw [hkind]; rfl)

omit hlexed in
theorem rejectGluedNameSuffix_yields (name : String) (span : Span) :
    Yields (rejectGluedNameSuffix input name span) s fun _ s' => s' = s := by
  rw [rejectGluedNameSuffix, yields_bind, yields_peek, yields_ite]
  refine ⟨fun _ => (yields_pure _).mpr rfl, fun _ => ?_⟩
  exact looks_tokensAhead.then fun _ => yields_throw _

theorem expectDefinitionName_takes : TakesOperand input (expectDefinitionName input) := by
  intro s
  refine Yields.bind (expectIdent_takes hlexed s) fun name s₁ h₁ => ?_
  refine looks_previousSpan.then fun span => ?_
  refine Yields.bind (rejectGluedNameSuffix_yields name span) fun _ s₂ h₂ => ?_
  rw [yields_pure, h₂]
  exact h₁

theorem plainStringLiteral_takes {chunks : List StrChunk} (span : Span) (code : ParseError.Code)
    (message : String) (hkind : kindAt input s.pos = .string chunks) :
    Yields (plainStringLiteral input chunks span code message) s fun _ s' =>
      Operand input s s' := by
  have hnext : Operand input s s.next := Operand.next (by rw [hkind]; rfl) (by rw [hkind]; rfl)
  refine Yields.advance hlexed (by rw [hkind]; exact TokenKind.noConfusion) ?_
  split
  · exact (yields_pure _).mpr hnext
  · exact yields_throw _

end Lexed

/-! ### Flags -/

theorem withBareMatchForbidden_takes {rule : ParserM α} (flag : Bool)
    (h : TakesOperand input rule) : TakesOperand input (withBareMatchForbidden flag rule) := by
  intro s a s' hrun
  rw [withBareMatchForbidden] at hrun
  cases hrule : rule { s with bareMatchForbidden := flag } with
  | error e t =>
    rw [hrule] at hrun
    cases hrun
  | ok b t =>
    rw [hrule] at hrun
    obtain ⟨rfl, rfl⟩ := EStateM.Result.ok.inj hrun
    exact h { s with bareMatchForbidden := flag } b t hrule

theorem withSuppressLambda_takes {rule : ParserM α} (flag : Bool)
    (h : TakesOperand input rule) : TakesOperand input (withSuppressLambda flag rule) := by
  intro s a s' hrun
  rw [withSuppressLambda] at hrun
  cases hrule : rule { s with suppressLambda := flag } with
  | error e t =>
    rw [hrule] at hrun
    cases hrun
  | ok b t =>
    rw [hrule] at hrun
    obtain ⟨rfl, rfl⟩ := EStateM.Result.ok.inj hrun
    exact h { s with suppressLambda := flag } b t hrule

theorem nestingTooDeep_yields {Q : α → Parser → Prop} : Yields (nestingTooDeep input) s Q :=
  looks_currentSpan.then fun _ => yields_throw _

theorem TakesOperand.takes {rule : ParserM α} (h : TakesOperand input rule) : Takes input rule :=
  fun s => (h s).mono fun _ _ h => h.1

/-! ### Loops -/

theorem takes_pure (a : α) : Takes input (pure a : ParserM α) := fun s =>
  (yields_pure a).mpr (.refl s)

/-- Every round takes a phrase, so the loop takes one. -/
theorem takes_loop {round : α → ParserM (Option α)} (h : ∀ a, Takes input (round a)) (a : α) :
    Takes input (loop input round a) := fun s =>
  yields_iterate (I := fun _ s' => Consumed input s s') (.refl s) fun a s₁ h₁ =>
    (h a s₁).mono fun _ _ h₂ => h₁.trans h₂

/-- From an operand, rounds that take operands take one. -/
theorem operand_loop {round : α → ParserM (Option α)} {s₀ : Parser} (h₀ : Operand input s₀ s)
    (h : ∀ a s₁, Operand input s₀ s₁ →
      Yields (round a) s₁ fun _ s' => s' = s₁ ∨ Operand input s₁ s') (a : α) :
    Yields (loop input round a) s fun _ s' => Operand input s₀ s' :=
  yields_iterate (I := fun _ s' => Operand input s₀ s') h₀ fun a s₁ h₁ =>
    (h a s₁ h₁).mono fun _ s' h₂ => by
      obtain rfl | hoperand := h₂
      · exact h₁
      · exact Operand.trans h₁.1 hoperand

section Lexed

variable (hlexed : Lexed input)
include hlexed

/-- Another element, if a comma stands before it. -/
theorem takes_commaRound {parseOne : ParserM α} {more : α → ParserM (Option β)}
    (h : Takes input parseOne) (hmore : ∀ a, Takes input (more a)) :
    Takes input (do
      if ← check input .comma then
        advance input
        let a ← parseOne
        more a
      else return none) := by
  intro s
  refine Yields.ifCheck (fun hkind => ?_) fun _ => (yields_pure _).mpr (.refl s)
  have hcomma : Consumed input s s.next := .next (by rw [hkind]; rfl)
  refine Yields.advance hlexed (by rw [hkind]; decide) ?_
  refine Yields.bind (h s.next) fun a s₁ h₁ => ?_
  exact (hmore a s₁).mono fun _ _ h₂ => (hcomma.trans h₁).trans h₂

theorem parseCommaSeparated_takes {parseOne : ParserM α} (close : TokenKind)
    (h : Takes input parseOne) : Takes input (parseCommaSeparated input close parseOne) := by
  intro s
  refine Yields.ifCheck (fun _ => (yields_pure _).mpr (.refl s)) fun _ => ?_
  refine Yields.bind (h s) fun first s₁ h₁ => ?_
  refine (takes_loop (fun items => ?_) [first] s₁).mono fun _ _ h₂ => h₁.trans h₂
  exact takes_commaRound hlexed h fun item => takes_pure _

/-- Elements, and the delimiter behind them. -/
theorem Yields.closedBy {m : ParserM α} {closer : TokenKind} {k : α → ParserM β}
    (hcloser : closer ≠ .eof) (h : Takes input m)
    (hk : ∀ a s', ClosedBy input closer s s' → Yields (k a) s' Q) :
    Yields (m >>= fun a => Parser.expect input closer >>= fun _ => k a) s Q := by
  refine Yields.bind (h s) fun a s₁ h₁ => ?_
  refine Yields.expect hlexed hcloser fun hkind => ?_
  exact hk a s₁.next ⟨s₁, h₁, hkind, rfl, rfl⟩

end Lexed

/-! ### Qualified names -/

section Chains

/-- A member of a chain that is a primitive has its `@` in a token of its own. -/
def memberTokens (member : String) : Nat := if member.toList.head? = some '@' then 2 else 1

theorem dottedChain_take {tokens : List Token}
    (hnames : ∀ token ∈ tokens, token.kind = .ident → token.text.toList.head? ≠ some '@') {n : Nat}
    (hn : n < (dottedChain tokens).length) {count : Nat}
    (hcount : count = 2 * n + 1 + memberTokens ((dottedChain tokens).getD n "")) :
    count ≤ tokens.length ∧ (∀ token ∈ tokens.take count, isPlain token.kind = true) ∧
      (tokens.take count).getLast?.map Token.kind = some .ident := by
  fun_induction dottedChain tokens generalizing n count with
  | case1 dot segment rest hdot hsegment ih =>
    have hsegmentName : segment.text.toList.head? ≠ some '@' :=
      hnames segment (List.mem_cons_of_mem _ List.mem_cons_self) hsegment.1
    obtain _ | n := n
    · have hone : memberTokens segment.text = 1 := if_neg hsegmentName
      obtain rfl : count = 2 := by
        rw [hcount]
        show 2 * 0 + 1 + memberTokens segment.text = 2
        rw [hone]
      refine ⟨Nat.le_add_left 2 rest.length, ?_, ?_⟩
      · intro token htoken
        obtain rfl | htoken := List.mem_cons.mp htoken
        · rw [hdot.1]
          rfl
        · obtain rfl := List.mem_singleton.mp htoken
          rw [hsegment.1]
          rfl
      · show some segment.kind = some .ident
        rw [hsegment.1]
    · obtain ⟨hle, hplain, hlast⟩ := ih (fun token htoken => hnames token
        (List.mem_cons_of_mem _ (List.mem_cons_of_mem _ htoken)))
        (Nat.lt_of_succ_lt_succ hn) rfl
      obtain rfl : count = 2 * n + 1 + memberTokens ((dottedChain rest).getD n "") + 1 + 1 := by
        rw [hcount, List.getD_cons_succ]
        omega
      refine ⟨Nat.succ_le_succ (Nat.succ_le_succ hle), ?_, ?_⟩
      · intro token htoken
        obtain rfl | htoken := List.mem_cons.mp htoken
        · rw [hdot.1]
          rfl
        · obtain rfl | htoken := List.mem_cons.mp htoken
          · rw [hsegment.1]
            rfl
          · exact hplain token htoken
      · rw [List.take_succ_cons, List.take_succ_cons]
        cases htake : rest.take (2 * n + 1 + memberTokens ((dottedChain rest).getD n "")) with
        | nil =>
          rw [htake] at hlast
          cases hlast
        | cons first more =>
          rw [htake] at hlast
          rw [List.getLast?_cons_cons, List.getLast?_cons_cons]
          exact hlast
  | case2 dot segment hdot hnot hat primitive rest hprimitive =>
    obtain rfl : n = 0 := Nat.lt_one_iff.mp hn
    have htwo : memberTokens ("@" ++ primitive.text) = 2 := by
      rw [memberTokens, String.toList_append]
      rfl
    obtain rfl : count = 3 := by
      rw [hcount]
      show 2 * 0 + 1 + memberTokens ("@" ++ primitive.text) = 3
      rw [htwo]
    refine ⟨Nat.le_add_left 3 rest.length, ?_, ?_⟩
    · intro token htoken
      obtain rfl | htoken := List.mem_cons.mp htoken
      · rw [hdot.1]
        rfl
      · obtain rfl | htoken := List.mem_cons.mp htoken
        · rw [hat.1]
          rfl
        · obtain rfl := List.mem_singleton.mp htoken
          rw [hprimitive.1]
          rfl
    · show some primitive.kind = some .ident
      rw [hprimitive.1]
  | case3 => exact absurd hn (Nat.not_lt_zero n)
  | case4 => exact absurd hn (Nat.not_lt_zero n)
  | case5 => exact absurd hn (Nat.not_lt_zero n)
  | case6 => exact absurd hn (Nat.not_lt_zero n)
  | case7 => exact absurd hn (Nat.not_lt_zero n)

theorem resolveChain_eq_some {modulePaths : List (String × String)} {segments : List String}
    {canonical member : String} {prefixLen : Nat}
    (h : resolveChain modulePaths segments = some (canonical, member, prefixLen)) :
    0 < prefixLen ∧ prefixLen < segments.length ∧ member = segments.getD prefixLen "" := by
  obtain ⟨found, hfound, h⟩ := List.exists_of_findSome?_eq_some h
  obtain ⟨value, -, h⟩ := Option.map_eq_some_iff.mp h
  obtain ⟨-, rfl, rfl⟩ := Prod.mk.inj h |>.imp_right Prod.mk.inj
  rw [List.mem_reverse, List.mem_range'_1] at hfound
  exact ⟨hfound.1, by omega, rfl⟩

end Chains

section Lexed

variable (hlexed : Lexed input)
include hlexed

theorem advanceBy_yields {n : Nat} (h : ∀ j < n, isPlain (kindAt input (s.pos + j)) = true) :
    Yields (advanceBy input n) s fun _ s' => s'.pos = s.pos + n ∧ Consumed input s s' := by
  induction n generalizing s with
  | zero => exact (yields_pure _).mpr ⟨rfl, .refl s⟩
  | succ n ih =>
    have hplain : isPlain (kindAt input s.pos) = true := h 0 (Nat.succ_pos n)
    refine Yields.advance hlexed (fun heof => ?_) ?_
    · rw [heof] at hplain
      cases hplain
    · refine (ih fun j hj => ?_).mono fun _ s' h' => ⟨?_, (Consumed.next hplain).trans h'.2⟩
      · have hplace : s.pos + 1 + j = s.pos + (j + 1) := by omega
        show isPlain (kindAt input (s.pos + 1 + j)) = true
        rw [hplace]
        exact h (j + 1) (Nat.succ_lt_succ hj)
      · have hpos : s'.pos = s.pos + 1 + n := h'.1
        omega

omit hlexed in
theorem tokenAt_drop {i j : Nat} (h : j < (input.tokens.drop i).length) :
    tokenAt input (i + j) = (input.tokens.drop i)[j] := by
  rw [List.length_drop] at h
  rw [List.getElem_drop, tokenAt, List.getD_eq_getElem _ _ (by omega)]

/-- The tokens of a qualified name. -/
theorem chain_plain {modulePaths : List (String × String)} {i : Nat} {canonical member : String}
    {prefixLen : Nat} (h : resolveChain modulePaths
      (dottedChainAtCursor (input.tokens.drop i)) = some (canonical, member, prefixLen))
    {count : Nat} (hcount : count = 2 * prefixLen + memberTokens member) :
    (∀ j < count, isPlain (kindAt input (i + j)) = true) ∧
      kindBefore input (i + count) = .ident := by
  obtain ⟨hpos, hlt, hmember⟩ := resolveChain_eq_some h
  cases htokens : input.tokens.drop i with
  | nil =>
    rw [htokens] at hlt
    exact absurd hlt (Nat.not_lt_zero _)
  | cons token rest =>
    rw [htokens, dottedChainAtCursor] at hlt hmember
    by_cases hident : token.kind = .ident
    · rw [if_pos hident] at hlt hmember
      obtain ⟨n, rfl⟩ : ∃ n, prefixLen = n + 1 := ⟨prefixLen - 1, by omega⟩
      rw [List.length_cons, Nat.add_lt_add_iff_right] at hlt
      have hrest : ∀ other ∈ rest, other ∈ input.tokens := fun other hother =>
        List.mem_of_mem_drop (htokens ▸ List.mem_cons_of_mem token hother)
      obtain ⟨hle, hplain, hlast⟩ := dottedChain_take
        (fun other hother => hlexed.names other (hrest other hother)) hlt rfl
      rw [List.getD_cons_succ] at hmember
      rw [← hmember] at hle hplain hlast
      have hkinds : ∀ j, (hj : j < rest.length) →
          kindAt input (i + (j + 1)) = (rest[j]).kind := by
        intro j hj
        rw [kindAt, tokenAt_drop (by rw [htokens]; exact Nat.succ_lt_succ hj)]
        simp only [htokens, List.getElem_cons_succ]
      have hlong : count = 2 * n + 1 + memberTokens member + 1 := by omega
      constructor
      · intro j hj
        obtain _ | j := j
        · have hfirst : kindAt input (i + 0) = token.kind := by
            rw [kindAt, tokenAt_drop (by rw [htokens]; exact Nat.succ_pos _)]
            simp only [htokens, List.getElem_cons_zero]
          rw [hfirst, hident]
          rfl
        · have hj' : j < rest.length := by omega
          rw [hkinds j hj']
          refine hplain _ (List.mem_iff_getElem.mpr ⟨j, ?_, List.getElem_take⟩)
          rw [List.length_take]
          omega
      · obtain ⟨m, hm⟩ : ∃ m, 2 * n + 1 + memberTokens member = m + 1 :=
          ⟨2 * n + memberTokens member, by omega⟩
        rw [hm] at hle hlast
        have hend : i + count = i + (m + 1) + 1 := by omega
        rw [hend, kindBefore_succ, hkinds m hle]
        rw [List.getLast?_take, if_neg (Nat.succ_ne_zero m), Nat.add_sub_cancel,
          List.getElem?_eq_getElem hle] at hlast
        exact Option.some.inj hlast
    · rw [if_neg hident] at hlt
      exact absurd hlt (Nat.not_lt_zero _)

theorem tryParseModuleMember_takes :
    Yields (tryParseModuleMember input) s fun found s' =>
      (found = none → s' = s) ∧ (found ≠ none → Operand input s s') := by
  have hlook : Looks (atPossibleModuleChain input) := fun _ => ⟨_, rfl⟩
  refine hlook.then fun possible => ?_
  rw [yields_ite]
  have hsame : (none : Option (String × Span)) = none → s = s := fun _ => rfl
  refine ⟨fun _ => ?_, fun _ => (yields_pure _).mpr ⟨hsame, fun h => absurd rfl h⟩⟩
  refine yields_bind.mpr ((yields_ok (a := input.tokens.drop s.pos) rfl).mpr ?_)
  refine yields_bind.mpr (yields_get.mpr ?_)
  cases hchain : resolveChain s.modulePaths (dottedChainAtCursor (input.tokens.drop s.pos)) with
  | none => exact (yields_pure _).mpr ⟨hsame, fun h => absurd rfl h⟩
  | some found =>
    obtain ⟨canonical, member, prefixLen⟩ := found
    refine looks_currentSpan.then fun span => ?_
    obtain ⟨hplain, hlast⟩ := chain_plain hlexed hchain rfl
    refine Yields.bind (advanceBy_yields hlexed hplain) fun _ s₁ h₁ => ?_
    refine (looks_spanFrom _).then fun _ => (yields_pure _).mpr
      ⟨fun h => absurd h (Option.some_ne_none _), fun _ => ⟨h₁.2, ?_, ?_⟩⟩
    · have hpos := h₁.1
      have hone := (resolveChain_eq_some hchain).1
      omega
    · have hend : kindBefore input s₁.pos = .ident := by
        rw [h₁.1]
        exact hlast
      rw [hend]
      rfl

theorem parseNameOrQualified_takes (hkind : kindAt input s.pos = .ident) :
    Yields (parseNameOrQualified input) s fun _ s' => Operand input s s' := by
  refine Yields.bind (tryParseModuleMember_takes hlexed) fun found s₁ h₁ => ?_
  cases found with
  | some found => exact (yields_pure _).mpr (h₁.2 (Option.some_ne_none found))
  | none =>
    obtain rfl := h₁.1 rfl
    refine looks_peek.then fun token => ?_
    refine Yields.advance hlexed (by rw [hkind]; decide) ((yields_pure _).mpr ?_)
    exact Operand.next (by rw [hkind]; rfl) (by rw [hkind]; rfl)

end Lexed

end Quilon.Parser
