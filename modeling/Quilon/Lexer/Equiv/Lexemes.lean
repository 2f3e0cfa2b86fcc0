import Quilon.Lexer.Equiv.Segments

/-!
# The lexemes of a text

The lexemes of a text that lexes are the text, one after the other (`lexemesFrom_split`), and its
tokens lie where their lexemes do (`exists_lexeme`).
-/

namespace Quilon.Lexer

open Text (isBidiControl)

/-- The characters of lexemes. -/
def lexemesText (lexemes : List Lexeme) : List Char := lexemes.flatMap Lexeme.text

/-- A lexeme with the lexemes around it. -/
structure Splits (xid : Xid) (offset : Nat) (cs : List Char) (before : List Lexeme)
    (lexeme : Lexeme) (after : List Lexeme) : Prop where
  text : cs = lexemesText before ++ (lexeme.text ++ lexemesText after)
  next : ∃ c n, nextLexeme xid (offset + extent Char.utf8Size (lexemesText before)) c
      (lexeme.text.tail ++ lexemesText after) = .ok (lexeme.kind, n) ∧
    lexeme.text = c :: (lexeme.text.tail ++ lexemesText after).take n

theorem lexemesFrom_text {xid : Xid} {offset : Nat} {cs : List Char} {lexemes : List Lexeme}
    (h : lexemesFrom xid offset cs = .ok lexemes) : cs = lexemesText lexemes := by
  fun_induction lexemesFrom xid offset cs generalizing lexemes with
  | case1 offset =>
    obtain rfl := Except.ok.inj h
    rfl
  | case2 offset c cs ih =>
    obtain ⟨⟨kind, n⟩, -, h⟩ := bind_ok h
    obtain ⟨rest, hrest, h⟩ := bind_ok h
    obtain rfl := Except.ok.inj h
    show c :: cs = (c :: cs.take n) ++ lexemesText rest
    rw [← ih n hrest, List.cons_append, List.take_append_drop]

theorem lexemesFrom_cons {xid : Xid} {offset n : Nat} {c : Char} {cs : List Char}
    {kind : LexemeKind} {rest : List Lexeme} (hnext : nextLexeme xid offset c cs = .ok (kind, n))
    (hrest : lexemesFrom xid (offset + extent Char.utf8Size (c :: cs.take n)) (cs.drop n) =
      .ok rest) :
    lexemesFrom xid offset (c :: cs) = .ok (⟨kind, c :: cs.take n⟩ :: rest) := by
  rw [lexemesFrom, hnext]
  dsimp only [bind, Except.bind]
  rw [hrest]
  rfl

theorem lexemesFrom_split {xid : Xid} {offset : Nat} {cs : List Char}
    {before after : List Lexeme} {lexeme : Lexeme}
    (h : lexemesFrom xid offset cs = .ok (before ++ lexeme :: after)) :
    Splits xid offset cs before lexeme after := by
  refine ⟨by rw [lexemesFrom_text h, lexemesText, List.flatMap_append]; rfl, ?_⟩
  fun_induction lexemesFrom xid offset cs generalizing before with
  | case1 offset =>
    have hlength := congrArg List.length (Except.ok.inj h)
    rw [List.length_append] at hlength
    exact absurd hlength (by simp)
  | case2 offset c cs ih =>
    obtain ⟨⟨kind, n⟩, hnext, h⟩ := bind_ok h
    obtain ⟨rest, hrest, h⟩ := bind_ok h
    cases before with
    | nil =>
      obtain ⟨rfl, rfl⟩ := List.cons.inj (Except.ok.inj h)
      have htext : cs = cs.take n ++ lexemesText rest := by
        rw [← lexemesFrom_text hrest, List.take_append_drop]
      refine ⟨c, n, ?_, ?_⟩
      · rw [List.tail_cons, ← htext]
        exact hnext
      · rw [List.tail_cons, ← htext]
    | cons first before =>
      obtain ⟨rfl, rfl⟩ := List.cons.inj (Except.ok.inj h)
      obtain ⟨d, m, hfound, htext⟩ := ih n hrest
      refine ⟨d, m, ?_, htext⟩
      rw [lexemesText, List.flatMap_cons, extent_append, ← Nat.add_assoc]
      exact hfound

/-! ### Tokens -/

theorem mem_reclassifyGt {tokens : List Token} {token : Token} (h : token ∈ reclassifyGt tokens) :
    ∃ first ∈ tokens, first.span = token.span ∧ first.text = token.text ∧
      (first.kind = token.kind ∨ first.kind = .blockClose ∧ token.kind = .gt) := by
  induction tokens with
  | nil => cases h
  | cons first tokens ih =>
    rw [reclassifyGt] at h
    obtain hhead | htail := List.mem_cons.mp h
    · refine ⟨first, List.mem_cons_self, ?_⟩
      split at hhead
      case isTrue hgt =>
        obtain rfl := hhead
        exact ⟨rfl, rfl, Or.inr ⟨hgt.1, rfl⟩⟩
      case isFalse =>
        obtain rfl := hhead
        exact ⟨rfl, rfl, Or.inl rfl⟩
    · obtain ⟨found, hfound, h⟩ := ih htail
      exact ⟨found, List.mem_cons_of_mem _ hfound, h⟩

/-- A token is a lexeme at its place, or the end. -/
theorem mem_tokensOf {file : Nat} {before : List Char} {lexemes : List Lexeme} {token : Token}
    (h : token ∈ tokensOf file before lexemes) :
    token.kind = .eof ∧ token.span.start = token.span.stop ∨
      ∃ front lexeme back, lexemes = front ++ lexeme :: back ∧
        lexeme.kind = .token token.kind ∧
        token.span.start = extent Char.utf8Size before + extent Char.utf8Size (lexemesText front) ∧
        token.span.stop = token.span.start + extent Char.utf8Size lexeme.text := by
  induction lexemes generalizing before with
  | nil =>
    obtain rfl := List.mem_singleton.mp h
    exact Or.inl ⟨rfl, rfl⟩
  | cons lexeme lexemes ih =>
    have hlater : token ∈ tokensOf file (lexeme.text.reverse ++ before) lexemes →
        token.kind = .eof ∧ token.span.start = token.span.stop ∨
          ∃ front found back, lexeme :: lexemes = front ++ found :: back ∧
            found.kind = .token token.kind ∧
            token.span.start =
              extent Char.utf8Size before + extent Char.utf8Size (lexemesText front) ∧
            token.span.stop = token.span.start + extent Char.utf8Size found.text := by
      intro hrest
      obtain heof | ⟨front, found, back, rfl, hkind, hstart, hstop⟩ := ih hrest
      · exact Or.inl heof
      · refine Or.inr ⟨lexeme :: front, found, back, rfl, hkind, ?_, hstop⟩
        rw [hstart, lexemesText, lexemesText, List.flatMap_cons, extent_append, extent_append,
          extent_reverse]
        omega
    obtain ⟨kind, text⟩ := lexeme
    cases kind with
    | blank => exact hlater h
    | comment => exact hlater h
    | token kind =>
      obtain rfl | hrest := List.mem_cons.mp h
      · exact Or.inr ⟨[], ⟨.token kind, text⟩, lexemes, rfl, rfl, rfl, rfl⟩
      · exact hlater hrest

theorem exists_lexeme {xid : Xid} {source : String} {file : Nat} {tokens : List Token}
    (h : tokenizeInFile xid source file = .ok tokens) {token : Token} (htoken : token ∈ tokens) :
    ∃ lexemes, lexemesFrom xid 0 source.toList = .ok lexemes ∧
      (token.kind = .eof ∧ token.span.start = token.span.stop ∨
        ∃ front lexeme back, lexemes = front ++ lexeme :: back ∧
          (lexeme.kind = .token token.kind ∨
            lexeme.kind = .token .blockClose ∧ token.kind = .gt) ∧
          token.span.start = extent Char.utf8Size (lexemesText front) ∧
          token.span.stop = token.span.start + extent Char.utf8Size lexeme.text) := by
  obtain ⟨lexemes, hlexemes, h⟩ := bind_ok h
  obtain rfl := Except.ok.inj h
  refine ⟨lexemes, hlexemes, ?_⟩
  obtain ⟨first, hfirst, hspan, -, hkind⟩ := mem_reclassifyGt htoken
  rw [← hspan]
  obtain ⟨heof, hempty⟩ | ⟨front, lexeme, back, hsplit, hlexeme, hstart, hstop⟩ :=
    mem_tokensOf hfirst
  · refine Or.inl ⟨?_, hempty⟩
    obtain hsame | ⟨hclose, -⟩ := hkind
    · rw [← hsame, heof]
    · rw [heof] at hclose
      cases hclose
  · refine Or.inr ⟨front, lexeme, back, hsplit, ?_, ?_, hstop⟩
    · obtain hsame | ⟨hclose, hgt⟩ := hkind
      · exact Or.inl (by rw [hlexeme, hsame])
      · exact Or.inr ⟨by rw [hlexeme, hclose], hgt⟩
    · rw [hstart, extent_nil, Nat.zero_add]

theorem mem_reclassifyGt_of_mem {tokens : List Token} {token : Token} (h : token ∈ tokens)
    (hkind : token.kind ≠ .blockClose) : token ∈ reclassifyGt tokens := by
  induction tokens with
  | nil => cases h
  | cons first tokens ih =>
    rw [reclassifyGt]
    obtain rfl | hrest := List.mem_cons.mp h
    · rw [if_neg fun hgt => hkind hgt.1]
      exact List.mem_cons_self
    · exact List.mem_cons_of_mem _ (ih hrest)

theorem exists_mem_tokensOf (file : Nat) {lexemes : List Lexeme} {lexeme : Lexeme}
    {kind : TokenKind} (h : lexeme ∈ lexemes) (hkind : lexeme.kind = .token kind)
    (before : List Char) : ∃ token ∈ tokensOf file before lexemes, token.kind = kind := by
  induction lexemes generalizing before with
  | nil => cases h
  | cons first lexemes ih =>
    obtain ⟨firstKind, text⟩ := first
    obtain rfl | hrest := List.mem_cons.mp h
    · obtain rfl := hkind
      exact ⟨_, List.mem_cons_self, rfl⟩
    · obtain ⟨token, htoken, hsame⟩ := ih hrest (text.reverse ++ before)
      cases firstKind with
      | blank => exact ⟨token, htoken, hsame⟩
      | comment => exact ⟨token, htoken, hsame⟩
      | token firstKind => exact ⟨token, List.mem_cons_of_mem _ htoken, hsame⟩

/-- A lexeme that is a token is among the tokens. -/
theorem exists_token {xid : Xid} {source : String} {file : Nat} {tokens : List Token}
    {lexemes : List Lexeme} (h : tokenizeInFile xid source file = .ok tokens)
    (hlexemes : lexemesFrom xid 0 source.toList = .ok lexemes) {lexeme : Lexeme} {kind : TokenKind}
    (hlexeme : lexeme ∈ lexemes) (hkind : lexeme.kind = .token kind) (hclose : kind ≠ .blockClose) :
    ∃ token ∈ tokens, token.kind = kind := by
  rw [tokenizeInFile, hlexemes] at h
  obtain rfl := Except.ok.inj h
  obtain ⟨token, htoken, rfl⟩ := exists_mem_tokensOf file hlexeme hkind []
  exact ⟨token, mem_reclassifyGt_of_mem htoken hclose, rfl⟩

end Quilon.Lexer
