import Quilon.Lexer.Equiv.Controls
import Quilon.Lexer.Equiv.Lexemes

/-!
# The tokens of a text

Main results:
* `tokenize_ends`: the last token is the end of the file, and no other is;
* `tokenize_spelled`: the first character of a token tells a name from what is none;
* `tokenize_lies`: a token has the text at its place;
* `tokenize_sorted`: the tokens stand one behind the other.
-/

namespace Quilon.Lexer

variable {xid : Xid}

/-! ### What a token is spelled with -/

/-- What the text of a token tells of its kind. -/
structure Spelled (kind : TokenKind) (text : List Char) : Prop where
  inside : kind ≠ .eof
  nonempty : text ≠ []
  name : kind = .ident → text.head? ≠ some '@'
  other : kind ≠ .ident → text.head?.any (fun c => c.toNat < 128 && !c.isUpper) = true
  line : (∃ value, kind = .number value) ∨ (∃ chunks, kind = .string chunks) ∨ '\n' ∉ text

theorem lexSymbol_kind {c : Char} {next : Option Char} {kind : TokenKind} {n : Nat}
    (h : lexSymbol c next = some (kind, n)) :
    kind ≠ .eof ∧ kind ≠ .ident ∧ (c.toNat < 128 && !c.isUpper) = true := by
  revert h
  fun_cases lexSymbol c next with
  | case41 =>
    intro h
    cases h
  | _ =>
    intro h
    obtain ⟨rfl, -⟩ := Prod.mk.inj (Option.some.inj h)
    exact ⟨TokenKind.noConfusion, TokenKind.noConfusion, by decide⟩

theorem newline_not_continue : xid.continue_ '\n' = false := by
  rw [xid.continue_ascii '\n' (by decide)]
  decide

theorem lexWord_kind {c : Char} {cs : List Char} {kind : TokenKind} {n : Nat}
    (hstart : (c = '_' || xid.start c) = true) (h : lexWord xid c cs = (kind, n)) :
    Spelled kind (c :: cs.take n) := by
  obtain ⟨hkind, rfl⟩ := Prod.mk.inj h
  have hat : c ≠ '@' := by
    rintro rfl
    rw [xid.start_ascii '@' (by decide)] at hstart
    exact absurd hstart (by decide)
  have hline : '\n' ∉ c :: cs.take (cs.takeWhile xid.continue_).length := by
    intro hd
    rw [take_length_takeWhile] at hd
    obtain hc | hrest := List.mem_cons.mp hd
    · rw [← hc, xid.start_ascii '\n' (by decide)] at hstart
      exact absurd hstart (by decide)
    · have hcontinue : xid.continue_ '\n' = true := List.mem_takeWhile_imp hrest
      rw [newline_not_continue] at hcontinue
      cases hcontinue
  have hkinds : kind = .ident ∨ kind ≠ .eof ∧ kind ≠ .ident ∧
      (c.toNat < 128 && !c.isUpper) = true := by
    rw [← hkind]
    split
    case isTrue hword =>
      obtain rfl := (List.cons.inj hword).1
      exact Or.inr ⟨TokenKind.noConfusion, TokenKind.noConfusion, by decide⟩
    split
    case isTrue hword =>
      obtain rfl := (List.cons.inj hword).1
      exact Or.inr ⟨TokenKind.noConfusion, TokenKind.noConfusion, by decide⟩
    split
    case isTrue hword =>
      obtain rfl := (List.cons.inj hword).1
      exact Or.inr ⟨TokenKind.noConfusion, TokenKind.noConfusion, by decide⟩
    exact Or.inl rfl
  obtain rfl | ⟨heof, hident, hc⟩ := hkinds
  · exact ⟨TokenKind.noConfusion, List.cons_ne_nil _ _, fun _ h => hat (Option.some.inj h),
      fun h => absurd rfl h, Or.inr (Or.inr hline)⟩
  · exact ⟨heof, List.cons_ne_nil _ _, fun h => absurd h hident, fun _ => hc,
      Or.inr (Or.inr hline)⟩

theorem digit_kind {c : Char} (h : isDigit c = true) : (c.toNat < 128 && !c.isUpper) = true := by
  have hsmall : decide (c.toNat < 128) = true := decide_eq_true (ascii_of_isDigit h)
  rw [isDigit, Bool.and_eq_true, decide_eq_true_eq, decide_eq_true_eq] at h
  have hle : c.toNat ≤ 57 := h.2
  have hupper : c.isUpper = false := decide_eq_false fun hge => by
    have hge' : 65 ≤ c.toNat := hge.1
    omega
  rw [hsmall, hupper]
  rfl

theorem spelled_of_nextLexeme {offset n : Nat} {kind : TokenKind} {c : Char} {cs : List Char}
    (h : nextLexeme xid offset c cs = .ok (.token kind, n)) : Spelled kind (c :: cs.take n) := by
  rw [nextLexeme] at h
  by_cases hblank : isBlank c = true
  · rw [if_pos hblank] at h
    cases h
  rw [if_neg hblank] at h
  by_cases hcomment : c = '~'
  · rw [if_pos hcomment] at h
    obtain ⟨⟨⟩, -, h⟩ := bind_ok h
    cases h
  rw [if_neg hcomment] at h
  by_cases hcontrol : Text.isBidiControl c = true
  · rw [if_pos hcontrol] at h
    cases h
  rw [if_neg hcontrol] at h
  by_cases hdigit : isDigit c = true
  · rw [if_pos hdigit] at h
    obtain ⟨⟨number, m⟩, hnumber, h⟩ := bind_ok h
    obtain ⟨⟨value, rfl⟩, -⟩ := lexNumber_spec xid hnumber
    obtain ⟨hkind, rfl⟩ := Prod.mk.inj (Except.ok.inj h)
    obtain rfl := LexemeKind.token.inj hkind
    exact ⟨TokenKind.noConfusion, List.cons_ne_nil _ _, TokenKind.noConfusion,
      fun _ => digit_kind hdigit, Or.inl ⟨value, rfl⟩⟩
  rw [if_neg hdigit] at h
  by_cases hquote : c = '"'
  · rw [if_pos hquote] at h
    obtain ⟨⟨chunks, m⟩, -, h⟩ := bind_ok h
    obtain ⟨hkind, rfl⟩ := Prod.mk.inj (Except.ok.inj h)
    obtain rfl := LexemeKind.token.inj hkind
    rw [hquote]
    exact ⟨TokenKind.noConfusion, List.cons_ne_nil _ _, TokenKind.noConfusion, fun _ => rfl,
      Or.inr (Or.inl ⟨chunks, rfl⟩)⟩
  rw [if_neg hquote] at h
  by_cases hword : (c = '_' || xid.start c) = true
  · rw [if_pos hword] at h
    obtain ⟨hkind, rfl⟩ := Prod.mk.inj (Except.ok.inj h)
    obtain rfl := LexemeKind.token.inj hkind
    exact lexWord_kind hword rfl
  rw [if_neg hword] at h
  cases hsymbol : lexSymbol c cs.head? with
  | none =>
    rw [hsymbol] at h
    cases h
  | some symbol =>
    obtain ⟨symbol, m⟩ := symbol
    rw [hsymbol] at h
    obtain ⟨hkind, rfl⟩ := Prod.mk.inj (Except.ok.inj h)
    obtain rfl := LexemeKind.token.inj hkind
    obtain ⟨heof, hident, hc⟩ := lexSymbol_kind hsymbol
    refine ⟨heof, List.cons_ne_nil _ _, fun h => absurd h hident, fun _ => hc,
      Or.inr (Or.inr fun hmem => ?_)⟩
    have hnewline : isSymbol '\n' = false := by decide
    obtain ⟨-, hfirst, rfl | ⟨rfl, d, hd, hsecond⟩⟩ := lexSymbol_spec hsymbol
    · rw [List.take_zero, List.mem_singleton] at hmem
      rw [← hmem, hnewline] at hfirst
      cases hfirst
    · obtain ⟨cs, rfl⟩ := List.head?_eq_some_iff.mp hd
      obtain hmem | hmem := List.mem_cons.mp hmem
      · rw [← hmem, hnewline] at hfirst
        cases hfirst
      · rw [List.take_succ_cons, List.take_zero, List.mem_singleton] at hmem
        rw [← hmem, hnewline] at hsecond
        cases hsecond

theorem spelled_of_mem {offset : Nat} {cs : List Char} {lexemes : List Lexeme} {lexeme : Lexeme}
    {kind : TokenKind} (h : lexemesFrom xid offset cs = .ok lexemes) (hmem : lexeme ∈ lexemes)
    (hkind : lexeme.kind = .token kind) : Spelled kind lexeme.text := by
  obtain ⟨before, after, rfl⟩ := List.append_of_mem hmem
  obtain ⟨c, n, hnext, htext⟩ := (lexemesFrom_split h).next
  rw [hkind] at hnext
  rw [htext]
  exact spelled_of_nextLexeme hnext

/-! ### Where the tokens lie -/

/-- The token has the text at its place. -/
def Lies (source : List Char) (token : Token) : Prop :=
  ∃ front back, source = front ++ (token.text.toList ++ back) ∧
    token.span.start = extent Char.utf8Size front ∧
    token.span.stop = extent Char.utf8Size (front ++ token.text.toList)

theorem tokensOf_lies {file : Nat} {before : List Char} {lexemes : List Lexeme} {token : Token}
    (h : token ∈ tokensOf file before lexemes) :
    Lies (before.reverse ++ lexemesText lexemes) token := by
  induction lexemes generalizing before with
  | nil =>
    obtain rfl := List.mem_singleton.mp h
    refine ⟨before.reverse, [], by rw [String.toList_empty]; rfl, (extent_reverse before).symm, ?_⟩
    rw [String.toList_empty, List.append_nil]
    exact (extent_reverse before).symm
  | cons lexeme lexemes ih =>
    have htext : before.reverse ++ lexemesText (lexeme :: lexemes) =
        (lexeme.text.reverse ++ before).reverse ++ lexemesText lexemes := by
      rw [lexemesText, List.flatMap_cons, List.reverse_append, List.reverse_reverse,
        List.append_assoc]
      rfl
    rw [htext]
    obtain ⟨kind, text⟩ := lexeme
    cases kind with
    | blank => exact ih h
    | comment => exact ih h
    | token kind =>
      obtain rfl | hrest := List.mem_cons.mp h
      · refine ⟨before.reverse, lexemesText lexemes, ?_, (extent_reverse before).symm, ?_⟩
        · rw [List.reverse_append, List.reverse_reverse, List.append_assoc, String.toList_ofList]
        · rw [extent_append, extent_reverse, String.toList_ofList]
      · exact ih hrest

/-- One token ends before the next begins. -/
def Sorted (tokens : List Token) : Prop :=
  tokens.Pairwise fun token next => token.span.stop ≤ next.span.start

theorem tokensOf_sorted (file : Nat) (before : List Char) (lexemes : List Lexeme) :
    Sorted (tokensOf file before lexemes) ∧
      ∀ token ∈ tokensOf file before lexemes, extent Char.utf8Size before ≤ token.span.start := by
  induction lexemes generalizing before with
  | nil =>
    refine ⟨List.pairwise_singleton _ _, fun token htoken => ?_⟩
    obtain rfl := List.mem_singleton.mp htoken
    exact Nat.le_refl _
  | cons lexeme lexemes ih =>
    obtain ⟨hsorted, hbehind⟩ := ih (lexeme.text.reverse ++ before)
    have hextent : extent Char.utf8Size (lexeme.text.reverse ++ before) =
        extent Char.utf8Size before + extent Char.utf8Size lexeme.text := by
      rw [extent_append, extent_reverse, Nat.add_comm]
    rw [hextent] at hbehind
    have hlater : ∀ token ∈ tokensOf file (lexeme.text.reverse ++ before) lexemes,
        extent Char.utf8Size before ≤ token.span.start := fun token htoken =>
      Nat.le_trans (Nat.le_add_right _ _) (hbehind token htoken)
    obtain ⟨kind, text⟩ := lexeme
    cases kind with
    | blank => exact ⟨hsorted, hlater⟩
    | comment => exact ⟨hsorted, hlater⟩
    | token kind =>
      refine ⟨List.pairwise_cons.mpr ⟨hbehind, hsorted⟩, fun token htoken => ?_⟩
      obtain rfl | hrest := List.mem_cons.mp htoken
      · exact Nat.le_refl _
      · exact hlater token hrest

/-- The tokens of the lexemes, and the end. -/
theorem tokensOf_ends (file : Nat) (before : List Char) (lexemes : List Lexeme) :
    ∃ front last, tokensOf file before lexemes = front ++ [last] ∧ last.kind = .eof ∧
      last.text = "" ∧ ∀ token ∈ front, ∃ lexeme ∈ lexemes,
        lexeme.kind = .token token.kind ∧ token.text.toList = lexeme.text := by
  induction lexemes generalizing before with
  | nil => exact ⟨[], _, rfl, rfl, rfl, fun token htoken => absurd htoken List.not_mem_nil⟩
  | cons lexeme lexemes ih =>
    obtain ⟨front, last, hsplit, hlast, htext, hfront⟩ := ih (lexeme.text.reverse ++ before)
    have hlater : ∀ token ∈ front, ∃ found ∈ lexeme :: lexemes,
        found.kind = .token token.kind ∧ token.text.toList = found.text := fun token htoken => by
      obtain ⟨found, hfound, h⟩ := hfront token htoken
      exact ⟨found, List.mem_cons_of_mem _ hfound, h⟩
    obtain ⟨kind, text⟩ := lexeme
    cases kind with
    | blank => exact ⟨front, last, hsplit, hlast, htext, hlater⟩
    | comment => exact ⟨front, last, hsplit, hlast, htext, hlater⟩
    | token kind =>
      refine ⟨_ :: front, last, by rw [tokensOf, hsplit, List.cons_append], hlast, htext, ?_⟩
      intro token htoken
      obtain rfl | hrest := List.mem_cons.mp htoken
      · exact ⟨⟨.token kind, text⟩, List.mem_cons_self, rfl, String.toList_ofList⟩
      · exact hlater token hrest

/-! ### Comparisons told from closing blocks -/

/-- Nothing changes but that a `>` may be a comparison. -/
def Reclassified (token token' : Token) : Prop :=
  token'.span = token.span ∧ token'.text = token.text ∧
    (token'.kind = token.kind ∨ token.kind = .blockClose ∧ token'.kind = .gt)

theorem reclassified_head (token : Token) (tail : List Token) :
    ∃ token', Reclassified token token' ∧
      reclassifyGt (token :: tail) = token' :: reclassifyGt tail := by
  rw [reclassifyGt]
  split
  case isTrue h => exact ⟨{ token with kind := .gt }, ⟨rfl, rfl, Or.inr ⟨h.1, rfl⟩⟩, rfl⟩
  case isFalse => exact ⟨token, ⟨rfl, rfl, Or.inl rfl⟩, rfl⟩

theorem map_span_reclassifyGt (tokens : List Token) :
    (reclassifyGt tokens).map Token.span = tokens.map Token.span := by
  induction tokens with
  | nil => rfl
  | cons token tokens ih =>
    obtain ⟨token', hsame, heq⟩ := reclassified_head token tokens
    rw [heq, List.map_cons, List.map_cons, hsame.1, ih]

theorem reclassifyGt_ends (front : List Token) (last : Token) :
    ∃ front', reclassifyGt (front ++ [last]) = front' ++ [last] ∧
      ∀ token' ∈ front', ∃ token ∈ front, Reclassified token token' := by
  induction front with
  | nil =>
    refine ⟨[], ?_, fun token' h => absurd h List.not_mem_nil⟩
    have hnot : ¬(last.kind = .blockClose ∧
        ([] : List Token).head?.any (fun next => !next.firstOnLine && next.kind.startsOperand)) :=
      fun h => by cases h.2
    rw [List.nil_append, reclassifyGt, if_neg hnot]
    rfl
  | cons token front ih =>
    obtain ⟨front', hsplit, hfront⟩ := ih
    obtain ⟨token', hsame, heq⟩ := reclassified_head token (front ++ [last])
    refine ⟨token' :: front', by rw [List.cons_append, heq, hsplit]; rfl, fun found hfound => ?_⟩
    obtain rfl | hrest := List.mem_cons.mp hfound
    · exact ⟨token, List.mem_cons_self, hsame⟩
    · obtain ⟨token, htoken, h⟩ := hfront found hrest
      exact ⟨token, List.mem_cons_of_mem _ htoken, h⟩

theorem Spelled.reclassified {token token' : Token} (h : Reclassified token token')
    (hspelled : Spelled token.kind token.text.toList) :
    Spelled token'.kind token'.text.toList := by
  obtain ⟨-, htext, hkind | ⟨hclose, hgt⟩⟩ := h
  · rw [hkind, htext]
    exact hspelled
  · rw [hclose] at hspelled
    rw [hgt, htext]
    refine ⟨TokenKind.noConfusion, hspelled.nonempty, TokenKind.noConfusion, fun _ => ?_, ?_⟩
    · exact hspelled.other TokenKind.noConfusion
    · obtain ⟨value, h⟩ | ⟨chunks, h⟩ | h := hspelled.line
      · cases h
      · cases h
      · exact Or.inr (Or.inr h)

variable {source : String} {file : Nat} {tokens : List Token}

/-- The end of the file is the last token, and the others are spelled as their kinds are. -/
theorem tokenize_ends (h : tokenizeInFile xid source file = .ok tokens) :
    ∃ front last, tokens = front ++ [last] ∧ last.kind = .eof ∧ last.text = "" ∧
      ∀ token ∈ front, Spelled token.kind token.text.toList := by
  obtain ⟨lexemes, hlexemes, h⟩ := bind_ok h
  obtain rfl := Except.ok.inj h
  obtain ⟨front, last, hsplit, hlast, htext, hfront⟩ := tokensOf_ends file [] lexemes
  obtain ⟨front', heq, hfront'⟩ := reclassifyGt_ends front last
  refine ⟨front', last, by rw [hsplit, heq], hlast, htext, fun token' htoken' => ?_⟩
  obtain ⟨token, htoken, hsame⟩ := hfront' token' htoken'
  obtain ⟨lexeme, hlexeme, hkind, hspelling⟩ := hfront token htoken
  refine Spelled.reclassified hsame ?_
  rw [hspelling]
  exact spelled_of_mem hlexemes hlexeme hkind

theorem tokenize_lies (h : tokenizeInFile xid source file = .ok tokens) {token : Token}
    (htoken : token ∈ tokens) : Lies source.toList token := by
  obtain ⟨lexemes, hlexemes, h⟩ := bind_ok h
  obtain rfl := Except.ok.inj h
  obtain ⟨first, hfirst, hspan, htext, -⟩ := mem_reclassifyGt htoken
  obtain ⟨front, back, hsource, hstart, hstop⟩ := tokensOf_lies hfirst
  rw [← lexemesFrom_text hlexemes] at hsource
  exact ⟨front, back, by rw [← htext]; exact hsource, by rw [← hspan, hstart],
    by rw [← hspan, ← htext, hstop]⟩

theorem tokenize_sorted (h : tokenizeInFile xid source file = .ok tokens) : Sorted tokens := by
  obtain ⟨lexemes, hlexemes, h⟩ := bind_ok h
  obtain rfl := Except.ok.inj h
  have hsorted := (tokensOf_sorted file [] lexemes).1
  have hspans : ((tokensOf file [] lexemes).map Token.span).Pairwise
      fun span next => span.stop ≤ next.start := List.pairwise_map.mpr hsorted
  rw [← map_span_reclassifyGt] at hspans
  exact List.pairwise_map.mp hspans

end Quilon.Lexer
