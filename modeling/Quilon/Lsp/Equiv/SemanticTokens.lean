import Quilon.Lsp.SemanticTokens
import Quilon.Parser.Equiv.Programs

/-!
# Highlighting against the parse

Main results:
* `semanticTokens_sorted`: the highlighted tokens stand one behind the other, each once;
* `highlighting_of_parse`: of a text that parses every `<` and `>` is highlighted as what the parser
  made of it, but for a less-than behind a `}`, a block or a `^`.
-/

namespace Quilon.Lsp

open Lexer (Token TokenKind)
open Quilon.Parser (Piece useOf piecesOf AllFit endsExpression operatorOf)

/-! ### What stands before a token -/

/-- The kind before a place, if there is one. -/
def kindBehind (previous : Option TokenKind) (kinds : List TokenKind) (place : Nat) :
    Option TokenKind :=
  (kinds.take place).getLast?.or previous

theorem kindBehind_succ (previous : Option TokenKind) (kind : TokenKind) (kinds : List TokenKind)
    (place : Nat) : kindBehind previous (kind :: kinds) (place + 1) =
      kindBehind (some kind) kinds place := by
  rw [kindBehind, kindBehind, List.take_succ_cons, List.getLast?_cons]
  cases (kinds.take place).getLast? <;> rfl

theorem fits_of_allFit {previous : TokenKind} {pieces : List Piece} (h : AllFit previous pieces)
    {place : Nat} {piece : Piece} (hpiece : pieces[place]? = some piece) :
    Quilon.Parser.Fits ((kindBehind (some previous) (pieces.map Prod.fst) place).getD .eof)
      piece := by
  induction pieces generalizing previous place with
  | nil => cases hpiece
  | cons first pieces ih =>
    obtain _ | place := place
    · obtain rfl := Option.some.inj hpiece
      exact h.1
    · rw [List.map_cons, kindBehind_succ]
      exact ih h.2 hpiece

/-! ### Which tokens are highlighted -/

theorem mem_classifyTokens {names : DeclaredNames} {previous : Option TokenKind}
    {tokens : List Token} {classified : ClassifiedToken} :
    classified ∈ classifyTokens names previous tokens ↔
      ∃ place token, tokens[place]? = some token ∧ classified.span = token.span ∧
        classifyToken names (kindBehind previous (tokens.map Token.kind) place) token =
          some classified.kind := by
  induction tokens generalizing previous with
  | nil =>
    refine ⟨fun h => absurd h List.not_mem_nil, ?_⟩
    rintro ⟨place, token, h, -⟩
    cases h
  | cons first tokens ih =>
    rw [classifyTokens, List.mem_append, ih, Option.mem_toList, Option.map_eq_some_iff]
    constructor
    · rintro (⟨kind, hkind, rfl⟩ | ⟨place, token, htoken, hspan, hkind⟩)
      · exact ⟨0, first, rfl, rfl, hkind⟩
      · refine ⟨place + 1, token, htoken, hspan, ?_⟩
        rw [List.map_cons, kindBehind_succ]
        exact hkind
    · rintro ⟨place, token, htoken, hspan, hkind⟩
      obtain _ | place := place
      · obtain rfl := Option.some.inj htoken
        obtain ⟨span, kind⟩ := classified
        obtain rfl := hspan
        exact Or.inl ⟨kind, hkind, rfl⟩
      · rw [List.map_cons, kindBehind_succ] at hkind
        exact Or.inr ⟨place, token, htoken, hspan, hkind⟩

theorem spans_sublist (names : DeclaredNames) (previous : Option TokenKind) (tokens : List Token) :
    ((classifyTokens names previous tokens).map ClassifiedToken.span).Sublist
      (tokens.map Token.span) := by
  induction tokens generalizing previous with
  | nil => exact List.nil_sublist _
  | cons token tokens ih =>
    rw [classifyTokens]
    cases classifyToken names previous token with
    | none => exact (ih (some token.kind)).cons token.span
    | some kind => exact (ih (some token.kind)).cons_cons token.span

variable {grammar : Grammar} {source : String} {tokens : List Token}

theorem semanticTokens_eq
    (h : Lexer.tokenizeInFile grammar.xid source ROOT_FILE = .ok tokens) :
    semanticTokens grammar source =
      classifyTokens (DeclaredNames.of (parseTokens grammar source tokens)) none tokens := by
  rw [semanticTokens, h]

/-- A token that is highlighted is a name or stands in the text as a `<` or `>` does. -/
theorem spelled_of_classified
    (h : Lexer.tokenizeInFile grammar.xid source ROOT_FILE = .ok tokens) {names : DeclaredNames}
    {previous : Option TokenKind} {token : Token} {kind : SemanticTokenKind}
    (htoken : token ∈ tokens) (hkind : classifyToken names previous token = some kind) :
    token.text.toList ≠ [] ∧ '\n' ∉ token.text.toList := by
  obtain ⟨front, last, rfl, hlast, -, hfront⟩ := Lexer.tokenize_ends h
  rw [classifyToken] at hkind
  obtain htoken | htoken := List.mem_append.mp htoken
  · have hspelled := hfront token htoken
    refine ⟨hspelled.nonempty, ?_⟩
    obtain ⟨value, hnumber⟩ | ⟨chunks, hstring⟩ | hline := hspelled.line
    · rw [hnumber] at hkind
      cases hkind
    · rw [hstring] at hkind
      cases hkind
    · exact hline
  · obtain rfl := List.mem_singleton.mp htoken
    rw [hlast] at hkind
    cases hkind

theorem extent_pos_of_text (h : Lexer.tokenizeInFile grammar.xid source ROOT_FILE = .ok tokens)
    {token : Token} (htoken : token ∈ tokens) (htext : token.text.toList ≠ []) :
    token.span.start < token.span.stop := by
  obtain ⟨front, back, -, hstart, hstop⟩ := Lexer.tokenize_lies h htoken
  have hpos := extent_pos Char.utf8Size_pos htext
  rw [hstart, hstop, extent_append]
  omega

/-- The highlighted tokens stand one behind the other, and none is empty. -/
theorem semanticTokens_sorted (grammar : Grammar) (source : String) :
    (semanticTokens grammar source).Pairwise (fun token next => token.span.stop ≤ next.span.start) ∧
      ∀ token ∈ semanticTokens grammar source, token.span.start < token.span.stop := by
  cases h : Lexer.tokenizeInFile grammar.xid source ROOT_FILE with
  | error e =>
    rw [semanticTokens, h]
    exact ⟨List.Pairwise.nil, fun token htoken => absurd htoken List.not_mem_nil⟩
  | ok tokens =>
    rw [semanticTokens_eq h]
    constructor
    · have hsorted : (tokens.map Token.span).Pairwise fun span next => span.stop ≤ next.start :=
        List.pairwise_map.mpr (Lexer.tokenize_sorted h)
      exact List.pairwise_map.mp (hsorted.sublist (spans_sublist _ _ _))
    · intro classified hclassified
      obtain ⟨place, token, htoken, hspan, hkind⟩ := mem_classifyTokens.mp hclassified
      have hmem := List.mem_of_getElem? htoken
      rw [hspan]
      exact extent_pos_of_text h hmem (spelled_of_classified h hmem hkind).1

/-! ### Delimiters and operators -/

/-- A `<` or a `>`. -/
def isAngle : TokenKind → Bool
  | .blockOpen | .blockClose | .gt => true
  | _ => false

/-- The ends of operands that the highlighting does not know. -/
def unseenEnd : TokenKind → Bool
  | .braceClose | .blockClose | .entryPoint => true
  | _ => false

/-- What a `<` or `>` is highlighted as, behind a token of kind `previous`, when the parser made
`role` of it. -/
def highlightOf (previous : TokenKind) : Option Use → Option SemanticTokenKind
  | some .blockOpen | some .blockClose => some .blockDelimiter
  | some (.operator .lt) =>
    some (if unseenEnd previous then .blockDelimiter else .comparisonOperator)
  | some (.operator .gt) => some .comparisonOperator
  | _ => none

theorem classifyToken_of_fits {names : DeclaredNames} {previous : Option TokenKind} {token : Token}
    {role : Option Use} (hangle : isAngle token.kind = true)
    (hfits : Quilon.Parser.Fits (previous.getD .eof) (token.kind, role)) :
    classifyToken names previous token = highlightOf (previous.getD .eof) role := by
  rw [classifyToken]
  cases hkind : token.kind with
  | blockOpen =>
    rw [hkind] at hfits
    cases role with
    | none => exact absurd rfl hfits.1
    | some role =>
      cases role with
      | blockOpen =>
        -- Right behind an arrow a block begins.
        obtain _ | previous := previous
        · cases hfits.2
        · obtain rfl : previous = .arrow := hfits.2
          rfl
      | blockClose => cases (show TokenKind.blockOpen = .blockClose from hfits)
      | operator operator =>
        obtain rfl : BinaryOperator.lt = operator := Option.some.inj hfits.1
        obtain _ | previous := previous
        · cases hfits.2
        · have hends : endsExpression previous = true := hfits.2
          revert hends
          cases previous <;> intro hends <;> first | rfl | cases hends
  | blockClose =>
    rw [hkind] at hfits
    cases role with
    | none => exact absurd rfl hfits.2.1
    | some role =>
      cases role with
      | blockOpen => cases hfits.1
      | blockClose => rfl
      | operator operator => cases hfits.1
  | gt =>
    rw [hkind] at hfits
    cases role with
    | none => exact absurd rfl hfits.2.2
    | some role =>
      cases role with
      | blockOpen => cases hfits.1
      | blockClose => cases (show TokenKind.gt = .blockClose from hfits)
      | operator operator =>
        obtain rfl : BinaryOperator.gt = operator := Option.some.inj hfits.1
        rfl
  | _ =>
    rw [hkind] at hangle
    cases hangle

theorem place_unique (h : Lexer.Sorted tokens) {i j : Nat} {token other : Token}
    (hi : tokens[i]? = some token) (hj : tokens[j]? = some other) (hspan : token.span = other.span)
    (hsome : token.span.start < token.span.stop) : i = j := by
  have hpairs := List.pairwise_iff_getElem.mp h
  obtain ⟨hilt, rfl⟩ := List.getElem?_eq_some_iff.mp hi
  obtain ⟨hjlt, rfl⟩ := List.getElem?_eq_some_iff.mp hj
  obtain hlt | heq | hgt := Nat.lt_trichotomy i j
  · have hle := hpairs i j hilt hjlt hlt
    rw [← hspan] at hle
    omega
  · exact heq
  · have hle := hpairs j i hjlt hilt hgt
    rw [← hspan] at hle
    omega

theorem kindBehind_eq {place : Nat} (hplace : place < tokens.length) :
    (kindBehind none (tokens.map Token.kind) place).getD .eof =
      Quilon.Parser.kindBefore (grammar.inputOf source tokens) place := by
  obtain _ | place := place
  · rfl
  · have hlt : place < (tokens.map Token.kind).length := by
      rw [List.length_map]
      omega
    have hlt' : place < tokens.length := by omega
    rw [Quilon.Parser.kindBefore_succ, kindBehind, List.getLast?_take,
      if_neg (Nat.succ_ne_zero place), Nat.add_sub_cancel, List.getElem?_eq_getElem hlt,
      List.getElem_map]
    show tokens[place].kind = (tokens.getD place _).kind
    rw [List.getD_eq_getElem _ _ hlt']

/-- Of a text that parses, every `<` and `>` is highlighted as what the parser made of it, but for a
less-than behind a `}`, a block or a `^`. -/
theorem highlighting_of_parse (grammar : Grammar) (source : String) (tokens : List Token)
    (h : Lexer.tokenizeInFile grammar.xid source ROOT_FILE = .ok tokens) (parsed : Modules.Parsed)
    (s : Parser) (hparse : grammar.parseUses source tokens = .ok parsed s) (place : Nat)
    (token : Token) (htoken : tokens[place]? = some token) (hangle : isAngle token.kind = true)
    (kind : SemanticTokenKind) :
    ⟨token.span, kind⟩ ∈ semanticTokens grammar source ↔
      highlightOf (Quilon.Parser.kindBefore (grammar.inputOf source tokens) place)
        (useOf s.uses place) = some kind := by
  obtain ⟨hplace, -⟩ := List.getElem?_eq_some_iff.mp htoken
  have hpiece : (piecesOf tokens s.uses)[place]? = some (token.kind, useOf s.uses place) := by
    rw [piecesOf, List.getElem?_mapIdx, htoken]
    rfl
  have hkinds : (piecesOf tokens s.uses).map Prod.fst = tokens.map Token.kind := by
    refine List.ext_getElem? fun i => ?_
    rw [List.getElem?_map, piecesOf, List.getElem?_mapIdx, Option.map_map, List.getElem?_map]
    rfl
  have hprevious : (kindBehind (some .eof) (tokens.map Token.kind) place).getD .eof =
      (kindBehind none (tokens.map Token.kind) place).getD .eof := by
    rw [kindBehind, kindBehind]
    cases ((tokens.map Token.kind).take place).getLast? <;> rfl
  have hfits := fits_of_allFit (Quilon.Parser.parse_fits h hparse) hpiece
  rw [hkinds, hprevious] at hfits
  have hclassified : classifyToken (DeclaredNames.of (parseTokens grammar source tokens))
      (kindBehind none (tokens.map Token.kind) place) token =
        highlightOf (Quilon.Parser.kindBefore (grammar.inputOf source tokens) place)
          (useOf s.uses place) := by
    rw [classifyToken_of_fits hangle hfits, kindBehind_eq hplace]
  rw [semanticTokens_eq h, mem_classifyTokens, ← hclassified]
  constructor
  · rintro ⟨i, other, hother, hspan, hkind⟩
    have hmem' := List.mem_of_getElem? hother
    have hsome := extent_pos_of_text h hmem' (spelled_of_classified h hmem' hkind).1
    obtain rfl := place_unique (Lexer.tokenize_sorted h) hother htoken hspan.symm hsome
    obtain rfl := Option.some.inj (htoken.symm.trans hother)
    exact hkind
  · intro hkind
    exact ⟨place, token, htoken, rfl, hkind⟩

theorem highlighting_of_comparing :
    ⟨⟨8, 9, 0⟩, .comparisonOperator⟩ ∈ semanticTokens Quilon.Parser.asciiGrammar
      Quilon.Parser.comparing ∧
    ⟨⟨6, 7, 0⟩, .blockDelimiter⟩ ∈ semanticTokens Quilon.Parser.asciiGrammar
      Quilon.Parser.comparing := by
  obtain ⟨parsed, s, hparse, huses⟩ :=
    Quilon.Parser.exists_of_usesOf Quilon.Parser.usesOf_comparing
  have hall := highlighting_of_parse Quilon.Parser.asciiGrammar Quilon.Parser.comparing
    Quilon.Parser.comparingTokens Quilon.Parser.tokenize_comparing parsed s hparse
  constructor
  · refine (hall 6 _ rfl rfl .comparisonOperator).mpr ?_
    rw [huses]
    rfl
  · refine (hall 4 _ rfl rfl .blockDelimiter).mpr ?_
    rw [huses]
    rfl

end Quilon.Lsp
