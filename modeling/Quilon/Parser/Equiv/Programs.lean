import Quilon.Lexer.Equiv.Tokens
import Quilon.Lexer.Equiv.TrojanSource
import Quilon.Library.Lookup
import Quilon.Library.Nesting
import Quilon.Parser.Equiv.Items

/-!
# What a program is made of

The tokens of a text that parses, each with what the parser made of it (`piecesOf`).

Main results:
* `parse_pieces`: they are a phrase, up to the end of the file;
* `parse_nested`: delimiters nest, those of blocks among them, and every `<` and `>` is a delimiter
  or an operator as it may be there.
-/

namespace Quilon.Parser

open Lexer (Token TokenKind Spelled)
open Nesting (Bracket Nested feedAll)

/-! ### The tokens of a text -/

theorem isCapitalized_ascii (letters : Letters) {text : String}
    (h : text.toList.head?.any (fun c => c.toNat < 128 && !c.isUpper) = true) :
    letters.isCapitalized text = false := by
  rw [Letters.isCapitalized]
  cases hhead : text.toList.head? with
  | none => rfl
  | some c =>
    rw [hhead] at h
    obtain ⟨hsmall, hupper⟩ := Bool.and_eq_true_iff.mp h
    have hascii := letters.isUppercase_ascii c (of_decide_eq_true hsmall)
    rw [Bool.not_eq_true'] at hupper
    show letters.isUppercase c = false
    rw [hascii, hupper]

variable {grammar : Grammar} {source : String} {tokens : List Token}

theorem lexed_inputOf (h : Lexer.tokenizeInFile grammar.xid source ROOT_FILE = .ok tokens) :
    Lexed (grammar.inputOf source tokens) := by
  obtain ⟨front, last, rfl, hlast, htext, hfront⟩ := Lexer.tokenize_ends h
  have hmem : ∀ token ∈ front ++ [last], token ∈ front ∨ token = last := fun token htoken =>
    (List.mem_append.mp htoken).imp_right List.mem_singleton.mp
  refine ⟨fun i hi => ?_, fun token htoken hident => ?_, fun token htoken hcapital => ?_⟩
  · have hpast : (front ++ [last]).length ≤ i := hi
    show ((front ++ [last]).getD i ((front ++ [last]).getLastD _)).kind = .eof
    rw [List.getD_eq_default _ _ hpast, List.getLastD_concat]
    exact hlast
  · obtain htoken | rfl := hmem token htoken
    · exact (hfront token htoken).name hident
    · rw [hlast] at hident
      cases hident
  · obtain htoken | rfl := hmem token htoken
    · by_contra hident
      rw [isCapitalized_ascii _ ((hfront token htoken).other hident)] at hcapital
      cases hcapital
    · rw [htext, Letters.isCapitalized, String.toList_empty] at hcapital
      cases hcapital

/-! ### Where the pieces of a phrase lie -/

/-- A token is of a kind, and came to be something. -/
theorem mem_placed {i place : Nat} {role : Use} {pieces : List Piece} :
    (place, role) ∈ placed i pieces ↔
      i ≤ place ∧ (pieces[place - i]?).bind Prod.snd = some role := by
  induction pieces generalizing i with
  | nil => exact ⟨fun h => absurd h List.not_mem_nil, fun h => by cases h.2⟩
  | cons piece pieces ih =>
    have hlater : place ≠ i →
        ((i + 1 ≤ place ∧ (pieces[place - (i + 1)]?).bind Prod.snd = some role) ↔
          i ≤ place ∧ ((piece :: pieces)[place - i]?).bind Prod.snd = some role) := by
      intro hne
      by_cases hle : i + 1 ≤ place
      · have hplace : place - i = place - (i + 1) + 1 := by omega
        rw [hplace, List.getElem?_cons_succ]
        exact ⟨fun h => ⟨by omega, h.2⟩, fun h => ⟨hle, h.2⟩⟩
      · exact ⟨fun h => absurd h.1 hle, fun h => absurd h.1 (by omega)⟩
    obtain ⟨kind, found⟩ := piece
    by_cases heq : place = i
    · subst heq
      have hself : (place, role) ∉ placed (place + 1) pieces := fun h => by
        have hle := (ih.mp h).1
        omega
      rw [Nat.sub_self, List.getElem?_cons_zero]
      cases found with
      | none => exact ⟨fun h => absurd h hself, fun h => by cases h.2⟩
      | some found =>
        rw [placed, List.mem_cons]
        constructor
        · intro h
          obtain h | h := h
          · rw [(Prod.mk.inj h).2]
            exact ⟨Nat.le_refl _, rfl⟩
          · exact absurd h hself
        · intro h
          have hfound : found = role := Option.some.inj h.2
          exact Or.inl (by rw [hfound])
    · rw [← hlater heq, ← ih]
      cases found with
      | none => exact Iff.rfl
      | some found =>
        rw [placed, List.mem_cons, or_iff_right fun h => heq (Prod.mk.inj h).1]

/-- What a token came to be. -/
def useOf (uses : List (Nat × Use)) (place : Nat) : Option Use := uses.lookup place

/-- The tokens, each with what it came to be. -/
def piecesOf (tokens : List Token) (uses : List (Nat × Use)) : List Piece :=
  tokens.mapIdx fun place token => (token.kind, useOf uses place)

variable {input : Input}

theorem LiesAt.getElem {i j : Nat} {pieces : List Piece} (h : LiesAt input i pieces)
    (hj : j < pieces.length) : kindAt input (i + j) = pieces[j].1 := by
  induction pieces generalizing i j with
  | nil => exact absurd hj (Nat.not_lt_zero j)
  | cons piece pieces ih =>
    obtain _ | j := j
    · exact h.1
    · have hplace : i + (j + 1) = i + 1 + j := by omega
      rw [hplace, List.getElem_cons_succ]
      exact ih h.2 (Nat.lt_of_succ_lt_succ hj)

/-- What the parser wrote down are the pieces it took. -/
theorem useOf_eq {uses : List (Nat × Use)} {pieces : List Piece}
    (huses : ∀ entry, entry ∈ uses ↔ entry ∈ placed 0 pieces) (place : Nat) :
    useOf uses place = (pieces[place]?).bind Prod.snd := by
  have hmem : ∀ role, (place, role) ∈ uses ↔ (pieces[place]?).bind Prod.snd = some role := by
    intro role
    rw [huses, mem_placed, Nat.sub_zero]
    exact ⟨fun h => h.2, fun h => ⟨Nat.zero_le _, h⟩⟩
  cases hfound : (pieces[place]?).bind Prod.snd with
  | none =>
    rw [useOf]
    by_contra hne
    obtain ⟨role, hrole⟩ := Option.ne_none_iff_exists'.mp hne
    rw [(hmem role).mp (mem_of_lookup hrole)] at hfound
    cases hfound
  | some role =>
    refine lookup_eq_some_of_unique ((hmem role).mpr hfound) fun other hother => ?_
    rw [(hmem other).mp hother] at hfound
    exact Option.some.inj hfound

/-! ### What a phrase is -/

/-- A `<` or `>` is a delimiter or an operator, as it may be behind a token of kind `previous`;
nothing else is a delimiter of blocks. -/
def Fits (previous : TokenKind) : Piece → Prop
  | (kind, some .blockOpen) => kind = .blockOpen ∧ previous = .arrow
  | (kind, some .blockClose) => kind = .blockClose
  | (kind, some (.operator operator)) =>
    operatorOf kind = some operator ∧ endsExpression previous = true
  | (kind, none) => kind ≠ .blockOpen ∧ kind ≠ .blockClose ∧ kind ≠ .gt

/-- Every piece fits behind the one before it. -/
def AllFit : (previous : TokenKind) → List Piece → Prop
  | _, [] => True
  | previous, piece :: pieces => Fits previous piece ∧ AllFit piece.1 pieces

theorem allFit_append {previous : TokenKind} {front back : List Piece} :
    AllFit previous (front ++ back) ↔
      AllFit previous front ∧ AllFit (lastKind previous front) back := by
  induction front generalizing previous with
  | nil => exact ⟨fun h => ⟨trivial, h⟩, fun h => h.2⟩
  | cons piece front ih => rw [List.cons_append, AllFit, AllFit, ih, and_assoc, lastKind]

theorem Phrase.fits {previous : TokenKind} {pieces : List Piece} (h : Phrase previous pieces) :
    AllFit previous pieces := by
  induction h with
  | nil => trivial
  | append _ _ ihfront ihback => exact allFit_append.mpr ⟨ihfront, ihback⟩
  | @plain previous kind h =>
    refine ⟨⟨?_, ?_, ?_⟩, trivial⟩
    all_goals
      rintro rfl
      cases h
  | operator hends h => exact ⟨⟨h, hends⟩, trivial⟩
  | @pair previous opener closer body hpair _ ih =>
    refine ⟨?_, allFit_append.mpr ⟨ih, ?_, trivial⟩⟩
    · cases hpair <;> exact ⟨TokenKind.noConfusion, TokenKind.noConfusion, TokenKind.noConfusion⟩
    · cases hpair <;> exact ⟨TokenKind.noConfusion, TokenKind.noConfusion, TokenKind.noConfusion⟩
  | block _ ih => exact ⟨⟨rfl, rfl⟩, allFit_append.mpr ⟨ih, rfl, trivial⟩⟩

theorem Phrase.inside {previous : TokenKind} {pieces : List Piece} (h : Phrase previous pieces) :
    ∀ piece ∈ pieces, piece.1 ≠ .eof := by
  induction h with
  | nil => exact fun piece h => absurd h List.not_mem_nil
  | append _ _ ihfront ihback =>
    intro piece hpiece
    exact (List.mem_append.mp hpiece).elim (ihfront piece) (ihback piece)
  | @plain previous kind h =>
    intro piece hpiece
    obtain rfl := List.mem_singleton.mp hpiece
    rintro rfl
    cases h
  | @operator previous kind operator _ h =>
    intro piece hpiece
    obtain rfl := List.mem_singleton.mp hpiece
    rintro rfl
    cases h
  | @pair previous opener closer body hpair _ ih =>
    intro piece hpiece
    obtain rfl | hpiece := List.mem_cons.mp hpiece
    · cases hpair <;> exact TokenKind.noConfusion
    obtain hpiece | hpiece := List.mem_append.mp hpiece
    · exact ih piece hpiece
    · obtain rfl := List.mem_singleton.mp hpiece
      cases hpair <;> exact TokenKind.noConfusion
  | block _ ih =>
    intro piece hpiece
    obtain rfl | hpiece := List.mem_cons.mp hpiece
    · exact TokenKind.noConfusion
    obtain hpiece | hpiece := List.mem_append.mp hpiece
    · exact ih piece hpiece
    · obtain rfl := List.mem_singleton.mp hpiece
      exact TokenKind.noConfusion

inductive Delimiter where
  | paren
  | bracket
  | brace
  | block
deriving DecidableEq

/-- What a token opens or closes. -/
def delimiter : Piece → Option (Bracket Delimiter)
  | (_, some .blockOpen) => some (.opening .block)
  | (_, some .blockClose) => some (.closing .block)
  | (_, some (.operator _)) => none
  | (.parenOpen, none) => some (.opening .paren)
  | (.parenClose, none) => some (.closing .paren)
  | (.bracketOpen, none) => some (.opening .bracket)
  | (.bracketClose, none) => some (.closing .bracket)
  | (.braceOpen, none) => some (.opening .brace)
  | (.braceClose, none) => some (.closing .brace)
  | (_, none) => none

/-- What stands between an opening delimiter and its partner leaves nothing open. -/
theorem feedAll_enclosed {opener closer : Piece} {kind : Delimiter} {body : List Piece}
    {stack : List (Piece × Delimiter)} (hopen : delimiter opener = some (.opening kind))
    (hclose : delimiter closer = some (.closing kind))
    (hbody : ∀ stack, feedAll delimiter stack body = .ok stack) :
    feedAll delimiter stack (opener :: (body ++ [closer])) = .ok stack := by
  have hopened : Nesting.feed delimiter stack opener = .ok ((opener, kind) :: stack) := by
    rw [Nesting.feed, hopen]
  have hclosed : Nesting.feed delimiter ((opener, kind) :: stack) closer = .ok stack := by
    rw [Nesting.feed, hclose]
    exact if_pos rfl
  rw [feedAll, hopened]
  show feedAll delimiter ((opener, kind) :: stack) (body ++ [closer]) = _
  rw [Nesting.feedAll_append_ok (hbody _), feedAll, hclosed]
  rfl

theorem Phrase.feedAll {previous : TokenKind} {pieces : List Piece} (h : Phrase previous pieces)
    (stack : List (Piece × Delimiter)) :
    Nesting.feedAll delimiter stack pieces = .ok stack := by
  induction h generalizing stack with
  | nil => rfl
  | append _ _ ihfront ihback => rw [Nesting.feedAll_append_ok (ihfront stack), ihback]
  | @plain previous kind h =>
    refine Nesting.feedAll_unmarked fun piece hpiece => ?_
    obtain rfl := List.mem_singleton.mp hpiece
    cases kind <;> first | rfl | cases h
  | @operator previous kind operator _ h =>
    refine Nesting.feedAll_unmarked fun piece hpiece => ?_
    obtain rfl := List.mem_singleton.mp hpiece
    cases kind <;> rfl
  | pair hpair _ ih =>
    cases hpair with
    | parens => exact feedAll_enclosed rfl rfl ih
    | brackets => exact feedAll_enclosed rfl rfl ih
    | braces => exact feedAll_enclosed rfl rfl ih
  | block _ ih => exact feedAll_enclosed rfl rfl ih

/-! ### Programs -/

/-- The tokens up to the end of the file are a phrase. -/
theorem parse_pieces (h : Lexer.tokenizeInFile grammar.xid source ROOT_FILE = .ok tokens)
    {parsed : Modules.Parsed} {s : Parser}
    (hparse : grammar.parseUses source tokens = .ok parsed s) :
    ∃ front last, tokens = front ++ [last] ∧ last.kind = .eof ∧
      Phrase .eof (piecesOf front s.uses) ∧ useOf s.uses front.length = none := by
  have hlexed := lexed_inputOf h
  have hrun := parseProgram_takes hlexed (deeper_sound hlexed MAX_NESTING_DEPTH) (Parser.new [])
  obtain ⟨⟨pieces, hpos, hlies, hphrase, huses⟩, hend⟩ := hrun parsed s hparse
  replace hlies : LiesAt (grammar.inputOf source tokens) 0 pieces := hlies
  replace hpos : s.pos = pieces.length := by
    rw [hpos]
    exact Nat.zero_add _
  replace huses : ∀ entry, entry ∈ s.uses ↔ entry ∈ placed 0 pieces := fun entry => by
    rw [huses]
    exact or_iff_left List.not_mem_nil
  obtain ⟨front, last, rfl, hlast, -, hfront⟩ := Lexer.tokenize_ends h
  have hkinds : ∀ i, (hi : i < front.length) →
      kindAt (grammar.inputOf source (front ++ [last])) i = front[i].kind := by
    intro i hi
    show ((front ++ [last]).getD i _).kind = _
    rw [List.getD_eq_getElem _ _ (by rw [List.length_append]; omega), List.getElem_append_left hi]
  have hkind : kindAt (grammar.inputOf source (front ++ [last])) front.length = .eof := by
    show ((front ++ [last]).getD front.length _).kind = _
    rw [List.getD_eq_getElem _ _ (by rw [List.length_append]; exact Nat.lt_succ_self _),
      List.getElem_concat_length rfl]
    exact hlast
  have hlength : pieces.length = front.length := by
    -- A phrase has no end within, and the cursor stands at the only one.
    refine Nat.le_antisymm ?_ ?_
    · by_contra hlong
      have hlt : front.length < pieces.length := Nat.lt_of_not_le hlong
      have hpiece := hlies.getElem hlt
      rw [Nat.zero_add] at hpiece
      exact hphrase.inside _ (List.getElem_mem hlt) (hpiece.symm.trans hkind)
    · by_contra hshort
      have hlt : s.pos < front.length := by omega
      obtain hpast | heof := hend
      · have hle : (front ++ [last]).length ≤ s.pos := hpast
        rw [List.length_append] at hle
        omega
      · rw [hkinds _ hlt] at heof
        exact (hfront _ (List.getElem_mem hlt)).inside heof
  have hpieces : piecesOf front s.uses = pieces := by
    refine List.ext_getElem (by rw [piecesOf, List.length_mapIdx, hlength]) fun i hi hi' => ?_
    have hplace : i < front.length := by omega
    have hkind := hlies.getElem hi'
    rw [Nat.zero_add, hkinds i hplace] at hkind
    have hpiece : (piecesOf front s.uses)[i] = (front[i].kind, useOf s.uses i) :=
      List.getElem_mapIdx
    rw [hpiece, hkind, useOf_eq huses, List.getElem?_eq_getElem hi']
    rfl
  refine ⟨front, last, rfl, hlast, ?_, ?_⟩
  · rw [hpieces]
    exact hphrase
  · rw [useOf_eq huses, ← hlength, List.getElem?_eq_none (Nat.le_refl _)]
    rfl

theorem piecesOf_end (front : List Token) {last : Token} {uses : List (Nat × Use)}
    (hlast : last.kind = .eof) (huse : useOf uses front.length = none) :
    piecesOf (front ++ [last]) uses = piecesOf front uses ++ [(.eof, none)] := by
  rw [piecesOf, List.mapIdx_append]
  show piecesOf front uses ++ [(last.kind, useOf uses (0 + front.length))] = _
  rw [Nat.zero_add, hlast, huse]

/-- Every `<` and `>` is what it may be behind the token before it. -/
theorem parse_fits (h : Lexer.tokenizeInFile grammar.xid source ROOT_FILE = .ok tokens)
    {parsed : Modules.Parsed} {s : Parser}
    (hparse : grammar.parseUses source tokens = .ok parsed s) :
    AllFit .eof (piecesOf tokens s.uses) := by
  obtain ⟨front, last, rfl, hlast, hphrase, huse⟩ := parse_pieces h hparse
  rw [piecesOf_end front hlast huse]
  exact allFit_append.mpr ⟨hphrase.fits,
    ⟨TokenKind.noConfusion, TokenKind.noConfusion, TokenKind.noConfusion⟩, trivial⟩

def asciiLetters : Letters where
  isUppercase := Char.isUpper
  toUppercase c := [c.toUpper]
  isUppercase_ascii _ _ := rfl
  toUppercase_ascii _ _ := rfl

def asciiGrammar : Grammar where
  xid := Lexer.asciiXid
  letters := asciiLetters
  lexerMessage _ _ := ("", ⟨0, 0, ROOT_FILE⟩)

/-- `a := b => < c < d >` -/
def comparing : String := .ofList ['a', ':', '=', 'b', '=', '>', '<', 'c', '<', 'd', '>']

def comparingTokens : List Token :=
  [⟨.ident, ⟨0, 1, 0⟩, .ofList ['a'], true⟩, ⟨.mutAssign, ⟨1, 3, 0⟩, .ofList [':', '='], false⟩,
    ⟨.ident, ⟨3, 4, 0⟩, .ofList ['b'], false⟩, ⟨.arrow, ⟨4, 6, 0⟩, .ofList ['=', '>'], false⟩,
    ⟨.blockOpen, ⟨6, 7, 0⟩, .ofList ['<'], false⟩, ⟨.ident, ⟨7, 8, 0⟩, .ofList ['c'], false⟩,
    ⟨.blockOpen, ⟨8, 9, 0⟩, .ofList ['<'], false⟩, ⟨.ident, ⟨9, 10, 0⟩, .ofList ['d'], false⟩,
    ⟨.blockClose, ⟨10, 11, 0⟩, .ofList ['>'], false⟩, ⟨.eof, ⟨11, 11, 0⟩, "", false⟩]

theorem tokenize_comparing :
    Lexer.tokenizeInFile Lexer.asciiXid comparing ROOT_FILE = .ok comparingTokens := by
  have hone : ∀ {offset rest kind lexemes} {c : Char},
      Lexer.nextLexeme Lexer.asciiXid offset c rest = .ok (.token kind, 0) →
      Lexer.lexemesFrom Lexer.asciiXid (offset + extent Char.utf8Size [c]) rest = .ok lexemes →
      Lexer.lexemesFrom Lexer.asciiXid offset (c :: rest) = .ok (⟨.token kind, [c]⟩ :: lexemes) :=
    fun hnext hrest => Lexer.lexemesFrom_cons hnext hrest
  have htwo : ∀ {offset rest kind lexemes} {c d : Char},
      Lexer.nextLexeme Lexer.asciiXid offset c (d :: rest) = .ok (.token kind, 1) →
      Lexer.lexemesFrom Lexer.asciiXid (offset + extent Char.utf8Size [c, d]) rest = .ok lexemes →
      Lexer.lexemesFrom Lexer.asciiXid offset (c :: d :: rest) =
        .ok (⟨.token kind, [c, d]⟩ :: lexemes) :=
    fun hnext hrest => Lexer.lexemesFrom_cons hnext hrest
  have hend : Lexer.lexemesFrom Lexer.asciiXid 11 [] = .ok [] := by rw [Lexer.lexemesFrom]
  have hinner : Lexer.lexemesFrom Lexer.asciiXid 6 ['<', 'c', '<', 'd', '>'] = .ok _ :=
    hone rfl (hone rfl (hone rfl (hone rfl (hone rfl hend))))
  have hlexemes : Lexer.lexemesFrom Lexer.asciiXid 0
      ['a', ':', '=', 'b', '=', '>', '<', 'c', '<', 'd', '>'] = .ok _ :=
    hone rfl (htwo rfl (hone rfl (htwo rfl hinner)))
  rw [Lexer.tokenizeInFile, comparing, String.toList_ofList, hlexemes]
  rfl

/-- What the parser wrote down of a text. -/
def usesOf (grammar : Grammar) (source : String) (tokens : List Token) :
    Option (List (Nat × Use)) :=
  match grammar.parseUses source tokens with
  | .ok _ s => some s.uses
  | .error _ _ => none

theorem exists_of_usesOf {uses : List (Nat × Use)} (h : usesOf grammar source tokens = some uses) :
    ∃ parsed s, grammar.parseUses source tokens = .ok parsed s ∧ s.uses = uses := by
  rw [usesOf] at h
  cases hparse : grammar.parseUses source tokens with
  | error e s =>
    rw [hparse] at h
    cases h
  | ok parsed s =>
    rw [hparse] at h
    exact ⟨parsed, s, rfl, Option.some.inj h⟩

theorem usesOf_comparing : usesOf asciiGrammar comparing comparingTokens =
    some [(8, .blockClose), (4, .blockOpen), (6, .operator .lt)] := by
  decide +kernel

end Quilon.Parser
