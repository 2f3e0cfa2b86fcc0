import Quilon.Lexer.Scan

/-!
# Lexing a text

`Lexer::tokenize_in_file` of `src/lexer/lexer.rs`, with `reclassify_gt` and `is_first_on_line`.  A
text is first taken apart into its lexemes, those that are skipped among them.
-/

namespace Quilon.Lexer

open Text (isBidiControl)

inductive LexemeKind where
  | blank
  | comment
  | token (kind : TokenKind)
deriving DecidableEq

structure Lexeme where
  kind : LexemeKind
  text : List Char
deriving DecidableEq

/-- The lexeme that begins with `c` at byte `offset`, and how many characters it has behind `c`. -/
def nextLexeme (xid : Xid) (offset : Nat) (c : Char) (cs : List Char) :
    Except TokenLexError (LexemeKind × Nat) :=
  if isBlank c then .ok (.blank, (cs.takeWhile isBlank).length)
  else if c = '~' then do
    let rest := cs.takeWhile (· ≠ '\n')
    lexComment (c :: rest)
    return (.comment, rest.length)
  else if isBidiControl c then .error (.bidi (.outside c))
  else if isDigit c then do
    let (kind, n) ← lexNumber c cs
    return (.token kind, n)
  else if c = '"' then do
    let (chunks, n) ← lexString (offset + 1) cs
    return (.token (.string chunks), n)
  else if c = '_' || xid.start c then
    let (kind, n) := lexWord xid c cs
    .ok (.token kind, n)
  else
    match lexSymbol c cs.head? with
    | some (kind, n) => .ok (.token kind, n)
    | none => .error .invalidToken

/-- The lexemes of a text, up to its end or the first error. -/
def lexemesFrom (xid : Xid) (offset : Nat) : List Char → Except TokenLexError (List Lexeme)
  | [] => .ok []
  | c :: cs => do
    let (kind, n) ← nextLexeme xid offset c cs
    let text := c :: cs.take n
    let rest ← lexemesFrom xid (offset + extent Char.utf8Size text) (cs.drop n)
    return ⟨kind, text⟩ :: rest
termination_by cs => cs.length

/-- Only spaces and tabs since the line began; `before` is the text up to here, backwards. -/
def isFirstOnLine : (before : List Char) → Bool
  | [] => true
  | c :: before =>
    if c = ' ' || c = '\t' then isFirstOnLine before else c = '\n' || c = '\r'

/-- The tokens among the lexemes. -/
def tokensOf (file : Nat) (before : List Char) : List Lexeme → List Token
  | [] =>
    let offset := extent Char.utf8Size before
    [⟨.eof, ⟨offset, offset, file⟩, "", isFirstOnLine before⟩]
  | ⟨.token kind, text⟩ :: rest =>
    let offset := extent Char.utf8Size before
    let span := ⟨offset, offset + extent Char.utf8Size text, file⟩
    ⟨kind, span, .ofList text, isFirstOnLine before⟩ :: tokensOf file (text.reverse ++ before) rest
  | ⟨_, text⟩ :: rest => tokensOf file (text.reverse ++ before) rest

/-- A `>` with an operand behind it on its line is a comparison. -/
def reclassifyGt : List Token → List Token
  | [] => []
  | token :: tail =>
    (if token.kind = .blockClose ∧
        tail.head?.any (fun next => !next.firstOnLine && next.kind.startsOperand) then
      { token with kind := .gt }
    else token) :: reclassifyGt tail

def tokenizeInFile (xid : Xid) (source : String) (file : Nat) :
    Except TokenLexError (List Token) := do
  let lexemes ← lexemesFrom xid 0 source.toList
  return reclassifyGt (tokensOf file [] lexemes)

end Quilon.Lexer
