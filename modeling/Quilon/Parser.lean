import Quilon.Parser.Items

/-!
# The parser

The rules of the grammar tied together: what runs one level deeper is the rules again, down to
`MAX_NESTING_DEPTH`, and the hole of a string is lexed and parsed like a text of its own.
-/

namespace Quilon

open Lexer (Token TokenKind Xid)

namespace Parser

/-- The rules that `nested` runs, with so many levels left. -/
def deeper (input : Input) : (levels : Nat) → Deeper
  | 0 => ⟨nestingTooDeep input, nestingTooDeep input, nestingTooDeep input, nestingTooDeep input,
      nestingTooDeep input⟩
  | levels + 1 => {
      assignment := parseAssignment input (deeper input levels)
      unary := parseUnary input (deeper input levels)
      block := parseBlockInner input (deeper input levels)
      pattern := parsePatternInner input (deeper input levels)
      type := parseTypeInner input (deeper input levels) }

end Parser

/-- What the parser takes from elsewhere: the characters of names, and what an error of the lexer
says and where it is. -/
structure Grammar where
  xid : Xid
  letters : Letters
  lexerMessage : (src : String) → Lexer.TokenLexError → String × Span

namespace Grammar

open Quilon.Parser

variable (grammar : Grammar)

/-- `Parser::new`, of the tokens of one file. -/
def input (tokens : List Token) (spanBase : Nat)
    (parseHole : (file : Nat) → (src : String) → (abs : Nat) →
      (modulePaths : List (String × String)) → Except ParseError Expression) : Input where
  letters := grammar.letters
  tokens
  file := (tokens.head?.map fun token => token.span.file).getD ROOT_FILE
  spanBase
  parseHole := parseHole ((tokens.head?.map fun token => token.span.file).getD ROOT_FILE)

/-- A span of a hole, in the file. -/
def shift (abs : Nat) (file : Nat) (span : Span) : Span :=
  ⟨span.start + abs, span.stop + abs, file⟩

/-- An expression, and nothing behind it. -/
def parseWhole (input : Input) (modulePaths : List (String × String)) :
    Except ParseError Expression :=
  match parseExpression (deeper input MAX_NESTING_DEPTH) (Parser.new modulePaths) with
  | .error e _ => .error e
  | .ok expression s =>
    if input.tokens.length ≤ s.pos ∨ (tokenAt input s.pos).kind = .eof then .ok expression
    else
      .error ⟨.interpolationHole, "an interpolation hole holds a single expression",
        (tokenAt input s.pos).span, none⟩

/-- `parse_hole`.  A hole is shorter than the text it stands in, so that `fuel` for its length is
enough. -/
def parseHole : (fuel : Nat) → (file : Nat) → (src : String) → (abs : Nat) →
    (modulePaths : List (String × String)) → Except ParseError Expression
  | 0, file, _, abs, _ => .error ⟨.interpolationHole, "", ⟨abs, abs, file⟩, none⟩
  | fuel + 1, file, src, abs, modulePaths =>
    match Lexer.tokenizeInFile grammar.xid src file with
    | .error e =>
      let (message, span) := grammar.lexerMessage src e
      .error ⟨.lexer e, "in interpolation hole: " ++ message, shift abs file span, none⟩
    | .ok tokens =>
      let tokens := tokens.map fun token => { token with span := shift abs file token.span }
      parseWhole (grammar.input tokens abs (parseHole fuel)) modulePaths

/-- The parser over the tokens of a text. -/
def inputOf (source : String) (tokens : List Token) : Input :=
  grammar.input tokens 0 (grammar.parseHole source.length)

/-- `Parser::parse`, with what it wrote down. -/
def parseUses (source : String) (tokens : List Token) :
    EStateM.Result ParseError Parser Modules.Parsed :=
  let input := grammar.inputOf source tokens
  parseProgram input (deeper input MAX_NESTING_DEPTH) (Parser.new [])

/-- `parse` -/
def parse (source : String) (tokens : List Token) : Except ParseError Modules.Parsed :=
  match grammar.parseUses source tokens with
  | .ok parsed _ => .ok parsed
  | .error e _ => .error e

end Grammar

end Quilon
