import Quilon.Ast.Nodes
import Quilon.Runtime.Bidi

/-!
# Tokens

The token kinds and the lexer's errors of `src/lexer/token.rs`.  The value a number in scientific
notation would have, which only its error message shows, is left out.
-/

namespace Quilon.Lexer

/-- One piece of a string literal; a hole's offset is that of its source in the text. -/
inductive StrChunk where
  | lit (text : String)
  | hole (src : String) (offset : Nat)
deriving DecidableEq

inductive BidiIssue where
  | unclosed (ch : Char) (token : String)
  | strayCloser (ch : Char) (token : String)
  | outside (ch : Char)
deriving DecidableEq

inductive TokenLexError where
  | invalidToken
  | unterminatedString
  | bidi (issue : BidiIssue)
  | scientificNotation
deriving DecidableEq

inductive TokenKind where
  | number (value : Rat)
  | string (chunks : List StrChunk)
  | true_
  | false_
  | underscore
  | ident
  | assign
  | mutAssign
  | arrow
  | returnArrow
  | leftArrow
  /-- `TypeAnnotation`: `::` -/
  | doubleColon
  | at_
  | entryPoint
  | unit
  | export_
  | import_
  | trap
  | question
  | pipe
  | blockOpen
  | blockClose
  /-- A `blockClose` that is a comparison, see `reclassifyGt`. -/
  | gt
  | braceOpen
  | braceClose
  | parenOpen
  | parenClose
  | bracketOpen
  | bracketClose
  | comma
  | dot
  | plus
  | minus
  | star
  | slash
  | percent
  | plusMinus
  | minusPlus
  | eq
  | ne
  | le
  | ge
  | and
  | or
  | not
  | colon
  | backtick
  | eof
deriving DecidableEq

/-- The kinds an operand begins with. -/
def TokenKind.startsOperand : TokenKind → Bool
  | .number _ | .string _ | .true_ | .false_ | .unit | .at_ | .ident | .parenOpen | .bracketOpen
  | .braceOpen | .minus | .not => true
  | _ => false

structure Token where
  kind : TokenKind
  span : Span
  text : String
  firstOnLine : Bool
deriving DecidableEq

end Quilon.Lexer
