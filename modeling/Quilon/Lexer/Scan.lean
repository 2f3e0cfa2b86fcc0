import Quilon.Lexer.Token
import Quilon.Library.Offsets

/-!
# Lexing one token

The token rules of `src/lexer/token.rs` and their callbacks, on characters; offsets are in bytes.
The rules of different shapes begin with different characters, so the longest match is the longest
of one shape.
-/

namespace Quilon.Lexer

open Bidi (ScopeStack)
open Text (isBidiControl)

/-- Unicode's `XID_Start` and `XID_Continue`. -/
structure Xid where
  start : Char → Bool
  continue_ : Char → Bool
  start_ascii : ∀ c : Char, c.toNat < 128 → start c = c.isAlpha
  continue_ascii : ∀ c : Char, c.toNat < 128 → continue_ c = (c.isAlphanum || c = '_')
  start_control : ∀ c, isBidiControl c = true → start c = false
  continue_control : ∀ c, isBidiControl c = true → continue_ c = false

/-- `[ \t\r\n]` -/
def isBlank (c : Char) : Bool := c ∈ [' ', '\t', '\r', '\n']

/-- `[0-9]` -/
def isDigit (c : Char) : Bool := '0' ≤ c && c ≤ '9'

/-! ### Comments -/

/-- Feed every character. -/
def feedScopes (token : String) (scopes : ScopeStack) : List Char → Except TokenLexError ScopeStack
  | [] => .ok scopes
  | c :: cs =>
    match scopes.feed c with
    | .ok scopes => feedScopes token scopes cs
    | .error ch => .error (.bidi (.strayCloser ch token))

/-- A `~` comment. -/
def lexComment (text : List Char) : Except TokenLexError Unit := do
  let scopes ← feedScopes "comment" [] text
  match scopes.unclosed with
  | some ch => throw (.bidi (.unclosed ch "comment"))
  | none => return ()

/-! ### String literals -/

def isNewline (c : Char) : Bool := c = '\n' || c = '\r'

mutual

/-- The place of the backtick that closes a hole, from just past the one that opens it. -/
def scanHoleEnd : List Char → Except TokenLexError Nat
  | [] => .error .invalidToken
  | c :: cs =>
    if isNewline c then .error .unterminatedString
    else if c = '`' then .ok 0
    else if c = '"' then do
      let skipped ← scanStringEnd cs
      let rest ← scanHoleEnd (cs.drop skipped)
      return 1 + skipped + rest
    else do
      let rest ← scanHoleEnd cs
      return 1 + rest
termination_by cs => cs.length
decreasing_by
  all_goals
    simp only [List.length_cons, List.length_drop]
    omega

/-- The place just past the closing quote, from just past the opening one. -/
def scanStringEnd : List Char → Except TokenLexError Nat
  | [] => .error .invalidToken
  | c :: cs =>
    if isNewline c then .error .unterminatedString
    else if c = '\\' then
      if cs.head?.any isNewline then .error .unterminatedString
      else do
        let rest ← scanStringEnd (cs.drop 1)
        return 2 + rest
    else if c = '"' then .ok 1
    else if c = '`' then
      if cs.head? = some '`' then do
        let rest ← scanStringEnd (cs.drop 1)
        return 2 + rest
      else do
        let hole ← scanHoleEnd cs
        let rest ← scanStringEnd (cs.drop (hole + 1))
        return 1 + hole + 1 + rest
    else do
      let rest ← scanStringEnd cs
      return 1 + rest
termination_by cs => cs.length
decreasing_by
  all_goals
    simp only [List.length_cons, List.length_drop]
    omega

end

/-- What an escape stands for. -/
def escaped : Char → Option Char
  | 'n' => some '\n'
  | 'r' => some '\r'
  | 't' => some '\t'
  | 'e' => some '\u001b'
  | '"' => some '"'
  | '\\' => some '\\'
  | '<' => some '<'
  | _ => none

/-- `str::trim().is_empty()`: Unicode's white space only. -/
def isWhiteSpace (c : Char) : Bool :=
  c.toNat ∈ [0x20, 0x85, 0xA0, 0x1680, 0x2028, 0x2029, 0x202F, 0x205F, 0x3000] ||
    (9 ≤ c.toNat && c.toNat ≤ 13) || (0x2000 ≤ c.toNat && c.toNat ≤ 0x200A)

/-- Keep what has been read of a literal part. -/
def flushLit (lit : List Char) : List StrChunk := if lit = [] then [] else [.lit (.ofList lit)]

/-- The loop of `lex_string`; `offset` is that of the characters left.  The chunks, and how many
characters they take. -/
def lexStringFrom (offset : Nat) (chunks : List StrChunk) (lit : List Char) (scopes : ScopeStack)
    (rem : List Char) : Except TokenLexError (List StrChunk × Nat) :=
  match rem with
  | [] => .error .invalidToken
  | c :: cs =>
    if isNewline c then .error .unterminatedString
    else if c = '"' then
      match scopes.unclosed with
      | some ch => .error (.bidi (.unclosed ch "string literal"))
      | none =>
        if lit ≠ [] ∨ chunks = [] then .ok (chunks ++ [.lit (.ofList lit)], 1) else .ok (chunks, 1)
    else if c = '\\' then
      match cs with
      | [] => .error .invalidToken
      | e :: cs =>
        if isNewline e then .error .unterminatedString
        else
          match escaped e with
          | none => .error .invalidToken
          | some decoded => do
            let (chunks, n) ←
              lexStringFrom (offset + 1 + e.utf8Size) chunks (lit ++ [decoded]) scopes cs
            return (chunks, 2 + n)
    else if c = '`' then
      if cs.head? = some '`' then do
        let (chunks, n) ← lexStringFrom (offset + 2) chunks (lit ++ ['`']) scopes (cs.drop 1)
        return (chunks, 2 + n)
      else do
        let hole ← scanHoleEnd cs
        let src := cs.take hole
        if src.all isWhiteSpace then throw .invalidToken
        let (chunks, n) ← lexStringFrom (offset + 1 + extent Char.utf8Size src + 1)
          (chunks ++ flushLit lit ++ [.hole (.ofList src) (offset + 1)]) [] scopes
          (cs.drop (hole + 1))
        return (chunks, 1 + hole + 1 + n)
    else
      match scopes.feed c with
      | .error ch => .error (.bidi (.strayCloser ch "string literal"))
      | .ok scopes => do
        let (chunks, n) ← lexStringFrom (offset + c.utf8Size) chunks (lit ++ [c]) scopes cs
        return (chunks, 1 + n)
termination_by rem.length
decreasing_by all_goals grind

/-- A string literal, from just past its opening quote. -/
def lexString (base : Nat) (rem : List Char) : Except TokenLexError (List StrChunk × Nat) :=
  lexStringFrom base [] [] [] rem

/-! ### The other tokens -/

/-- The value of digits. -/
def digitsValue (digits : List Char) : Nat :=
  digits.foldl (fun value digit => 10 * value + (digit.toNat - '0'.toNat)) 0

/-- `\.?[0-9]*`: how many characters the point takes, the digits behind it, and what is left. -/
def lexFraction : List Char → Nat × List Char × List Char
  | '.' :: rest => (1, rest.takeWhile isDigit, rest.dropWhile isDigit)
  | rest => (0, [], rest)

/-- `[0-9]+\.?[0-9]*`, and how many characters it takes behind the first; an exponent behind it
belongs to the longer rule, which is an error. -/
def lexNumber (c : Char) (cs : List Char) : Except TokenLexError (TokenKind × Nat) :=
  let whole := c :: cs.takeWhile isDigit
  let (point, fraction, rest) := lexFraction (cs.dropWhile isDigit)
  if rest.head? = some 'e' ∨ rest.head? = some 'E' then .error .scientificNotation
  else
    .ok (.number ((digitsValue (whole ++ fraction) : Rat) / (10 : Rat) ^ fraction.length),
      whole.length - 1 + point + fraction.length)

/-- A name, `_`, `true` or `false`. -/
def lexWord (xid : Xid) (c : Char) (cs : List Char) : TokenKind × Nat :=
  let rest := cs.takeWhile xid.continue_
  let word := c :: rest
  (if word = ['t', 'r', 'u', 'e'] then .true_
    else if word = ['f', 'a', 'l', 's', 'e'] then .false_
    else if word = ['_'] then .underscore
    else .ident, rest.length)

/-- The tokens of one or two fixed characters, the longer ones first. -/
def lexSymbol (c : Char) (next : Option Char) : Option (TokenKind × Nat) :=
  match c, next with
  | '=', some '=' => some (.eq, 1)
  | '=', some '>' => some (.arrow, 1)
  | '=', _ => some (.assign, 0)
  | ':', some '=' => some (.mutAssign, 1)
  | ':', some ':' => some (.doubleColon, 1)
  | ':', _ => some (.colon, 0)
  | '-', some '>' => some (.returnArrow, 1)
  | '-', some '+' => some (.minusPlus, 1)
  | '-', _ => some (.minus, 0)
  | '<', some '-' => some (.leftArrow, 1)
  | '<', some '<' => some (.import_, 1)
  | '<', some '=' => some (.le, 1)
  | '<', _ => some (.blockOpen, 0)
  | '>', some '>' => some (.export_, 1)
  | '>', some '=' => some (.ge, 1)
  | '>', _ => some (.blockClose, 0)
  | '!', some '>' => some (.trap, 1)
  | '!', some '=' => some (.ne, 1)
  | '!', _ => some (.not, 0)
  | '+', some '-' => some (.plusMinus, 1)
  | '+', _ => some (.plus, 0)
  | '&', some '&' => some (.and, 1)
  | '|', some '|' => some (.or, 1)
  | '|', _ => some (.pipe, 0)
  | '@', _ => some (.at_, 0)
  | '^', _ => some (.entryPoint, 0)
  | '$', _ => some (.unit, 0)
  | '?', _ => some (.question, 0)
  | '{', _ => some (.braceOpen, 0)
  | '}', _ => some (.braceClose, 0)
  | '(', _ => some (.parenOpen, 0)
  | ')', _ => some (.parenClose, 0)
  | '[', _ => some (.bracketOpen, 0)
  | ']', _ => some (.bracketClose, 0)
  | ',', _ => some (.comma, 0)
  | '.', _ => some (.dot, 0)
  | '*', _ => some (.star, 0)
  | '/', _ => some (.slash, 0)
  | '%', _ => some (.percent, 0)
  | '`', _ => some (.backtick, 0)
  | _, _ => none

end Quilon.Lexer
