import Quilon.Lexer.Scan
import Quilon.Library.Utf8

/-!
# The string scanners on bytes

`scan_hole_end`, `scan_string_end` and `lex_string` of `src/lexer/token.rs` as they run, on the
bytes of a text; `Scan.lean` has them on its characters.  Slicing a text off a character boundary
ends the program (`none`).
-/

namespace Quilon.Lexer.Bytes

open Bidi (ScopeStack)
open Utf8 (decodeChar? decode?)

def NEWLINE : UInt8 := 10
def RETURN : UInt8 := 13
def QUOTE : UInt8 := 34
def BACKSLASH : UInt8 := 92
def BACKTICK : UInt8 := 96

def isNewline (b : UInt8) : Bool := b = NEWLINE || b = RETURN

mutual

/-- The index of the backtick that closes a hole, from just past the one that opens it. -/
def scanHoleEnd : List UInt8 → Except TokenLexError Nat
  | [] => .error .invalidToken
  | b :: bytes =>
    if isNewline b then .error .unterminatedString
    else if b = BACKTICK then .ok 0
    else if b = QUOTE then do
      let skipped ← scanStringEnd bytes
      let rest ← scanHoleEnd (bytes.drop skipped)
      return 1 + skipped + rest
    else do
      let rest ← scanHoleEnd bytes
      return 1 + rest
termination_by bytes => bytes.length
decreasing_by
  all_goals
    simp only [List.length_cons, List.length_drop]
    omega

/-- The index just past the closing quote, from just past the opening one. -/
def scanStringEnd : List UInt8 → Except TokenLexError Nat
  | [] => .error .invalidToken
  | b :: bytes =>
    if isNewline b then .error .unterminatedString
    else if b = BACKSLASH then
      if bytes.head?.any isNewline then .error .unterminatedString
      else do
        let rest ← scanStringEnd (bytes.drop 1)
        return 2 + rest
    else if b = QUOTE then .ok 1
    else if b = BACKTICK then
      if bytes.head? = some BACKTICK then do
        let rest ← scanStringEnd (bytes.drop 1)
        return 2 + rest
      else do
        let hole ← scanHoleEnd bytes
        let rest ← scanStringEnd (bytes.drop (hole + 1))
        return 1 + hole + 1 + rest
    else do
      let rest ← scanStringEnd bytes
      return 1 + rest
termination_by bytes => bytes.length
decreasing_by
  all_goals
    simp only [List.length_cons, List.length_drop]
    omega

end

/-- What an escape stands for. -/
def escaped (b : UInt8) : Option Char :=
  if b = 110 then some '\n'
  else if b = 114 then some '\r'
  else if b = 116 then some '\t'
  else if b = 101 then some '\u001b'
  else if b = QUOTE then some '"'
  else if b = BACKSLASH then some '\\'
  else if b = 60 then some '<'
  else none

/-- The chunks behind some more bytes. -/
def behind (n : Nat) (result : Except TokenLexError (List StrChunk × Nat)) :
    Except TokenLexError (List StrChunk × Nat) :=
  result.map fun (chunks, more) => (chunks, n + more)

/-- The loop of `lex_string`: the chunks, and how many bytes they take. -/
def lexStringFrom (offset : Nat) (chunks : List StrChunk) (lit : List Char) (scopes : ScopeStack)
    (rem : List UInt8) : Option (Except TokenLexError (List StrChunk × Nat)) :=
  match rem with
  | [] => some (.error .invalidToken)
  | b :: bytes =>
    if isNewline b then some (.error .unterminatedString)
    else if b = QUOTE then
      match scopes.unclosed with
      | some ch => some (.error (.bidi (.unclosed ch "string literal")))
      | none =>
        if lit ≠ [] ∨ chunks = [] then some (.ok (chunks ++ [.lit (.ofList lit)], 1))
        else some (.ok (chunks, 1))
    else if b = BACKSLASH then
      match bytes with
      | [] => some (.error .invalidToken)
      | e :: bytes =>
        if isNewline e then some (.error .unterminatedString)
        else
          match escaped e with
          | none => some (.error .invalidToken)
          | some decoded =>
            (lexStringFrom (offset + 2) chunks (lit ++ [decoded]) scopes bytes).map (behind 2)
    else if b = BACKTICK then
      if bytes.head? = some BACKTICK then
        (lexStringFrom (offset + 2) chunks (lit ++ ['`']) scopes (bytes.drop 1)).map (behind 2)
      else
        match scanHoleEnd bytes with
        | .error e => some (.error e)
        | .ok hole =>
          match decode? (bytes.take hole) with
          | none => none
          | some src =>
            if src.all isWhiteSpace then some (.error .invalidToken)
            else
              (lexStringFrom (offset + 1 + hole + 1)
                (chunks ++ flushLit lit ++ [.hole (.ofList src) (offset + 1)]) [] scopes
                (bytes.drop (hole + 1))).map (behind (1 + hole + 1))
    else
      match decodeChar? (b :: bytes) with
      | none => none
      | some c =>
        match scopes.feed c with
        | .error ch => some (.error (.bidi (.strayCloser ch "string literal")))
        | .ok scopes =>
          (lexStringFrom (offset + c.utf8Size) chunks (lit ++ [c]) scopes
            ((b :: bytes).drop c.utf8Size)).map (behind c.utf8Size)
termination_by rem.length
decreasing_by
  all_goals simp only [List.length_drop, List.length_cons]
  all_goals try have hpos := c.utf8Size_pos
  all_goals omega

/-- A string literal, from just past its opening quote. -/
def lexString (base : Nat) (rem : List UInt8) :
    Option (Except TokenLexError (List StrChunk × Nat)) :=
  lexStringFrom base [] [] [] rem

/-- `text[start..stop]`; `none` where an end is not a character's. -/
def slice? (text : List UInt8) (start stop : Nat) : Option (List Char) :=
  if start ≤ stop ∧ stop ≤ text.length ∧ (decode? (text.take start)).isSome then
    decode? ((text.take stop).drop start)
  else none

end Quilon.Lexer.Bytes
