import Quilon.Parser.Cursor

/-!
# Looking ahead

`src/parser/ast_parser/lookahead.rs`: the scans that decide which rule of the grammar applies.  A
scan runs over the tokens from the cursor on, and ends at the end of the file.
-/

namespace Quilon.Parser

open Lexer (Token TokenKind)

variable (input : Input)

/-- The tokens behind the parenthesis that closes the `depth` open ones. -/
def behindParens : (depth : Nat) → List Token → Option (List Token)
  | _, [] => none
  | depth, token :: rest =>
    match token.kind with
    | .parenOpen => behindParens (depth + 1) rest
    | .parenClose => if depth = 1 then some rest else behindParens (depth - 1) rest
    | .eof => none
    | _ => behindParens depth rest

/-- `looks_like_sum_declaration`, of the tokens from the cursor on. -/
def startsSumDeclaration : List Token → Bool
  | [] => false
  | first :: rest =>
    if first.kind = .ident ∧ input.letters.isCapitalized first.text then
      -- The first variant's payload list is skipped.
      let behind :=
        if rest.head?.any (·.kind = .parenOpen) then behindParens 0 rest else some rest
      match behind with
      | some (slash :: next :: _) =>
        slash.kind = .slash && next.kind = .ident && input.letters.isCapitalized next.text
      | _ => false
    else false

def looksLikeSumDeclaration : ParserM Bool :=
  return startsSumDeclaration input (← tokensAhead input)

/-- The kinds of the operators a definition may name. -/
def operatorSymbol : TokenKind → Option String
  | .plus => some "+"
  | .minus => some "-"
  | .star => some "*"
  | .slash => some "/"
  | .percent => some "%"
  | .eq => some "=="
  | .ne => some "!="
  | .le => some "<="
  | .ge => some ">="
  | _ => none

/-- `at_operator_definition` -/
def atOperatorDefinition : ParserM Bool := do
  let next ← peekAhead input 1
  return (operatorSymbol (← peek input).kind).isSome && next.kind = .assign

/-- Whether an `=>` ends the annotation of a parameter, outside braces. -/
def annotationEndsInArrow : (braceDepth : Int) → List Token → Bool
  | _, [] => false
  | braceDepth, token :: rest =>
    match token.kind with
    | .braceOpen => annotationEndsInArrow (braceDepth + 1) rest
    | .braceClose => annotationEndsInArrow (braceDepth - 1) rest
    | .arrow => if braceDepth = 0 then true else annotationEndsInArrow braceDepth rest
    | .eof => false
    | .blockOpen | .comma =>
      if braceDepth = 0 then false else annotationEndsInArrow braceDepth rest
    | _ => annotationEndsInArrow braceDepth rest

/-- `looks_like_bare_lambda`, the cursor at a name. -/
def looksLikeBareLambda : ParserM Bool := do
  if (← get).suppressLambda then return false
  else
    match (← peekAhead input 1).kind with
    | .arrow => return true
    | .doubleColon => return annotationEndsInArrow 0 ((← tokensAhead input).drop 2)
    | _ => return false

/-- Whether a parameter list follows the parenthesis before the tokens. -/
def closesParameterList (tokens : List Token) : Bool :=
  match behindParens 1 tokens with
  | some (next :: _) => next.kind = .arrow || next.kind = .returnArrow
  | _ => false

/-- `parameter_list_ahead_from` -/
def parameterListAheadFrom (offset : Nat) : ParserM Bool :=
  return closesParameterList ((← tokensAhead input).drop (offset + 1))

def parameterListAhead : ParserM Bool := parameterListAheadFrom input 0

def parenStartsLambda : ParserM Bool := do
  let suppressLambda := (← get).suppressLambda
  return !suppressLambda && (← parameterListAhead input)

/-- The kinds an operand ends with, as `member_block_has_field` has them. -/
def endsOperand : TokenKind → Bool
  | .number _ | .string _ | .true_ | .false_ | .unit | .ident | .backtick | .parenClose
  | .bracketClose | .braceClose | .blockClose => true
  | _ => false

/-- How many delimiters of each kind are open. -/
structure Depths where
  brace : Int
  paren : Int
  bracket : Int
  block : Int
deriving DecidableEq

/-- The depths behind a token. -/
def Depths.behind (previous : TokenKind) (depths : Depths) : TokenKind → Depths
  | .braceOpen => { depths with brace := depths.brace + 1 }
  | .braceClose => { depths with brace := depths.brace - 1 }
  | .parenOpen => { depths with paren := depths.paren + 1 }
  | .parenClose => { depths with paren := depths.paren - 1 }
  | .bracketOpen => { depths with bracket := depths.bracket + 1 }
  | .bracketClose => { depths with bracket := depths.bracket - 1 }
  | .blockOpen =>
    if endsOperand previous then depths else { depths with block := depths.block + 1 }
  | .blockClose => { depths with block := depths.block - 1 }
  | _ => depths

/-- The scan of `member_block_has_field`. -/
def hasField (previous : TokenKind) (depths : Depths) : List Token → Bool
  | [] => false
  | token :: rest =>
    if depths = ⟨1, 0, 0, 0⟩ ∧ (token.kind = .ident ∨ token.kind = .backtick) ∧
        rest.head?.any (·.kind = .doubleColon) then true
    else if token.kind = .braceClose ∧ depths.brace = 1 then false
    else if token.kind = .eof then false
    else hasField token.kind (depths.behind previous token.kind) rest

/-- `member_block_has_field`, the cursor at the brace. -/
def memberBlockHasField : ParserM Bool :=
  return hasField .braceOpen ⟨1, 0, 0, 0⟩ ((← tokensAhead input).drop 1)

def operatorSymbolName : ParserM (Option String) :=
  return operatorSymbol (← peek input).kind

/-- The operator a definition begins with. -/
def operatorDefName : ParserM (Option String) := do
  let next ← peekAhead input 1
  return (← operatorSymbolName input).filter fun _ => next.kind = .assign

end Quilon.Parser
