import Quilon.Lexer.Tokenize
import Quilon.Library.Loops
import Quilon.Modules.Loader

/-!
# The parser's cursor

`src/parser/ast_parser.rs`: what the rules of the grammar are written in.

A `HashMap` is a list of entries of which the first counts.  `depth` is not among the fields: what
runs one level deeper is a parameter of the rules (`Deeper`).  The fields `type_name_uses` and
`variant_declarations`, which the parser only fills, are left out.

`uses` is not in the source: there a rule that makes an operator node or a block writes down
which token it made it of.  No rule reads it.
-/

namespace Quilon

open Lexer (Token TokenKind StrChunk)
open Modules (ModulePath)

/-- The codes of the parser's errors, and that of an error of the lexer. -/
inductive ParseError.Code where
  | unexpectedToken
  | nestingTooDeep
  | nameGluedToSymbol
  | earlyBlockClose
  | interpolationHole
  | nestedMatchNeedsParens
  | emptyMatch
  | emptyTrap
  | interpolatedTextPattern
  | importPathInterpolated
  | leadingZeroPosition
  | mixedRecordFields
  | numberedRecordFieldWithoutSpread
  | tooManyParameters
  | notAnImportedModule
  | ambiguousTypeDeclaration
  | operatorMemberMutable
  | variantNotCapitalized
  | variantMultiplePayloads
  | sumTypeHasFields
  | bodyNotABlock
  | exportMarkerAsBlockClosers
  | lexer (error : Lexer.TokenLexError)
deriving DecidableEq

structure ParseError where
  code : ParseError.Code
  message : String
  span : Span
  /-- The idiomatic fix, when there is one to show. -/
  help : Option String
deriving DecidableEq

namespace Lexer

/-- The symbol of a token that has only one. -/
def TokenKind.symbol : TokenKind → String
  | .true_ => "true"
  | .false_ => "false"
  | .underscore => "_"
  | .assign => "="
  | .mutAssign => ":="
  | .arrow => "=>"
  | .returnArrow => "->"
  | .leftArrow => "<-"
  | .doubleColon => "::"
  | .at_ => "@"
  | .entryPoint => "^"
  | .unit => "$"
  | .export_ => ">>"
  | .import_ => "<<"
  | .trap => "!>"
  | .question => "?"
  | .pipe => "|"
  | .gt => ">"
  | .braceOpen => "\x7b"
  | .braceClose => "\x7d"
  | .parenOpen => "("
  | .parenClose => ")"
  | .bracketOpen => "["
  | .bracketClose => "]"
  | .comma => ","
  | .dot => "."
  | .plus => "+"
  | .minus => "-"
  | .star => "*"
  | .slash => "/"
  | .percent => "%"
  | .plusMinus => "+-"
  | .minusPlus => "-+"
  | .eq => "=="
  | .ne => "!="
  | .le => "<="
  | .ge => ">="
  | .and => "&&"
  | .or => "||"
  | .not => "!"
  | .colon => ":"
  | _ => ""

def TokenKind.describe : TokenKind → String
  | .number _ => "a number"
  | .string _ => "a string literal"
  | .ident => "a name"
  | .eof => "the end of the file"
  | .blockOpen => "a block open `<`"
  | .blockClose => "a block close `>`"
  | .backtick => "the render operator `` ` ``"
  | kind => "`" ++ kind.symbol ++ "`"

/-- `matches!(kind, TokenKind::Number(_))` -/
def TokenKind.isNumber : TokenKind → Bool
  | .number _ => true
  | _ => false

end Lexer

/-- `char::is_uppercase` and `char::to_uppercase`. -/
structure Letters where
  isUppercase : Char → Bool
  toUppercase : Char → List Char
  isUppercase_ascii : ∀ c : Char, c.toNat < 128 → isUppercase c = c.isUpper
  toUppercase_ascii : ∀ c : Char, c.toNat < 128 → toUppercase c = [c.toUpper]

/-- Whether `name` begins with a capital. -/
def Letters.isCapitalized (letters : Letters) (name : String) : Bool :=
  name.toList.head?.any letters.isUppercase

/-- What a token came to be in the tree. -/
inductive Use where
  | blockOpen
  | blockClose
  | operator (operator : BinaryOperator)
deriving DecidableEq

structure Parser where
  pos : Nat
  suppressLambda : Bool
  bareMatchForbidden : Bool
  modulePaths : List (String × String)
  lastLineFinalBlockClose : Option Span
  uses : List (Nat × Use)
deriving DecidableEq

/-- What a parser is given, and never changes. -/
structure Input where
  letters : Letters
  tokens : List Token
  file : Nat
  spanBase : Nat
  /-- `parse_hole`, in the file and with the module paths of this parser -/
  parseHole : (src : String) → (abs : Nat) → (modulePaths : List (String × String)) →
    Except ParseError Expression

abbrev ParserM := EStateM ParseError Parser

def MAX_NESTING_DEPTH : Nat := 128

def MAX_PARAMETERS : Nat := 10

def ROOT_FILE : Nat := 0

namespace Parser

/-- `Parser::new`, with its position and its flags. -/
def new (modulePaths : List (String × String)) : Parser :=
  { pos := 0, suppressLambda := false, bareMatchForbidden := false, modulePaths,
    lastLineFinalBlockClose := none, uses := [] }

variable (input : Input)

/-! ### Tokens -/

/-- The token at a place; past the end, the last one. -/
def tokenAt (i : Nat) : Token :=
  input.tokens.getD i (input.tokens.getLastD ⟨.eof, ⟨0, 0, input.file⟩, "", false⟩)

def peekAhead (offset : Nat) : ParserM Token := fun s => .ok (tokenAt input (s.pos + offset)) s

def peek : ParserM Token := peekAhead input 0

/-- The tokens from the cursor on. -/
def tokensAhead : ParserM (List Token) := fun s => .ok (input.tokens.drop s.pos) s

def check (kind : TokenKind) : ParserM Bool :=
  return (← peek input).kind = kind

/-- `check_same_line`: the token does not begin its line either. -/
def checkSameLine (kind : TokenKind) : ParserM Bool := do
  let token ← peek input
  return token.kind = kind && !token.firstOnLine

def isAtEnd : ParserM Bool := fun s =>
  .ok (input.tokens.length ≤ s.pos || (tokenAt input s.pos).kind = .eof) s

def advance : ParserM Unit := do
  if ← isAtEnd input then return ()
  else modify fun s => { s with pos := s.pos + 1 }

/-- `advance`, that many times. -/
def advanceBy : Nat → ParserM Unit
  | 0 => return ()
  | n + 1 => do
    advance input
    advanceBy n

/-- Write down what the token at `place` came to be. -/
def noteUse (place : Nat) (role : Use) : ParserM Unit :=
  modify fun s => { s with uses := (place, role) :: s.uses }

def position : ParserM Nat := fun s => .ok s.pos s

/-! ### Spans -/

/-- `Parser::span` -/
def spanOf (start stop : Nat) : Span := ⟨start, stop, input.file⟩

def currentSpan : ParserM Span :=
  return (← peek input).span

def previousSpan : ParserM Span := fun s =>
  .ok (if 0 < s.pos then (tokenAt input (s.pos - 1)).span else spanOf input 0 0) s

/-- The span from `start` through the last token taken. -/
def spanFrom (start : Nat) : ParserM Span :=
  return spanOf input start (← previousSpan input).stop

/-! ### Taking a token -/

def expect (kind : TokenKind) : ParserM Unit := do
  if ← check input kind then advance input
  else
    let token ← peek input
    throw ⟨.unexpectedToken, s!"expected {kind.describe}, found {token.kind.describe}", token.span,
      none⟩

def expectIdent : ParserM String := do
  let token ← peek input
  if token.kind = .ident then
    advance input
    return token.text
  else if token.kind = .entryPoint then
    -- `^` is the name of the entry point.
    advance input
    return "^"
  else
    throw ⟨.unexpectedToken, s!"expected a name, found {token.kind.describe}", token.span, none⟩

/-- The kinds that may follow a name with nothing between them. -/
def isAllowedGluedToName : TokenKind → Bool
  | .doubleColon | .assign | .mutAssign | .comma | .parenOpen | .parenClose | .braceOpen
  | .braceClose | .bracketOpen | .bracketClose | .slash | .arrow | .returnArrow | .dot | .eof =>
    true
  | _ => false

/-- `word` with its first letter made a capital. -/
def camelCased (word : String) : String :=
  match word.toList with
  | [] => ""
  | first :: rest => .ofList (input.letters.toUppercase first ++ rest)

/-- `suggested_name_fix`: the words that `-` glues on, folded into the name. -/
def suggestedNameFix (name : String) (stop : Nat) : List Token → String
  | separator :: word :: rest =>
    if separator.kind = .minus ∧ separator.span.start = stop ∧ word.kind = .ident ∧
        word.span.start = separator.span.stop then
      suggestedNameFix (name ++ camelCased input word.text) word.span.stop rest
    else name
  | _ => name

def rejectGluedNameSuffix (name : String) (nameSpan : Span) : ParserM Unit := do
  let next ← peek input
  if next.span.file ≠ nameSpan.file ∨ next.span.start ≠ nameSpan.stop ∨
      isAllowedGluedToName next.kind then
    return ()
  else
    let fixed := suggestedNameFix input name nameSpan.stop (← tokensAhead input)
    throw ⟨.nameGluedToSymbol,
      s!"a name cannot be followed directly by `{next.text}` — a name is letters, digits and `_`",
      next.span, some s!"did you mean `{fixed}`?"⟩

/-- A name where something is defined. -/
def expectDefinitionName : ParserM String := do
  let name ← expectIdent input
  rejectGluedNameSuffix input name (← previousSpan input)
  return name

/-- `plain_string_literal` -/
def plainStringLiteral (chunks : List StrChunk) (span : Span) (code : ParseError.Code)
    (message : String) : ParserM String := do
  advance input
  match chunks with
  | [.lit value] => return value
  | _ => throw ⟨code, message, span, none⟩

/-! ### Flags -/

/-- Run a rule with `bare_match_forbidden` set, and set it back. -/
def withBareMatchForbidden {α : Type} (flag : Bool) (rule : ParserM α) : ParserM α := fun s =>
  match rule { s with bareMatchForbidden := flag } with
  | .ok a s' => .ok a { s' with bareMatchForbidden := s.bareMatchForbidden }
  | .error e s' => .error e { s' with bareMatchForbidden := s.bareMatchForbidden }

/-- Run a rule with `suppress_lambda` set, and set it back. -/
def withSuppressLambda {α : Type} (flag : Bool) (rule : ParserM α) : ParserM α := fun s =>
  match rule { s with suppressLambda := flag } with
  | .ok a s' => .ok a { s' with suppressLambda := s.suppressLambda }
  | .error e s' => .error e { s' with suppressLambda := s.suppressLambda }

/-- What `nested` does past `MAX_NESTING_DEPTH`. -/
def nestingTooDeep {α : Type} : ParserM α := do
  throw ⟨.nestingTooDeep,
    s!"expression nesting too deep: more than {MAX_NESTING_DEPTH} levels", ← currentSpan input,
    some "split the expression into named bindings"⟩

/-! ### Loops -/

/-- A loop of a rule: every round takes a token, so that there are no more rounds than tokens. -/
def loop {α : Type} (round : α → ParserM (Option α)) (a : α) : ParserM α :=
  iterate round (input.tokens.length + 1) a

/-- Items up to `close`, which is left to the caller. -/
def parseCommaSeparated {α : Type} (close : TokenKind) (parseOne : ParserM α) :
    ParserM (List α) := do
  if ← check input close then return []
  else
    let first ← parseOne
    loop input (fun items => do
      if ← check input .comma then
        advance input
        let item ← parseOne
        return some (items ++ [item])
      else return none) [first]

/-! ### Qualified names -/

/-- The segments behind a name, each behind its `.`, on the name's line. -/
def dottedChain : List Token → List String
  | dot :: segment :: rest =>
    if dot.kind = .dot ∧ dot.firstOnLine = false then
      if segment.kind = .ident ∧ segment.firstOnLine = false then segment.text :: dottedChain rest
      else if segment.kind = .at_ ∧ segment.firstOnLine = false then
        match rest with
        | primitive :: _ =>
          if primitive.kind = .ident ∧ primitive.firstOnLine = false then ["@" ++ primitive.text]
          else []
        | [] => []
      else []
    else []
  | _ => []

/-- `dotted_chain_at_cursor`, of the tokens from the cursor on. -/
def dottedChainAtCursor : List Token → List String
  | token :: rest => if token.kind = .ident then token.text :: dottedChain rest else []
  | [] => []

/-- The canonical name of the longest proper prefix that is a module path, the segment behind it,
and how many segments it has. -/
def resolveChain (modulePaths : List (String × String)) (segments : List String) :
    Option (String × String × Nat) :=
  (List.range' 1 (segments.length - 1)).reverse.findSome? fun prefixLen =>
    (modulePaths.lookup (".".intercalate (segments.take prefixLen))).map fun canonical =>
      (canonical, segments.getD prefixLen "", prefixLen)

/-- `at_possible_module_chain` -/
def atPossibleModuleChain : ParserM Bool := do
  let modulePaths := (← get).modulePaths
  let dot ← peekAhead input 1
  return !modulePaths.isEmpty && (← check input .ident) && dot.kind = .dot && !dot.firstOnLine

def tryParseModuleMember : ParserM (Option (String × Span)) := do
  if ← atPossibleModuleChain input then
    let segments := dottedChainAtCursor (← tokensAhead input)
    match resolveChain (← get).modulePaths segments with
    | none => return none
    | some (_, member, prefixLen) =>
      let start := (← currentSpan input).start
      let name := ".".intercalate (segments.take prefixLen) ++ "." ++ member
      advanceBy input (2 * prefixLen + if member.toList.head? = some '@' then 2 else 1)
      return some (name, ← spanFrom input start)
  else return none

/-- The name at the cursor, its span, and whether it is qualified. -/
def parseNameOrQualified : ParserM (String × Span × Bool) := do
  match ← tryParseModuleMember input with
  | some (name, span) => return (name, span, true)
  | none =>
    let token ← peek input
    advance input
    return (token.text, token.span, false)

/-- `Path::file_stem`, of a path whose separators are `/`. -/
def fileStem (raw : List Char) : Option (List Char) :=
  match ((raw.splitOn '/').filter fun part => part ≠ [] ∧ part ≠ ['.']).getLast? with
  | none => none
  | some last =>
    if last = ['.', '.'] then none
    else
      match last.reverse.span (· ≠ '.') with
      | (_, []) | (_, [_]) => some last
      | (_, _ :: stem) => some stem.reverse

/-- `ModulePath::binding_name` -/
def bindingName : ModulePath → Option String
  | .builtinDotted parts => parts.getLast?
  | .filePath raw =>
    (fileStem (raw.toList.map fun c => if c = '\\' then '/' else c)).map String.ofList

def registerImport (path : ModulePath) : ParserM Unit :=
  match bindingName path with
  | none => return ()
  | some binding =>
    let canonical :=
      match path with
      | .builtinDotted parts => ".".intercalate parts
      | .filePath _ => binding
    modify fun s =>
      { s with modulePaths := (canonical, canonical) :: (binding, canonical) :: s.modulePaths }

end Parser

end Quilon
