import Quilon.Ast.Walk
import Quilon.Diagnostics.SourceMap
import Quilon.Parser

/-!
# Semantic highlighting

`semantic_tokens` of `src/lsp/analysis.rs`, and how the server of `src/lsp.rs` puts its answer on
the wire: each token by its distance from the one before it, in UTF-16 code units.

A `HashSet` of names is a list of which membership counts.  Where a subtraction of the server would
go below zero, its answer here is `none`.
-/

namespace Quilon.Lsp

open Lexer (Token TokenKind)
open SourceMap (positionUtf16)

inductive SemanticTokenKind where
  | blockDelimiter
  | comparisonOperator
  | typeName
  | functionName
  | parameterName
deriving DecidableEq

structure ClassifiedToken where
  span : Span
  kind : SemanticTokenKind
deriving DecidableEq

/-! ### Names -/

/-- The names a document declares, by what they name. -/
structure DeclaredNames where
  types : List String
  functions : List String
  parameters : List String

namespace DeclaredNames

def empty : DeclaredNames := ⟨[], [], []⟩

/-- The names of both. -/
def union (names more : DeclaredNames) : DeclaredNames :=
  ⟨names.types ++ more.types, names.functions ++ more.functions,
    names.parameters ++ more.parameters⟩

/-- The names of all. -/
def ofAll {α : Type} (collect : α → DeclaredNames) (list : List α) : DeclaredNames :=
  list.foldl (fun names a => names.union (collect a)) empty

/-- `collect_parameters` -/
def ofParameters (parameters : List Parameter) : DeclaredNames :=
  ⟨[], [], parameters.map Parameter.name⟩

/-- `collect_item_shallow` -/
def ofItemShallow : Item → DeclaredNames
  | .typeDeclaration declaration => ⟨[declaration.name], [], []⟩
  | .functionDeclaration declaration =>
    (⟨[], [declaration.name], []⟩ : DeclaredNames).union (ofParameters declaration.parameters)
  | .variableDeclaration _ => empty
  -- A trap is no statement of a block.
  | .trapDeclaration _ => empty

/-- What one expression declares by itself. -/
def ofNode : Expression → DeclaredNames
  | .lambda parameters _ _ _ => ofParameters parameters
  | .block statements _ => ofAll (fun statement =>
      match statement with
      | .item item => ofItemShallow item
      | .expression _ => empty) statements
  | _ => empty

/-- `collect_expression` -/
def ofExpression (expression : Expression) : DeclaredNames :=
  ofAll ofNode expression.subexpressions

/-- A method of a declaration of the top level. -/
def ofMethod (method : MethodDeclaration) : DeclaredNames :=
  ((⟨[], [method.name], []⟩ : DeclaredNames).union (ofParameters method.parameters)).union
    (ofExpression method.body)

/-- `collect_item` -/
def ofItem : Item → DeclaredNames
  | .typeDeclaration declaration =>
    (⟨[declaration.name], [], []⟩ : DeclaredNames).union
      (ofAll ofMethod declaration.typeDefinition.methods)
  | .functionDeclaration declaration =>
    ((⟨[], [declaration.name], []⟩ : DeclaredNames).union
      (ofParameters declaration.parameters)).union (ofExpression declaration.body)
  | .variableDeclaration declaration => ofExpression declaration.value
  | .trapDeclaration trap => ofAll (fun arm => ofExpression arm.body) trap.arms

/-- `DeclaredNames::of` -/
def of : Option Modules.Parsed → DeclaredNames
  | none => empty
  | some program => (ofAll ofItem program.items).union (ofAll ofExpression program.testBlocks)

def classify (names : DeclaredNames) (name : String) : Option SemanticTokenKind :=
  if name ∈ names.types then some .typeName
  else if name ∈ names.functions then some .functionName
  else if name ∈ names.parameters then some .parameterName
  else none

end DeclaredNames

/-! ### Tokens -/

/-- The kinds an operand ends with, as the highlighting has them. -/
def endsOperand : TokenKind → Bool
  | .ident | .number _ | .string _ | .true_ | .false_ | .unit | .parenClose | .bracketClose => true
  | _ => false

/-- What a token is highlighted as, behind one of kind `previous`. -/
def classifyToken (names : DeclaredNames) (previous : Option TokenKind) (token : Token) :
    Option SemanticTokenKind :=
  match token.kind with
  | .blockOpen =>
    some (if previous.any endsOperand then .comparisonOperator else .blockDelimiter)
  | .blockClose => some .blockDelimiter
  | .gt => some .comparisonOperator
  | .ident => names.classify token.text
  | _ => none

/-- The loop of `semantic_tokens`. -/
def classifyTokens (names : DeclaredNames) : (previous : Option TokenKind) → List Token →
    List ClassifiedToken
  | _, [] => []
  | previous, token :: rest =>
    ((classifyToken names previous token).map fun kind => ⟨token.span, kind⟩).toList ++
      classifyTokens names (some token.kind) rest

variable (grammar : Grammar)

/-- `parse_text`, of the tokens of the text. -/
def parseTokens (text : String) (tokens : List Token) : Option Modules.Parsed :=
  (grammar.parse text tokens).toOption

/-- `semantic_tokens` -/
def semanticTokens (text : String) : List ClassifiedToken :=
  match Lexer.tokenizeInFile grammar.xid text ROOT_FILE with
  | .error _ => []
  | .ok tokens =>
    classifyTokens (DeclaredNames.of (parseTokens grammar text tokens)) none tokens

/-! ### On the wire -/

/-- `legend_index` -/
def legendIndex : SemanticTokenKind → UInt32
  | .blockDelimiter => 0
  | .comparisonOperator => 1
  | .typeName => 2
  | .functionName => 3
  | .parameterName => 4

structure SemanticToken where
  deltaLine : UInt32
  deltaStart : UInt32
  length : UInt32
  tokenType : UInt32
deriving DecidableEq

/-- A subtraction that does not go below zero. -/
def checkedSub (a b : UInt32) : Option UInt32 := if b ≤ a then some (a - b) else none

/-- One token, behind one that begins at `previous`, if it is of one line; and where it begins. -/
def encodeToken (text : List Char) (previous : UInt32 × UInt32) (token : ClassifiedToken) :
    Option (Option SemanticToken × (UInt32 × UInt32)) := do
  let (line, start) ← positionUtf16 text token.span.start
  let (endLine, stop) ← positionUtf16 text token.span.stop
  if endLine ≠ line then return (none, previous)
  else
    let deltaLine ← checkedSub line previous.1
    let deltaStart ← if line = previous.1 then checkedSub start previous.2 else some start
    let length ← checkedSub stop start
    return (some ⟨deltaLine, deltaStart, length, legendIndex token.kind⟩, (line, start))

/-- The loop of the server's `semantic_tokens`. -/
def encodeFrom (text : List Char) (previous : UInt32 × UInt32) :
    List ClassifiedToken → Option (List SemanticToken)
  | [] => some []
  | token :: rest => do
    let (encoded, behind) ← encodeToken text previous token
    let data ← encodeFrom text behind rest
    return encoded.toList ++ data

/-- The server's answer for a document. -/
def respond (text : String) : Option (List SemanticToken) :=
  encodeFrom text.toList (0, 0) (semanticTokens grammar text)

end Quilon.Lsp
