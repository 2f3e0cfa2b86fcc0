import Quilon.Parser.Exprs
import Quilon.Testing.Selection

/-!
# Declarations and blocks

`src/parser/ast_parser/items.rs`: imports, items, functions, types and `< >` blocks.  The spans of
a variant's payload are left out.
-/

namespace Quilon.Parser

open Lexer (Token TokenKind StrChunk)
open Modules (ModulePath Import)

variable (input : Input) (deeper : Deeper)

/-! ### Functions -/

/-- The body of a definition. -/
def parseBody (what : String) : ParserM Expression := do
  if ← check input .blockOpen then deeper.block
  else
    let token ← peek input
    throw ⟨.bodyNotABlock, s!"a {what} body must be a `< >` block — write `=> < … >`", token.span,
      none⟩

def parseFunctionDeclaration (name : String) (start : Nat) (bindingType : Option Ty)
    (exported : Bool) : ParserM Item := do
  let parameters ← parseParameterList input deeper
  let returnType ← parseReturnType input deeper
  expect input .arrow
  let body ← parseBody input deeper "function"
  return .functionDeclaration {
    name, parameters, returnType, bindingType, body, exported
    fromCorelib := false
    span := ← spanFrom input start }

/-! ### Types -/

abbrev MemberBlock := List (String × Ty) × List MethodDeclaration

/-- The name of a member. -/
def parseMemberBlockName : ParserM String := do
  let token ← peek input
  let next ← peekAhead input 1
  let definedOperator ← operatorDefName input
  let operator := ((← operatorSymbolName input).filter fun _ => next.kind = .mutAssign).getD ""
  if token.kind = .backtick then
    advance input
    return "`"
  else if definedOperator.isSome then
    advance input
    return definedOperator.getD ""
  else if operator ≠ "" then
    throw ⟨.operatorMemberMutable,
      s!"operator member `{operator}` cannot be declared with `:=` — an operator yields a value " ++
        "and never mutates `it`",
      token.span, some s!"declare it with `=`: `{operator} = (other) => …`"⟩
  else if token.kind = .at_ then
    advance input
    let name ← expectDefinitionName input
    return "@" ++ name
  else expectDefinitionName input

/-- A method, the cursor at its `=` or `:=`. -/
def parseMethod (name : String) : ParserM MethodDeclaration := do
  let token ← peek input
  let mutating := decide (token.kind = .mutAssign)
  if mutating ∧ name = "`" then
    throw ⟨.operatorMemberMutable, ("the render member `` ` `` cannot be declared with `:=` — " ++
        "it renders a value rather than mutating `it`"),
      token.span, some "declare it with `=`: `` ` = () -> Text => < … > ``"⟩
  else
    advance input
    let start := (← currentSpan input).start
    let parameters ← parseParameterList input deeper
    let returnType ← parseReturnType input deeper
    expect input .arrow
    let body ← parseBody input deeper "method"
    return { name, parameters, returnType, body, mutating, span := ← spanFrom input start }

/-- A field or a method, behind its name. -/
def parseMember (name : String) (members : MemberBlock) : ParserM MemberBlock := do
  let token ← peek input
  if token.kind = .doubleColon then
    advance input
    let type ← deeper.type
    return (members.1 ++ [(name, type)], members.2)
  else if token.kind = .assign ∨ token.kind = .mutAssign then
    let method ← parseMethod input deeper name
    return (members.1, members.2 ++ [method])
  else
    throw ⟨.unexpectedToken,
      s!"expected `::`, `=` or `:=` after the member name, found {token.kind.describe}",
      token.span, none⟩

/-- One more member, if the block has one. -/
def parseNextMember (members : MemberBlock) : ParserM (Option MemberBlock) := do
  if (← check input .braceClose) || (← isAtEnd input) then return none
  else
    let name ← parseMemberBlockName input
    let members ← parseMember input deeper name members
    -- The comma is optional.
    if ← check input .comma then
      advance input
      return some members
    else return some members

def parseMemberBlock : ParserM MemberBlock := do
  expect input .braceOpen
  let members ← loop input (parseNextMember input deeper) ([], [])
  expect input .braceClose
  return members

def parseTypeDeclaration (name : String) (start : Nat) (exported : Bool) : ParserM Item := do
  let (fields, methods) ← parseMemberBlock input deeper
  return .typeDeclaration {
    name
    typeDefinition := .record fields methods
    exported
    span := ← spanFrom input start }

/-- `type_label` -/
def typeLabel : Ty → String
  | .num => "Num"
  | .text => "Text"
  | .bool => "Bool"
  | .unit => "$"
  | .array element => "[]" ++ typeLabel element
  | .map key value => "[|" ++ typeLabel key ++ " => " ++ typeLabel value ++ "|]"
  | .set element => "[|" ++ typeLabel element ++ "|]"
  | .record fields =>
    if fields.isEmpty then "\x7b\x7d"
    else
      let positional := RecordUpdate.recordFieldsArePositional fields
      "\x7b " ++ ", ".intercalate (fieldLabels positional fields) ++ " \x7d"
  | .named name _ _ | .sum name _ => name
  | .function parameters returnType =>
    "(" ++ ", ".intercalate (typeLabels parameters) ++ ") -> " ++ typeLabel returnType
  | .generic _ => "<unknown>"
where
  typeLabels : List Ty → List String
    | [] => []
    | type :: rest => typeLabel type :: typeLabels rest
  fieldLabels (positional : Bool) : List (String × Ty) → List String
    | [] => []
    | (name, type) :: rest =>
      (if positional then typeLabel type else name ++ " :: " ++ typeLabel type) ::
        fieldLabels positional rest

/-- The payload of a variant. -/
def parsePayload (variantName : String) : ParserM (List Ty) := do
  if ← check input .parenOpen then
    let start := (← currentSpan input).start
    advance input
    let fields ← parseCommaSeparated input .parenClose deeper.type
    expect input .parenClose
    if 1 < fields.length then
      let recordForm := ", ".intercalate (fields.map typeLabel)
      throw ⟨.variantMultiplePayloads,
        s!"variant `{variantName}` carries {fields.length} payloads — " ++
          "a variant carries at most one",
        ← spanFrom input start,
        some ("combine them into one record: `" ++ variantName ++ "(\x7b " ++ recordForm ++
          " \x7d)`")⟩
    else return fields
  else return []

def parseVariant : ParserM (String × List Ty) := do
  let name ← expectDefinitionName input
  let span ← previousSpan input
  if input.letters.isCapitalized name then
    let fields ← parsePayload input deeper name
    return (name, fields)
  else
    throw ⟨.variantNotCapitalized,
      s!"sum-type variant `{name}` must start with an uppercase letter", span, none⟩

/-- The variants, `/` between them. -/
def parseVariants : ParserM (List (String × List Ty)) := do
  let first ← parseVariant input deeper
  loop input (fun variants => do
    if ← check input .slash then
      advance input
      let variant ← parseVariant input deeper
      return some (variants ++ [variant])
    else return none) [first]

/-- The block of methods a sum may have. -/
def parseSumMethods (name : String) : ParserM (List MethodDeclaration) := do
  if ← check input .braceOpen then
    let (fields, methods) ← parseMemberBlock input deeper
    if !fields.isEmpty then
      throw ⟨.sumTypeHasFields,
        s!"sum type `{name}` cannot have fields — its `\x7b \x7d` block holds methods only",
        ← previousSpan input,
        some "a sum carries data in its variant payloads: `Name = A(Num) / B`"⟩
    else
      match methods.find? MethodDeclaration.mutating with
      | some method =>
        throw ⟨.sumTypeHasFields,
          s!"sum type `{name}` cannot have a mutating method — `{method.name}` is declared with " ++
            "`:=`, but a sum has no fields to write",
          method.span,
          some ("declare it with `=`; a sum's data lives in its variant payloads: " ++
            s!"`{method.name} = …`")⟩
      | none => return methods
  else return []

def parseSumTypeDeclaration (name : String) (start : Nat) (exported : Bool) : ParserM Item := do
  let variants ← parseVariants input deeper
  let methods ← parseSumMethods input deeper name
  return .typeDeclaration {
    name
    typeDefinition := .sum variants methods
    exported
    span := ← spanFrom input start }

/-! ### Items -/

/-- A binding's value and the binding. -/
def parseVariableDeclaration (isMutable : Bool) (name : String) ( typeAnnotation : Option Ty)
    (start : Nat) (exported atMarker : Bool) : ParserM Item := do
  let value ← parseExpression deeper
  return .variableDeclaration {
    isMutable
    name := (stripAt name).1
    typeAnnotation
    value
    exported
    atomic := atMarker
    span := ← spanFrom input start }

/-- Whether a function follows the `=`. -/
def functionAhead : ParserM Bool := do
  let kind := (← peek input).kind
  let next := (← peekAhead input 1).kind
  if kind = .arrow then return true
  else if kind = .parenOpen then parameterListAhead input
  else return kind = .ident ∧ (next = .arrow ∨ next = .doubleColon ∨ next = .returnArrow)

/-- What a brace behind `name =` opens. -/
inductive BlockKind where
  | field
  | method
  | other
deriving DecidableEq

/-- What the first member of the block at the cursor is. -/
def firstMember : ParserM BlockKind := do
  let name := (← peekAhead input 1).kind
  let behind := (← peekAhead input 2).kind
  let third := (← peekAhead input 3).kind
  let listAhead ← parameterListAheadFrom input 3
  if name = .ident ∨ name = .backtick then
    if behind = .doubleColon then return .field
    else if behind = .assign ∧ (third = .arrow ∨ third = .parenOpen ∧ listAhead) then
      return .method
    else return .other
  else return .other

/-- An item behind its `=` that is no record type. -/
def parseDefinition (name : String) (start : Nat) ( typeAnnotation : Option Ty)
    (exported atMarker : Bool) : ParserM Item := do
  let sumAhead ← looksLikeSumDeclaration input
  if typeAnnotation.isNone ∧ input.letters.isCapitalized name ∧ sumAhead then
    parseSumTypeDeclaration input deeper name start exported
  else if ← functionAhead input then
    parseFunctionDeclaration input deeper name start typeAnnotation exported
  else parseVariableDeclaration input deeper false name typeAnnotation start exported atMarker

/-- An item behind its `=`. -/
def parseImmutable (name : String) (start : Nat) ( typeAnnotation : Option Ty)
    (exported atMarker : Bool) : ParserM Item := do
  if typeAnnotation.isNone && (← check input .braceOpen) then
    match ← firstMember input with
    | .field => parseTypeDeclaration input deeper name start exported
    | .method =>
      if ← memberBlockHasField input then parseTypeDeclaration input deeper name start exported
      else
        throw ⟨.ambiguousTypeDeclaration,
          "`" ++ name ++ " = \x7b … \x7d` is ambiguous — every member here is method-shaped and " ++
            "there is no `::` field to settle it",
          ← currentSpan input,
          some ("add a `::` field to make this a type declaration (`" ++ name ++
            " = \x7b v :: Num, f = => 1 \x7d`), or replace the method bodies with plain values " ++
            "to make it a record literal (`" ++ name ++ " = \x7b f = 1 \x7d`)")⟩
    | .other => parseDefinition input deeper name start typeAnnotation exported atMarker
  else parseDefinition input deeper name start typeAnnotation exported atMarker

/-- An item behind its name. -/
def parseBinding (name : String) (start : Nat) (exported atMarker : Bool) : ParserM Item := do
  if ← checkSameLine input .dot then
    throw ⟨.notAnImportedModule, s!"`{name}` is not an imported module here",
      ← currentSpan input,
      some (s!"a qualified name like `{name}.<member>(...)` needs its `<<` import above this " ++
        "line — a `test.describe` suite imports `<< core.test`")⟩
  else
    let typeAnnotation ← parseDeclaredType input deeper
    if ← check input .mutAssign then
      advance input
      parseVariableDeclaration input deeper true name typeAnnotation start exported atMarker
    else
      expect input .assign
      parseImmutable input deeper name start typeAnnotation exported atMarker

/-- An optional `>>`. -/
def parseExported : ParserM Bool := do
  if ← check input .export_ then
    advance input
    return true
  else return false

def parseItem : ParserM Item := do
  let start := (← currentSpan input).start
  let exported ← parseExported input
  match ← operatorDefName input with
  | some operator =>
    advance input
    expect input .assign
    parseFunctionDeclaration input deeper operator start none exported
  | none =>
    if ← check input .at_ then
      advance input
      let name ← expectDefinitionName input
      parseBinding input deeper ("@" ++ name) start exported true
    else
      let name ← expectDefinitionName input
      parseBinding input deeper name start exported false

/-! ### Blocks -/

/-- Whether a binding begins at the cursor. -/
def bindingAhead : ParserM Bool := do
  let kind := (← peek input).kind
  let next := (← peekAhead input 1).kind
  let third := (← peekAhead input 2).kind
  return decide (kind = .ident ∧ (next = .assign ∨ next = .mutAssign ∨ next = .doubleColon) ∨
    kind = .at_ ∧ next = .ident ∧ (third = .mutAssign ∨ third = .doubleColon))

/-- One more statement, if the block has one. -/
def parseStatement (statements : List Statement) : ParserM (Option (List Statement)) := do
  if (← check input .blockClose) || (← isAtEnd input) then return none
  else if ← check input .export_ then
    throw ⟨.exportMarkerAsBlockClosers, "`>>` here is the export marker, not two block closers",
      ← currentSpan input, some "separate them with a space: `> >`"⟩
  else if ← bindingAhead input then
    let item ← parseItem input deeper
    return some (statements ++ [.item item])
  else
    let expression ← parseExpression deeper
    return some (statements ++ [.expression expression])

/-- Remember the `>` at the cursor if it closes the block because it ends its line, and the block
began on a line before. -/
def rememberBlockClose (bodyStart : Nat) : ParserM Unit := do
  let closer ← peek input
  let stop ← position
  let several := ((input.tokens.take stop).drop bodyStart).any Token.firstOnLine
  if closer.kind = .blockClose ∧ closer.firstOnLine = false ∧ several then
    modify fun s => { s with lastLineFinalBlockClose := some closer.span }
  else return ()

def parseBlockInner : ParserM Expression := do
  let start := (← currentSpan input).start
  let openPlace ← position
  expect input .blockOpen
  let bodyStart ← position
  let statements ← loop input (parseStatement input deeper) []
  rememberBlockClose input bodyStart
  let closePlace ← position
  expect input .blockClose
  noteUse openPlace .blockOpen
  noteUse closePlace .blockClose
  return .block statements (← spanFrom input start)

/-! ### Programs -/

/-- The segments of a module's dotted name. -/
def parseDottedPath : ParserM (List String) := do
  let first ← expectIdent input
  loop input (fun parts => do
    if ← check input .dot then
      advance input
      let part ← expectIdent input
      return some (parts ++ [part])
    else return none) [first]

def parseImportPath : ParserM ModulePath := do
  let token ← peek input
  match token.kind with
  | .string chunks =>
    let value ← plainStringLiteral input chunks token.span .importPathInterpolated
      "an import path is a plain string literal"
    return .filePath value
  | _ => return .builtinDotted (← parseDottedPath input)

def parseImport : ParserM Import := do
  let start := (← currentSpan input).start
  expect input .import_
  let path ← parseImportPath input
  registerImport path
  return ⟨path, ← spanFrom input start⟩

def parseTrapDeclaration : ParserM TrapDeclaration := do
  let start := (← currentSpan input).start
  expect input .trap
  let arms ← parseArmList input deeper
  match arms.getLast? with
  | none =>
    throw ⟨.emptyTrap, "a signal trap needs at least one `|` arm", ← spanFrom input start, none⟩
  | some last => return ⟨arms, spanOf input start last.span.stop⟩

/-- `at_test_block`: a call of the harness's `describe`. -/
def atTestBlock : ParserM Bool := do
  if ← atPossibleModuleChain input then
    let segments := dottedChainAtCursor (← tokensAhead input)
    match resolveChain (← get).modulePaths segments with
    | none => return false
    | some (canonical, member, prefixLen) =>
      let next ← peekAhead input (2 * prefixLen + 1)
      return decide (canonical ++ "." ++ member = Testing.testBlockMarker ∧
        segments.length = prefixLen + 1 ∧ next.kind = .parenOpen ∧ next.firstOnLine = false)
  else return false

/-- One construct of the top level. -/
def parseConstruct (parsed : Modules.Parsed) : ParserM Modules.Parsed := do
  if ← check input .import_ then
    let import_ ← parseImport input
    return { parsed with imports := parsed.imports ++ [import_] }
  else if ← atTestBlock input then
    let block ← parseExpression deeper
    return { parsed with testBlocks := parsed.testBlocks ++ [block] }
  else if ← check input .trap then
    let trap ← parseTrapDeclaration input deeper
    return { parsed with items := parsed.items ++ [.trapDeclaration trap] }
  else
    let item ← parseItem input deeper
    return { parsed with items := parsed.items ++ [item] }

/-- `blame_early_block_close` -/
def blameEarlyBlockClose (lastLineFinalBlockClose : Option Span) (error : ParseError) :
    ParseError :=
  match lastLineFinalBlockClose with
  | some span =>
    ⟨.earlyBlockClose, "this `>` closed its block because it ended the line", span,
      some "to compare, put the right operand on the same line as `>`"⟩
  | none => error

/-- Forget the `>` that was remembered before a construct that parsed, unless another one was
remembered since; blame it for one that did not. -/
def blaming {α : Type} (construct : ParserM α) : ParserM α := fun s =>
  match construct s with
  | .ok a s' =>
    if s'.lastLineFinalBlockClose = s.lastLineFinalBlockClose then
      .ok a { s' with lastLineFinalBlockClose := none }
    else .ok a s'
  | .error e s' => .error (blameEarlyBlockClose s'.lastLineFinalBlockClose e)
      { s' with lastLineFinalBlockClose := none }

/-- One more construct, if the file has one. -/
def parseNextConstruct (parsed : Modules.Parsed) : ParserM (Option Modules.Parsed) := do
  if ← isAtEnd input then return none
  else
    let parsed ← blaming (parseConstruct input deeper parsed)
    return some parsed

def parseProgram : ParserM Modules.Parsed :=
  loop input (parseNextConstruct input deeper) ⟨[], [], []⟩

end Quilon.Parser
