import Quilon.Ast.Types
import Quilon.Parser.Lookahead
import Quilon.Typechecker.RecordUpdate

/-!
# Written types

`src/parser/ast_parser/types.rs`.
-/

namespace Quilon.Parser

open Lexer (Token TokenKind)
open RecordUpdate (canonicalRecordFieldOrder)

/-- The rules that `nested` runs one level deeper. -/
structure Deeper where
  assignment : ParserM Expression
  unary : ParserM Expression
  block : ParserM Expression
  pattern : ParserM Pattern
  type : ParserM Ty

variable (input : Input) (deeper : Deeper)

/-- A closing pipe fence. -/
def expectFenceClose : ParserM Unit := do
  expect input .pipe
  expect input .bracketClose

/-- `positional_field_name` -/
def positionalFieldName (index : Nat) : String := toString index

/-- The names of positional fields, in order. -/
def positionalFields {α : Type} (values : List α) : List (String × α) :=
  values.mapIdx fun index value => (positionalFieldName index, value)

/-- One entry of a record type: a name it may have, and its type. -/
def parseRecordTypeEntry : ParserM (Option String × Ty) := do
  let next ← peekAhead input 1
  if (← check input .ident) && next.kind = .doubleColon then
    let name ← expectDefinitionName input
    expect input .doubleColon
    return (some name, ← deeper.type)
  else return (none, ← deeper.type)

/-- `parse_anonymous_record_type` -/
def parseAnonymousRecordType : ParserM Ty := do
  let start := (← currentSpan input).start
  expect input .braceOpen
  let entries ← parseCommaSeparated input .braceClose (parseRecordTypeEntry input deeper)
  expect input .braceClose
  let span ← spanFrom input start
  let positional := entries.filter fun entry => entry.1.isNone
  if entries.isEmpty then
    throw ⟨.unexpectedToken, "a record type names at least one field", span, none⟩
  else if 0 < positional.length ∧ positional.length < entries.length then
    throw ⟨.mixedRecordFields, "a record type is all named fields or all positional — not both",
      span, some ("write every field as `name :: Type`, or drop the names for a positional " ++
        "type: `\x7b T1, T2 \x7d`")⟩
  else if 0 < positional.length then
    return .record (canonicalRecordFieldOrder (positionalFields (entries.map Prod.snd)))
  else
    return .record (canonicalRecordFieldOrder (entries.map fun entry => (entry.1.getD "", entry.2)))

/-- `parse_fenced_type` -/
def parseFencedType : ParserM Ty := do
  expect input .bracketOpen
  expect input .pipe
  let first ← deeper.type
  if ← check input .arrow then
    advance input
    let value ← deeper.type
    expectFenceClose input
    return .map first value
  else
    expectFenceClose input
    return .set first

/-- `parse_function_type` -/
def parseFunctionType : ParserM Ty := do
  expect input .parenOpen
  let parameters ← parseCommaSeparated input .parenClose deeper.type
  expect input .parenClose
  expect input .returnArrow
  return .function parameters (← deeper.type)

/-- A type that is one word. -/
def parseTypeName : ParserM Ty := do
  let token ← peek input
  if token.text = "Num" then
    advance input
    return .num
  else if token.text = "Text" then
    advance input
    return .text
  else if token.text = "Bool" then
    advance input
    return .bool
  else if token.text = "Result" then
    advance input
    return Ty.result
  else if input.letters.isCapitalized token.text then
    advance input
    return .named token.text [] []
  else
    throw ⟨.unexpectedToken, s!"expected a type, found {token.kind.describe}", token.span, none⟩

/-- `parse_type_inner` -/
def parseTypeInner : ParserM Ty := do
  match ← tryParseModuleMember input with
  | some (name, _) => return .named name [] []
  | none =>
    let kind := (← peek input).kind
    let next := (← peekAhead input 1).kind
    if kind = .unit then
      advance input
      return .unit
    else if kind = .braceOpen then parseAnonymousRecordType input deeper
    else if kind = .bracketOpen ∧ next = .pipe then parseFencedType input deeper
    else if kind = .parenOpen then parseFunctionType input deeper
    else if kind = .bracketOpen then
      advance input
      expect input .bracketClose
      return .array (← deeper.type)
    else parseTypeName input

/-- An optional `:: Type`. -/
def parseDeclaredType : ParserM (Option Ty) := do
  if ← check input .doubleColon then
    advance input
    return some (← deeper.type)
  else return none

/-- An optional `-> Type`. -/
def parseReturnType : ParserM (Option Ty) := do
  if ← check input .returnArrow then
    advance input
    return some (← deeper.type)
  else return none

end Quilon.Parser
