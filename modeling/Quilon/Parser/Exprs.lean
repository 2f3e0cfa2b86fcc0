import Quilon.Parser.Types

/-!
# Expressions

`src/parser/ast_parser/exprs.rs` and `patterns.rs`: the chain of precedences from assignment down to
the primaries, the literals, and matches.
-/

namespace Quilon.Parser

open Lexer (Token TokenKind StrChunk)

variable (input : Input) (deeper : Deeper)

/-- Every expression between delimiters. -/
def parseExpression : ParserM Expression := withBareMatchForbidden false deeper.assignment

/-! ### Operators -/

def matchOr : ParserM (Option BinaryOperator) := do
  if ← check input .or then
    advance input
    return some .or
  else return none

def matchAnd : ParserM (Option BinaryOperator) := do
  if ← check input .and then
    advance input
    return some .and
  else return none

/-- An operator of a level that definitions may name as well. -/
def matchOperator (operatorOf : TokenKind → Option BinaryOperator) :
    ParserM (Option BinaryOperator) := do
  if ← atOperatorDefinition input then return none
  else
    match operatorOf (← peek input).kind with
    | some operator =>
      advance input
      return some operator
    | none => return none

def equalityOperator : TokenKind → Option BinaryOperator
  | .eq => some .eq
  | .ne => some .ne
  | _ => none

def comparisonOperator : TokenKind → Option BinaryOperator
  | .le => some .le
  | .ge => some .ge
  -- Behind an operand no block can begin.
  | .blockOpen => some .lt
  | .gt => some .gt
  | _ => none

def additiveOperator : TokenKind → Option BinaryOperator
  | .plus => some .add
  | .minus => some .sub
  | _ => none

def multiplicativeOperator : TokenKind → Option BinaryOperator
  | .star => some .mul
  | .slash => some .div
  | .percent => some .mod
  | .plusMinus | .minusPlus => some .setIntersect
  | _ => none

def matchEquality : ParserM (Option BinaryOperator) := matchOperator input equalityOperator

def matchComparison : ParserM (Option BinaryOperator) := matchOperator input comparisonOperator

def matchAdditive : ParserM (Option BinaryOperator) := matchOperator input additiveOperator

def matchMultiplicative : ParserM (Option BinaryOperator) :=
  matchOperator input multiplicativeOperator

/-- One level of the chain, to the left. -/
def parseBinaryLevel (next : ParserM Expression)
    (matchOperator : ParserM (Option BinaryOperator)) : ParserM Expression := do
  let left ← next
  loop input (fun left => do
    let place ← position
    match ← matchOperator with
    | none => return none
    | some operator =>
      let right ← next
      noteUse place (.operator operator)
      return some (.binaryOperator left operator right
        (spanOf input left.span.start right.span.stop))) left

/-! ### Literals -/

/-- `reject_leading_zero_position`; `text` is digits. -/
def rejectLeadingZeroPosition (text : List Char) (span : Span) : ParserM Unit :=
  if 1 < text.length ∧ text.head? = some '0' then
    let canonical := text.dropWhile (· = '0')
    let canonical := String.ofList (if canonical.isEmpty then ['0'] else canonical)
    throw ⟨.leadingZeroPosition,
      s!"position `{String.ofList text}` has a leading zero; write `{canonical}`", span, none⟩
  else return ()

/-- The parts of a string with holes. -/
def parseParts : List StrChunk → ParserM (List InterpolationPart)
  | [] => return []
  | .lit text :: rest => do
    let parts ← parseParts rest
    return .literal text :: parts
  | .hole src offset :: rest => do
    match input.parseHole src (input.spanBase + offset) (← get).modulePaths with
    | .error e => throw e
    | .ok expression =>
      let parts ← parseParts rest
      return .hole expression :: parts

def buildStringExpression (chunks : List StrChunk) (span : Span) : ParserM Expression :=
  match chunks with
  | [.lit text] => return .string text span
  | chunks => return .interpolation (← parseParts input chunks) span

/-- A spread, if the cursor is at one. -/
def tryParseSpread : ParserM (Option Expression) := do
  if ← check input .leftArrow then
    let start := (← currentSpan input).start
    advance input
    let source ← parseExpression deeper
    return some (.spread source (← spanFrom input start))
  else return none

/-- One entry of a constructor: a spread has no name. -/
def parseRecordField : ParserM (String × Expression) := do
  match ← tryParseSpread input deeper with
  | some spread => return ("", spread)
  | none =>
    let name ← expectIdent input
    expect input .assign
    return (name, ← parseExpression deeper)

/-- `parse_record_fields`, behind the brace. -/
def parseRecordFields : ParserM (List (String × Expression)) := do
  let fields ← parseCommaSeparated input .braceClose (parseRecordField input deeper)
  expect input .braceClose
  return fields

/-- One entry of a record literal. -/
inductive RecordEntry where
  | spread (value : Expression)
  | named (name : String) (value : Expression)
  | numbered (position : String) (value : Expression)
  | positional (value : Expression)

def RecordEntry.isSpread : RecordEntry → Bool
  | .spread _ => true
  | _ => false

def RecordEntry.isNamed : RecordEntry → Bool
  | .named _ _ => true
  | _ => false

def RecordEntry.isNumbered : RecordEntry → Bool
  | .numbered _ _ => true
  | _ => false

def RecordEntry.isPositional : RecordEntry → Bool
  | .positional _ => true
  | _ => false

/-- The name an entry has of itself. -/
def RecordEntry.name : RecordEntry → String
  | .named name _ | .numbered name _ => name
  | .spread _ | .positional _ => ""

def RecordEntry.value : RecordEntry → Expression
  | .spread value | .named _ value | .numbered _ value | .positional value => value

def parseRecordEntry : ParserM RecordEntry := do
  match ← tryParseSpread input deeper with
  | some spread => return .spread spread
  | none =>
    let token ← peek input
    let next ← peekAhead input 1
    if token.kind = .ident ∧ next.kind = .assign then
      let name ← expectIdent input
      expect input .assign
      return .named name (← parseExpression deeper)
    else if token.kind.isNumber ∧ ¬token.text.toList.contains '.' ∧ next.kind = .assign then
      rejectLeadingZeroPosition token.text.toList token.span
      advance input
      expect input .assign
      return .numbered token.text (← parseExpression deeper)
    else return .positional (← parseExpression deeper)

/-- `parse_record_literal_fields`, behind the brace. -/
def parseRecordLiteralFields : ParserM (List (String × Expression)) := do
  let start := (← currentSpan input).start
  let entries ← parseCommaSeparated input .braceClose (parseRecordEntry input deeper)
  expect input .braceClose
  let span ← spanFrom input start
  let bareCount := entries.countP RecordEntry.isPositional
  let namedCount := entries.countP RecordEntry.isNamed
  let numberedCount := entries.countP RecordEntry.isNumbered
  let spreadCount := entries.countP RecordEntry.isSpread
  if 0 < bareCount ∧ bareCount < entries.length then
    throw ⟨.mixedRecordFields, "a record literal is all named fields or all positional — not both",
      span, some ("write every field as `name = value`, or drop the names for a positional " ++
        "record: `\x7b v1, v2 \x7d`")⟩
  else if 0 < numberedCount ∧ spreadCount = 0 then
    throw ⟨.numberedRecordFieldWithoutSpread,
      "a numbered field only overrides a spread; write the positions directly", span,
      some "drop the positions: `\x7b v1, v2 \x7d`"⟩
  else if 0 < namedCount ∧ 0 < numberedCount then
    throw ⟨.mixedRecordFields, "a record literal is all named fields or all positional — not both",
      span, some ("override a spread with either `name = value` entries or `position = value` " ++
        "ones, not both")⟩
  else if 0 < bareCount then return positionalFields (entries.map RecordEntry.value)
  else return entries.map fun entry => (entry.name, entry.value)

def parseRecord : ParserM Expression := do
  let start := (← currentSpan input).start
  expect input .braceOpen
  let fields ← parseRecordLiteralFields input deeper
  return .record fields (← spanFrom input start)

def parseArrayElement : ParserM Expression := do
  match ← tryParseSpread input deeper with
  | some spread => return spread
  | none => parseExpression deeper

def parseArray : ParserM Expression := do
  let start := (← currentSpan input).start
  expect input .bracketOpen
  let elements ← parseCommaSeparated input .bracketClose (parseArrayElement input deeper)
  expect input .bracketClose
  return .array elements (← spanFrom input start)

/-- A map's key, or a set's first element: `=>` does not make a lambda of it. -/
def parseFenceKey : ParserM Expression := withSuppressLambda true (parseExpression deeper)

/-- The entries of a map behind the first. -/
def parseMapEntries (first : Expression × Expression) :
    ParserM (List (Expression × Expression)) :=
  loop input (fun entries => do
    if ← check input .comma then
      advance input
      let key ← parseFenceKey deeper
      expect input .arrow
      let value ← parseExpression deeper
      return some (entries ++ [(key, value)])
    else return none) [first]

/-- The elements of a set behind the first. -/
def parseSetElements (first : Expression) : ParserM (List Expression) :=
  loop input (fun elements => do
    if ← check input .comma then
      advance input
      let element ← parseExpression deeper
      return some (elements ++ [element])
    else return none) [first]

/-- A fence with something in it. -/
def parseFenceEntries (start : Nat) : ParserM Expression := do
  let first ← parseFenceKey deeper
  if ← check input .arrow then
    advance input
    let value ← parseExpression deeper
    let entries ← parseMapEntries input deeper (first, value)
    expectFenceClose input
    return .mapLiteral entries (← spanFrom input start)
  else
    let elements ← parseSetElements input deeper first
    expectFenceClose input
    return .setLiteral elements (← spanFrom input start)

def parseFencedLiteral : ParserM Expression := do
  let start := (← currentSpan input).start
  expect input .bracketOpen
  if ← check input .or then
    advance input
    expect input .bracketClose
    return .setLiteral [] (← spanFrom input start)
  else
    expect input .pipe
    let kind := (← peek input).kind
    if kind = .arrow then
      advance input
      expectFenceClose input
      return .mapLiteral [] (← spanFrom input start)
    else if kind = .pipe then
      expectFenceClose input
      return .setLiteral [] (← spanFrom input start)
    else parseFenceEntries input deeper start

/-! ### Lambdas -/

def parseParameter : ParserM Parameter := do
  let start := (← currentSpan input).start
  let name ← expectDefinitionName input
  let typeAnnotation ← parseDeclaredType input deeper
  return ⟨name, typeAnnotation, ← spanFrom input start⟩

/-- One more parameter of a list. -/
def parseNextParameter (parameters : List Parameter) : ParserM (List Parameter) := do
  if parameters.length = MAX_PARAMETERS then
    throw ⟨.tooManyParameters, s!"a function takes at most {MAX_PARAMETERS} parameters",
      ← currentSpan input,
      some "group them into a record type and take that record as one parameter"⟩
  else
    let parameter ← parseParameter input deeper
    return parameters ++ [parameter]

def parseParameterList : ParserM (List Parameter) := do
  if ← check input .parenOpen then
    advance input
    let parameters ←
      if ← check input .parenClose then pure []
      else do
        let first ← parseNextParameter input deeper []
        loop input (fun parameters => do
          if ← check input .comma then
            advance input
            let parameters ← parseNextParameter input deeper parameters
            return some parameters
          else return none) first
    expect input .parenClose
    return parameters
  else if ← check input .ident then
    let parameter ← parseParameter input deeper
    return [parameter]
  else return []

/-- The body of a lambda. -/
def parseLambdaBody : ParserM Expression := do
  if ← check input .blockOpen then deeper.block
  else parseExpression deeper

def parseLambdaExpression : ParserM Expression := do
  let start := (← currentSpan input).start
  let parameters ← parseParameterList input deeper
  let returnType ← parseReturnType input deeper
  expect input .arrow
  let body ← parseLambdaBody input deeper
  return .lambda parameters returnType body (← spanFrom input start)

/-! ### Primaries -/

/-- An `@` primitive. -/
def parsePrimitive : ParserM Expression := do
  let start := (← currentSpan input).start
  advance input
  let token ← peek input
  if token.kind = .ident then
    advance input
    return .identifier ("@" ++ token.text) (spanOf input start token.span.stop)
  else
    throw ⟨.unexpectedToken, s!"expected a primitive name after `@`, found {token.kind.describe}",
      token.span, none⟩

/-- A name, or a constructor. -/
def parseReference : ParserM Expression := do
  let (name, span, _) ← parseNameOrQualified input
  if ← checkSameLine input .braceOpen then
    advance input
    let fields ← parseRecordFields input deeper
    return .constructor name fields (← spanFrom input span.start)
  else return .identifier name span

def parseParenthesized : ParserM Expression := do
  advance input
  let expression ← parseExpression deeper
  expect input .parenClose
  return expression

def parsePrimary : ParserM Expression := do
  let token ← peek input
  match token.kind with
  | .number value =>
    advance input
    return .number value token.span
  | .string chunks =>
    advance input
    buildStringExpression input chunks token.span
  | .true_ =>
    advance input
    return .bool true token.span
  | .false_ =>
    advance input
    return .bool false token.span
  | .unit =>
    advance input
    return .unit token.span
  | .at_ => parsePrimitive input
  | .ident =>
    if ← looksLikeBareLambda input then parseLambdaExpression input deeper
    else parseReference input deeper
  | .parenOpen =>
    if ← parenStartsLambda input then parseLambdaExpression input deeper
    else parseParenthesized input deeper
  | .bracketOpen =>
    let next := (← peekAhead input 1).kind
    if next = .pipe ∨ next = .or then parseFencedLiteral input deeper
    else parseArray input deeper
  | .braceOpen => parseRecord input deeper
  | kind =>
    throw ⟨.unexpectedToken, s!"expected an expression, found {kind.describe}", token.span, none⟩

/-! ### Postfix forms -/

/-- The arguments of a call, behind its parenthesis. -/
def parseArguments : ParserM (List Expression) := do
  let arguments ← parseCommaSeparated input .parenClose (parseExpression deeper)
  expect input .parenClose
  return arguments

/-- The name behind a `.`. -/
def parseMemberName : ParserM String := do
  if ← check input .at_ then
    advance input
    let name ← expectIdent input
    return "@" ++ name
  else expectIdent input

/-- What stands behind a `.` that is no position. -/
def parseAfterDot (expression : Expression) : ParserM Expression := do
  let field ← parseMemberName input
  if ← checkSameLine input .parenOpen then
    advance input
    let arguments ← parseArguments input deeper
    let span ← spanFrom input expression.span.start
    return .call (.identifier field span) (expression :: arguments) true span
  else return .fieldAccess expression field (← spanFrom input expression.span.start)

/-- The positions of a number token that begins at `start`, one access each. -/
def accessPositions (start : Nat) (expression : Expression) :
    List (List Char) → ParserM Expression
  | [] => return expression
  | part :: rest => do
    let stop := start + extent Char.utf8Size part
    if part.isEmpty then accessPositions (stop + 1) expression rest
    else
      rejectLeadingZeroPosition part (spanOf input start stop)
      accessPositions (stop + 1)
        (.fieldAccess expression (.ofList part) (spanOf input expression.span.start stop)) rest

/-- `chain_positional_field_accesses`, the cursor at the number behind a `.`. -/
def chainPositionalFieldAccesses (base : Expression) : ParserM Expression := do
  let token ← peek input
  advance input
  let expression ←
    accessPositions input token.span.start base (token.text.toList.splitOn '.')
  -- The number has taken the `.` of a name that follows it.
  if token.text.toList.getLast? = some '.' then parseAfterDot input deeper expression
  else return expression

/-- One postfix form, if there is one. -/
def parsePostfixForm (expression : Expression) : ParserM (Option Expression) := do
  if ← check input .dot then
    advance input
    if (← peek input).kind.isNumber then
      return some (← chainPositionalFieldAccesses input deeper expression)
    else return some (← parseAfterDot input deeper expression)
  else if ← checkSameLine input .bracketOpen then
    advance input
    let index ← parseExpression deeper
    expect input .bracketClose
    return some (.index expression index (← spanFrom input expression.span.start))
  else if ← checkSameLine input .parenOpen then
    advance input
    let arguments ← parseArguments input deeper
    return some (.call expression arguments false (← spanFrom input expression.span.start))
  else return none

def parsePostfix : ParserM Expression := do
  let expression ← parsePrimary input deeper
  loop input (parsePostfixForm input deeper) expression

/-! ### The chain of precedences -/

/-- A prefix operator and its operand. -/
def parsePrefixed (operator : UnaryOperator) : ParserM Expression := do
  let start := (← currentSpan input).start
  advance input
  let expression ← deeper.unary
  return .unaryOperator operator expression (spanOf input start expression.span.stop)

def parseUnary : ParserM Expression := do
  if ← check input .minus then parsePrefixed input deeper .neg
  else if ← check input .not then parsePrefixed input deeper .not
  else parsePostfix input deeper

def parseMultiplicative : ParserM Expression :=
  parseBinaryLevel input (parseUnary input deeper) (matchMultiplicative input)

def parseAdditive : ParserM Expression :=
  parseBinaryLevel input (parseMultiplicative input deeper) (matchAdditive input)

def parseRange : ParserM Expression := do
  let left ← parseAdditive input deeper
  if ← check input .leftArrow then
    advance input
    let right ← parseAdditive input deeper
    return .range left right (spanOf input left.span.start right.span.stop)
  else return left

def parseComparison : ParserM Expression :=
  parseBinaryLevel input (parseRange input deeper) (matchComparison input)

def parseEquality : ParserM Expression :=
  parseBinaryLevel input (parseComparison input deeper) (matchEquality input)

def parseLogicalAnd : ParserM Expression :=
  parseBinaryLevel input (parseEquality input deeper) (matchAnd input)

def parseLogicalOr : ParserM Expression :=
  parseBinaryLevel input (parseLogicalAnd input deeper) (matchOr input)

/-! ### Matches -/

def patternSpan : Pattern → Span
  | .identifier _ span | .number _ span | .text _ span | .constructor _ _ span
  | .wildcard span => span

/-- A name in a pattern. -/
def parseNamePattern : ParserM Pattern := do
  let (name, span, qualified) ← parseNameOrQualified input
  if ← check input .parenOpen then
    advance input
    let arguments ← parseCommaSeparated input .parenClose deeper.pattern
    expect input .parenClose
    return .constructor name arguments (← spanFrom input span.start)
  else if qualified || input.letters.isCapitalized name then
    return .constructor name [] span
  else return .identifier name span

/-- `parse_pattern_inner` -/
def parsePatternInner : ParserM Pattern := do
  let token ← peek input
  match token.kind with
  | .ident => parseNamePattern input deeper
  | .number value =>
    advance input
    return .number value token.span
  | .string chunks =>
    let value ← plainStringLiteral input chunks token.span .interpolatedTextPattern
      "a text pattern is a plain string literal"
    return .text value token.span
  | .underscore =>
    advance input
    return .wildcard token.span
  | kind =>
    throw ⟨.unexpectedToken, s!"expected a pattern, found {kind.describe}", token.span, none⟩

/-- One arm, if there is one. -/
def parseArm (arms : List MatchArm) : ParserM (Option (List MatchArm)) := do
  if ← check input .pipe then
    advance input
    let pattern ← deeper.pattern
    expect input .arrow
    let body ← withBareMatchForbidden true deeper.assignment
    return some (arms ++
      [⟨pattern, body, spanOf input (patternSpan pattern).start body.span.stop⟩])
  else return none

def parseArmList : ParserM (List MatchArm) := loop input (parseArm input deeper) []

def parseMatch (expression : Expression) : ParserM Expression := do
  let start := expression.span.start
  let arms ← parseArmList input deeper
  match arms.getLast? with
  | none =>
    throw ⟨.emptyMatch, "a match needs at least one `|` arm", spanOf input start start, none⟩
  | some last => return .match_ expression arms (spanOf input start last.span.stop)

/-! ### The loosest forms -/

/-- What follows a condition's `?`. -/
def parseBranches (condition : Expression) : ParserM Expression := do
  let then_ ← parseExpression deeper
  expect input .colon
  let else_ ← parseExpression deeper
  return .ifThenElse condition then_ else_ (spanOf input condition.span.start else_.span.stop)

def parseTernary : ParserM Expression := do
  let expression ← parseLogicalOr input deeper
  if ← check input .question then
    advance input
    let questionSpan ← previousSpan input
    if ← check input .pipe then
      if (← get).bareMatchForbidden then
        throw ⟨.nestedMatchNeedsParens, "a match used as a match-arm body needs parentheses",
          questionSpan, some ("wrap the nested match in parentheses: " ++
            "`| pattern => (scrutinee ? | ... )`")⟩
      else parseMatch input deeper expression
    else parseBranches input deeper expression
  else return expression

/-- `target := value`, behind the target. -/
def parseAssigned (target : Expression) (node : Expression → Span → Expression) :
    ParserM Expression := do
  advance input
  let value ← deeper.assignment
  return node value (spanOf input target.span.start value.span.stop)

/-- `name.strip_prefix('@')`: the bare name, and whether it had an `@`. -/
def stripAt (name : String) : String × Bool :=
  match name.toList with
  | '@' :: bare => (.ofList bare, true)
  | _ => (name, false)

/-- `name := value` as an expression: a block of one declaration. -/
def assignedName (name : String) (value : Expression) (span : Span) : Expression :=
  .block [.item (.variableDeclaration {
    isMutable := true
    name := (stripAt name).1
    typeAnnotation := none
    value
    exported := false
    atomic := (stripAt name).2
    span })] span

def parseAssignment : ParserM Expression := do
  let expression ← parseTernary input deeper
  if ← check input .mutAssign then
    match expression with
    | .fieldAccess _ _ _ => parseAssigned input deeper expression (.fieldAssign expression)
    | .index _ _ _ => parseAssigned input deeper expression (.indexAssign expression)
    | .identifier name _ => parseAssigned input deeper expression (assignedName name)
    | _ => return expression
  else return expression

end Quilon.Parser
