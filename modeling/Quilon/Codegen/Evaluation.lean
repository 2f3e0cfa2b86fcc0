import Quilon.Ast.Within
import Mathlib.Data.Rat.Floor

/-!
# The order operands are lowered in

`src/codegen/generator`: which operands of an expression `generate_expression` lowers, how often, and
in which order.  `evaluated` lists the operands as they are written; `lowered` gives, for every path
through the code of the expression, the positions in that list in the order the code evaluates them.
`written` is the order the source gives them.

Evaluating a lambda does nothing: its body is code of whatever calls it, a method of a collection it
is written into among them.  The name of a type in receiver position and the name of a matcher stand
for no value.
-/

namespace Quilon

/-- What the generator looks up while it lowers an expression. -/
structure Lookups where
  types : Span → Option Ty
  /-- the generator's `variables` -/
  variableTable : List String
  /-- the variables whose slot holds a struct -/
  structVariables : List String
  globals : List String
  recordTypes : String → Option (List String)
  namedTypeFields : String → Option (List String)
  sumLayouts : List String
  forceSites : Span → Bool
  /-- the operators a user operator answers -/
  userOperator : Span → Bool
  /-- the calls whose receiver has the method -/
  methodCallee : Span → Bool
  /-- the calls of a variable that holds a closure -/
  closureCallee : Span → Bool

/-- A path through the code of an expression: the operands it evaluates, by position. -/
abbrev Order := List Nat

/-! ### Operands -/

def Pattern.isIrrefutable : Pattern → Bool
  | .identifier _ _ | .wildcard _ => true
  | _ => false

def Expression.unspread : Expression → Expression
  | .spread e _ => e
  | e => e

def Expression.isSpread : Expression → Bool
  | .spread _ _ => true
  | _ => false

def Statement.evaluated : Statement → List Expression
  | .expression e => [e]
  | .item (.variableDeclaration declaration) => [declaration.value]
  | .item _ => []

def ASSERT : String := "assert"

def isAssertion (name : String) : Bool :=
  name == ASSERT || name == "expect"

/-- `matcher_condition`: the values a matcher compares with. -/
def matcherOperands : Expression → List Expression
  | .call (.identifier name _) (first :: _) _ _ =>
    if name = "equals" || name = "contains" then [first]
    else if name = "not" then matcherOperands first
    else []
  | _ => []

/-- A type's name that no binding shadows, as the receiver of a call. -/
def isStaticTypeReceiver (g : Lookups) : Expression → Bool
  | .identifier name _ =>
    !(g.variableTable.contains name || g.globals.contains name) &&
      ((g.namedTypeFields name).isSome || g.sumLayouts.contains name)
  | _ => false

/-- The operands of a call, the function among them where it is a value. -/
def callOperands (g : Lookups) (function : Expression) (arguments : List Expression)
    (memberCall : Bool) (span : Span) : List Expression :=
  match function with
  | .identifier name _ =>
    if !memberCall && isAssertion name then
      match arguments with
      | [actual, matcher] => actual :: matcherOperands matcher
      | _ => arguments
    else if (atPrimitiveName name).isSome then arguments
    else if memberCall && g.methodCallee span && arguments.head?.any (isStaticTypeReceiver g) then
      arguments.tail
    else if g.closureCallee span then function :: arguments
    else arguments
  | _ => function :: arguments

/-- The operands of an expression in the order they are written. -/
def evaluated (g : Lookups) : Expression → List Expression
  | .number _ _ | .string _ _ | .bool _ _ | .unit _ | .identifier _ _ | .lambda _ _ _ _ => []
  | .interpolation parts _ => parts.flatMap InterpolationPart.children
  | .binaryOperator left _ right _ => [left, right]
  | .unaryOperator _ e _ | .spread e _ | .fieldAccess e _ _ => [e]
  | .call function arguments memberCall span => callOperands g function arguments memberCall span
  | .block statements _ => statements.flatMap Statement.evaluated
  | .ifThenElse condition then_ else_ _ => [condition, then_, else_]
  | .match_ scrutinee arms _ => scrutinee :: arms.map (·.body)
  | .fieldAssign (.fieldAccess object _ _) value _ => [object, value]
  | .fieldAssign target value _ => [target, value]
  | .indexAssign (.index e i _) value _ => [e, i, value]
  | .indexAssign target value _ => [target, value]
  | .index e i _ => [e, i]
  | .array elements _ => elements.map Expression.unspread
  | .setLiteral elements _ => elements
  | .mapLiteral entries _ => entries.flatMap fun entry => [entry.1, entry.2]
  | .record fields _ | .constructor _ fields _ => fields.map fun field => field.2.unspread
  | .range start stop _ => [start, stop]

/-- Every operand once, from left to right. -/
def inOrder (g : Lookups) (e : Expression) : Order :=
  List.range (evaluated g e).length

/-! ### Field reads -/

/-- The types whose values are structs; a record's is a pointer. -/
def Ty.isStruct : Ty → Bool
  | .text | .array _ | .sum _ _ | .function _ _ => true
  | _ => false

/-- The fields `record_field_pointer` finds on a receiver. -/
def fieldNames (g : Lookups) (e : Expression) : Option (List String) :=
  match g.types e.span with
  | some (.named _ fields _) | some (.record fields) => some (fields.map (·.1))
  | _ =>
    match e with
    | .identifier name _ => g.recordTypes name
    | _ => none

def isNamedRecordField (g : Lookups) (e : Expression) (field : String) : Bool :=
  match e with
  | .identifier name _ => (g.recordTypes name).any (·.contains field)
  | _ => false

/-- `generate_payload_access`: the receiver is known to be one variant. -/
def isPayloadAccess (g : Lookups) (e : Expression) (field : String) : Bool :=
  field == "payload" &&
    match g.types e.span with
    | some (.sum _ [_]) => true
    | _ => false

/-- The `.size` of a map or a set. -/
def isCollectionSize (g : Lookups) (e : Expression) (field : String) : Bool :=
  !isNamedRecordField g e field && field == "size" &&
    match g.types e.span with
    | some (.map _ _) | some (.set _) => true
    | _ => false

/-- The `.size` of a variable, read from its slot. -/
def isInPlaceSize (g : Lookups) (e : Expression) (field : String) : Bool :=
  !isNamedRecordField g e field && field == "size" && !g.forceSites e.span &&
    match e with
    | .identifier name _ => g.structVariables.contains name
    | _ => false

/-- Where the receiver is lowered for the `.size` or `.length` of a `Text` or an array. -/
def isSizeOfValue (g : Lookups) (e : Expression) (field : String) : Bool :=
  !isNamedRecordField g e field && (field == "size" || field == "length")

/-- `generate_field_access`: how often the receiver is lowered. -/
def generateFieldAccess (g : Lookups) (e : Expression) (field : String) : Option Nat :=
  if isPayloadAccess g e field then some 1
  else if isCollectionSize g e field then some 1
  else if isInPlaceSize g e field then some 0
  else if isSizeOfValue g e field && (g.types e.span).any Ty.isStruct then some 1
  else
    let read := if isSizeOfValue g e field then 1 else 0
    -- What was lowered for its size is not a struct after all: the field is read as any other.
    if (fieldNames g e).any (·.contains field) then some (read + 1) else none

/-- The field of an operand that is read by the code of a primitive. -/
def readField (g : Lookups) (arguments : List Expression) (position : Nat) (field : String) :
    Option Order :=
  arguments[position]?.bind fun argument =>
    (generateFieldAccess g argument field).map (List.replicate · position)

/-! ### Calls -/

/-- `generate_at_primitive` -/
def generateAtPrimitive (g : Lookups) (primitive : String) (arguments : List Expression) :
    Option Order :=
  match primitive, arguments.length with
  | "sleep", 1 => some [0]
  | "readStdin", 0 => some []
  | "tcpRequest", 2 => some [0, 1]
  | "tcpRequest", 3 => do
    let transport ← readField g arguments 2 "transport"
    let certificates ← readField g arguments 2 "certificates"
    some ([0, 1] ++ transport ++ certificates)
  | "streamFile", 3 => some [0, 1, 2]
  -- The handler is bundled before the address is read.
  | "tcpServe", 2 => some [1, 0]
  | "serve", 2 => some [1, 0]
  | "serve", 3 => do
    let maxBodySize ← readField g arguments 2 "maxBodySize"
    let idleTimeout ← readField g arguments 2 "idleTimeout"
    some (1 :: (maxBodySize ++ idleTimeout ++ [0]))
  | "read", 1 => readField g arguments 0 "handle"
  | "read", 2 => (readField g arguments 0 "handle").map (· ++ [1])
  | "write", 2 => (readField g arguments 0 "handle").map (· ++ [1])
  | _, _ => none

/-- `generate_call`.  Every callee but these takes its operands in order: an intrinsic, a method of a
collection or of `Text`, a variant, a method, a closure, a function. -/
def generateCall (g : Lookups) (function : Expression) (arguments : List Expression)
    (memberCall : Bool) (span : Span) : Option (List Order) :=
  let operands := List.range (callOperands g function arguments memberCall span).length
  match function with
  | .identifier name _ =>
    if !memberCall && isAssertion name then
      if arguments.length = 2 then
        -- The branch an `expect` takes in a case that has failed already does nothing.
        some (if name = ASSERT then [operands] else [operands, []])
      else none
    else
      match atPrimitiveName name with
      | some primitive => (generateAtPrimitive g primitive arguments).map ([·])
      | none => some [operands]
  | _ => some [operands]

/-! ### Literals -/

/-- The fields of a literal in the order of the type, each found by its name. -/
def declarationOrder (declared : List String) (fields : List (String × Expression)) : Order :=
  declared.filterMap fun name => fields.findIdx? (·.1 == name)

/-- The fields of a record literal or of a constructor. -/
def Expression.fields : Expression → List (String × Expression)
  | .record fields _ | .constructor _ fields _ => fields
  | _ => []

/-- The order a literal's fields are put in before they are lowered; none where it spreads another
record or where the type is not known. -/
def fieldOrder (g : Lookups) : Expression → Option (List String)
  | .record fields span =>
    if fields.any (·.2.isSpread) then none
    else
      match g.types span with
      | some (.record canonical) => some (canonical.map (·.1))
      | _ => none
  | .constructor typeName fields _ =>
    if fields.any (·.2.isSpread) then none else g.namedTypeFields typeName
  | _ => none

/-- `literal_number` -/
def literalNumber : Expression → Option Rat
  | .number value _ => some value
  | .unaryOperator .neg (.number value _) _ => some (-value)
  | _ => none

/-- `check_range_endpoint`: a whole number that an `f64` holds exactly. -/
def checkRangeEndpoint (value : Rat) : Bool :=
  value.den == 1 && decide (|value| ≤ 2 ^ 53)

/-- `range_endpoint`: a literal end is a constant. -/
def rangeEndpoint (end_ : Expression) (position : Nat) : Order :=
  if (literalNumber end_).any checkRangeEndpoint then [] else [position]

/-! ### Expressions -/

/-- The paths an expression has by what it means, each in the order it is written. -/
def written (g : Lookups) : Expression → List Order
  | .binaryOperator _ operator _ span =>
    if (operator = .and || operator = .or) && !g.userOperator span then [[0, 1], [0]] else [[0, 1]]
  | .ifThenElse _ _ _ _ => [[0, 1], [0, 2]]
  | .match_ _ arms _ => [0] :: (List.range arms.length).map fun arm => [0, arm + 1]
  | .call (.identifier name span) arguments memberCall callSpan =>
    let e := Expression.call (.identifier name span) arguments memberCall callSpan
    -- The operands of an `expect` that is not live are a branch not taken.
    if !memberCall && name == "expect" then [inOrder g e, []] else [inOrder g e]
  | e => [inOrder g e]

/-- The paths through the code of an expression; none where there is no code for it. -/
def lowered (g : Lookups) : Expression → Option (List Order)
  | .spread _ _ => none
  | .call function arguments memberCall span => generateCall g function arguments memberCall span
  | .fieldAccess e field _ => (generateFieldAccess g e field).map fun times => [List.replicate times 0]
  -- The value of a field write comes first.
  | .fieldAssign (.fieldAccess _ _ _) _ _ => some [[1, 0]]
  | .fieldAssign _ _ _ => none
  | .indexAssign (.index _ _ _) _ _ => some [[0, 1, 2]]
  | .indexAssign _ _ _ => none
  | .record fields span =>
    let e := Expression.record fields span
    some [((fieldOrder g e).map (declarationOrder · fields)).getD (inOrder g e)]
  | .constructor typeName fields span =>
    let e := Expression.constructor typeName fields span
    some [((fieldOrder g e).map (declarationOrder · fields)).getD (inOrder g e)]
  | .range start stop _ => some [rangeEndpoint start 0 ++ rangeEndpoint stop 1]
  | .match_ _ arms _ =>
    -- Past the last arm the program aborts, unless that arm takes everything.
    let taken := (List.range arms.length).map fun arm => [0, arm + 1]
    some (if arms.getLast?.any (·.pattern.isIrrefutable) then taken else [0] :: taken)
  | e => some (written g e)

/-! ### Programs -/

/-- The sub-expressions that are evaluated for themselves.  The target of a field write is not: it
says where the value goes. -/
def Expression.parts : Expression → List Expression
  | .fieldAssign (.fieldAccess object _ _) value _ => [object, value]
  | e => e.children

/-- `e` is evaluated in the code of `root`, or in that of a lambda or a declaration within it. -/
inductive Evaluated (root : Expression) : Expression → Prop where
  | refl : Evaluated root root
  | part {e c : Expression} : Evaluated root e → c ∈ e.parts → Evaluated root c

def Program.Evaluates (program : Program) (e : Expression) : Prop :=
  ∃ item ∈ program.items, ∃ root ∈ item.bodies, Evaluated root e

end Quilon
