import Quilon.Ast.Equiv.Captures
import Quilon.Ast.Reachability
import Quilon.Codegen.AtomicSections

/-!
# The names in a piece of code

`occurrences` keeps of an expression what its lowering does with names, in the order
`src/codegen/generator` lowers it: reads, plain calls, `=` and `:=`, and the constructs that open a
frame or shadow names for a while.  The fields of a literal stand in the order they are lowered in,
and each operand once.
-/

namespace Quilon.Naming

/-- The names a closure takes from the frame around it. -/
structure Captures (parameters : List String) where
  of : List String → List String
  mem : ∀ {name : String} {outer : List String}, name ∈ of outer →
    name ∈ outer ∧ name ∉ parameters

def Captures.lambda (parameters : List String) (body : Expression) : Captures parameters where
  of := lambdaFreeIdents parameters body
  mem := mem_lambdaFreeIdents

/-- What a name stands for that is declared without a slot. -/
inductive Declared where
  | variant
  | type
deriving DecidableEq

inductive Occurrences where
  | none
  | seq (first rest : Occurrences)
  | read (name : String)
  /-- a plain call of a name that is no overload set -/
  | call (name : String)
  /-- a call of an overload set: the member the checker chose, as the position of its declaration,
  and the symbol the generator looks up -/
  | dispatch (member : Nat) (symbol : String)
  /-- `=` or `:=`, once the value is there -/
  | bind (isMutable : Bool) (name : String)
  | declare (kind : Declared) (name : String)
  /-- functions that are added to the module unless their symbols are taken -/
  | symbols (names : List String)
  /-- a match arm, or a lambda that is inlined as a callback -/
  | arm (names : List String) (body : Occurrences)
  | lambda (parameters : List String) (captures : Captures parameters) (body : Occurrences)
  /-- a local function.  One whose name is that of an overload set has a symbol of its own, and the
  checker does not bind the name. -/
  | function (name : String) (overload : Option String) (parameters : List String)
      (captures : Captures parameters) (body : Occurrences)
  /-- the body of a method, an operator member or a trap arm -/
  | body (names : List String) (body : Occurrences)

/-- What the checker and the generator's tables decide. -/
structure Answers where
  /-- the lambdas inlined as the callback of a collection's method -/
  inlined : Span → Bool
  /-- the calls the compiler lowers itself: assertions and matchers, primitives, built-in functions,
  variants -/
  native : Span → Bool
  /-- `overloads.contains_key` -/
  overloaded : String → Bool
  /-- the member of the overload set that the checker chose for a call -/
  member : Span → Nat
  /-- `resolve_overload_symbol` -/
  overloadSymbol : Span → String
  /-- `mangle_overload`, for a declaration -/
  mangled : Span → String
  /-- `sum_variants.contains_key` -/
  isVariant : String → Bool
  /-- the runtime functions, thunks and wrappers the code of an expression adds to the module, before
  its operands and after them -/
  before : Span → List String
  after : Span → List String

/-- `method_symbol` -/
def methodSymbol (typeName methodName : String) : String :=
  typeName ++ "_" ++ if methodName = "`" then "op$backtick" else methodName

/-- `is_overloaded`, for the methods of one type. -/
def isOverloadedMethod (methods : List MethodDeclaration) (name : String) : Bool :=
  decide (1 < (methods.filter (·.name == name)).length)

section Lowering

variable (answers : Answers)

/-- The mangled symbol of a member of an overload set. -/
def overloadSymbol (name : String) (span : Span) : Option String :=
  if answers.overloaded name then some (answers.mangled span) else none

/-- `method_mangled_symbol` -/
def methodMangledSymbol (typeName : String) (methods : List MethodDeclaration)
    (method : MethodDeclaration) : String :=
  if isOverloadedMethod methods method.name then answers.mangled method.span
  else methodSymbol typeName method.name

/-- The symbols of the methods of a type, which are all declared before the first body. -/
def methodSymbols (typeName : String) (methods : List MethodDeclaration) : List String :=
  (methods.filter fun method => !isOperatorSymbol method.name).map
    (methodMangledSymbol answers typeName methods)

/-- The nullary variants, which the checker binds as constants. -/
def nullaryVariants : List (String × List Ty) → Occurrences
  | [] => .none
  | (name, []) :: rest => .seq (.declare .variant name) (nullaryVariants rest)
  | (_, _ :: _) :: rest => nullaryVariants rest

/-- A callee that is a name. -/
def calleeOccurrences (name : String) (memberCall : Bool) (span : Span) : Occurrences :=
  if memberCall || answers.native span then .none
  else if answers.overloaded name then
    .dispatch (answers.member span) (answers.overloadSymbol span)
  else .call name

/-- The operands of an expression, and what its code adds to the module around them. -/
def around (span : Span) (operands : Occurrences) : Occurrences :=
  .seq (.symbols (answers.before span)) (.seq operands (.symbols (answers.after span)))

mutual

def occurrences : Expression → Occurrences
  | .number _ _ | .bool _ _ | .unit _ => .none
  | .string _ span => .symbols (answers.before span)
  | .identifier name _ => .read name
  | .interpolation parts span => around answers span (ofParts parts)
  | .binaryOperator left _ right span | .index left right span | .range left right span =>
    around answers span (.seq (occurrences left) (occurrences right))
  | .unaryOperator _ e span | .spread e span | .fieldAccess e _ span => around answers span (occurrences e)
  | .call function arguments memberCall span =>
    match function with
    | .identifier name _ =>
      around answers span (.seq (calleeOccurrences answers name memberCall span) (ofAll arguments))
    | callee => around answers span (.seq (occurrences callee) (ofAll arguments))
  | .lambda parameters _ body span =>
    let names := parameters.map (·.name)
    if answers.inlined span then .arm names (occurrences body)
    else .lambda names (.lambda names body) (occurrences body)
  | .block statements _ => ofStatements statements
  | .ifThenElse condition then_ else_ span =>
    around answers span (.seq (occurrences condition) (.seq (occurrences then_) (occurrences else_)))
  | .match_ scrutinee arms span => around answers span (.seq (occurrences scrutinee) (ofArms arms))
  -- The value of a field write comes first.
  | .fieldAssign (.fieldAccess base _ _) value span =>
    around answers span (.seq (occurrences value) (occurrences base))
  | .fieldAssign _ _ _ => .none
  | .indexAssign (.index array index _) value span =>
    around answers span (.seq (occurrences array) (.seq (occurrences index) (occurrences value)))
  | .indexAssign _ _ _ => .none
  | .array elements span | .setLiteral elements span => around answers span (ofAll elements)
  | .mapLiteral entries span => around answers span (ofEntries entries)
  | .record fields span | .constructor _ fields span => around answers span (ofFields fields)

def ofAll : List Expression → Occurrences
  | [] => .none
  | e :: rest => .seq (occurrences e) (ofAll rest)

def ofParts : List InterpolationPart → Occurrences
  | [] => .none
  | .literal _ :: rest => ofParts rest
  | .hole e :: rest => .seq (occurrences e) (ofParts rest)

def ofEntries : List (Expression × Expression) → Occurrences
  | [] => .none
  | (key, value) :: rest => .seq (.seq (occurrences key) (occurrences value)) (ofEntries rest)

def ofFields : List (String × Expression) → Occurrences
  | [] => .none
  | (_, value) :: rest => .seq (occurrences value) (ofFields rest)

def ofArms : List MatchArm → Occurrences
  | [] => .none
  | ⟨pattern, body, _⟩ :: rest => .seq (.arm pattern.bindingNames (occurrences body)) (ofArms rest)

def ofStatements : List Statement → Occurrences
  | [] => .none
  | .expression e :: rest => .seq (occurrences e) (ofStatements rest)
  | .item (.variableDeclaration ⟨isMutable, name, _, value, _, _, _⟩) :: rest =>
    .seq (.seq (occurrences value) (.bind isMutable name)) (ofStatements rest)
  | .item (.functionDeclaration ⟨name, ps, ret, bind, body, exported, corelib, span⟩) :: rest =>
    let declaration : FunctionDeclaration := ⟨name, ps, ret, bind, body, exported, corelib, span⟩
    if declaration.isInertCorelibPlaceholder || (atPrimitiveName name).isSome then ofStatements rest
    else
      let names := ps.map (·.name)
      .seq
        (.function name (overloadSymbol answers name span) names (.lambda names body)
          (occurrences body))
        (ofStatements rest)
  | .item (.typeDeclaration ⟨name, .sum variants methods, _, _⟩) :: rest =>
    .seq
      (.seq (.seq (.declare .type name) (nullaryVariants variants))
        (.seq (.symbols (methodSymbols answers name methods)) (ofMethods methods)))
      (ofStatements rest)
  | .item (.typeDeclaration ⟨name, .record _ methods, _, _⟩) :: rest =>
    .seq
      (.seq (.declare .type name)
        (.seq (.symbols (methodSymbols answers name methods)) (ofMethods methods)))
      (ofStatements rest)
  -- A trap is a top-level-only item.
  | .item (.trapDeclaration _) :: rest => ofStatements rest

/-- The bodies of the methods.  An operator member is a function of its own, added as it is
reached. -/
def ofMethods : List MethodDeclaration → Occurrences
  | [] => .none
  | ⟨name, parameters, _, body, _, span⟩ :: rest =>
    let added := if isOperatorSymbol name then [answers.mangled span] else []
    .seq
      (.seq (.symbols added) (.body (RECEIVER :: parameters.map (·.name)) (occurrences body)))
      (ofMethods rest)

end

end Lowering

end Quilon.Naming
