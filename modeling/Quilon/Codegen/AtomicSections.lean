import Quilon.Ast.Captures
import Quilon.Ast.Reachability

/-!
# The atomic sections of the emitted code

Where `src/codegen/generator` emits `__atomic_begin` and `__atomic_end`: around the read of a name in
`atomic_bindings`, and around a `:=` of such a name (`generate_variable_declaration`).  The code of
everything else is kept as far as its control flow goes: the order of the operands, the branches, the
loops of the methods whose callbacks are inlined, the back-edge of a self-call in tail position.

`atomic_bindings` is one set of bare names for the whole program, `variables` one table per function.
The fields of a literal stand in the order they are lowered in.  `scopes` is not in the generator: it
is the environment of the type checker, carried along to tell which binding a `:=` reassigns.  A
run-time failure may end a path anywhere.
-/

namespace Quilon

/-! ### Emitted code -/

inductive Instruction where
  | atomicBegin
  | atomicEnd
  | load (name : String)
  | store (name : String)
deriving DecidableEq

inductive Code where
  | skip
  | emit (instruction : Instruction)
  | seq (first rest : Code)
  | branch (one other : Code)
  | loop (body : Code)
  /-- the branch to the header of the loop a function with self-calls in tail position becomes -/
  | back

inductive Exit where
  | through
  | back
deriving DecidableEq

/-- The paths through emitted code. -/
inductive Code.Path : Code → List Instruction → Exit → Prop where
  | skip : Path .skip [] .through
  | emit (instruction : Instruction) : Path (.emit instruction) [instruction] .through
  | seq {first rest : Code} {path after : List Instruction} {exit : Exit} :
      Path first path .through → Path rest after exit →
      Path (.seq first rest) (path ++ after) exit
  | leave {first rest : Code} {path : List Instruction} :
      Path first path .back → Path (.seq first rest) path .back
  | one {one other : Code} {path : List Instruction} {exit : Exit} :
      Path one path exit → Path (.branch one other) path exit
  | other {one other : Code} {path : List Instruction} {exit : Exit} :
      Path other path exit → Path (.branch one other) path exit
  | stop {body : Code} : Path (.loop body) [] .through
  | again {body : Code} {path after : List Instruction} {exit : Exit} :
      Path body path .through → Path (.loop body) after exit →
      Path (.loop body) (path ++ after) exit
  | leaveLoop {body : Code} {path : List Instruction} :
      Path body path .back → Path (.loop body) path .back
  | back : Path .back [] .back

/-- The paths through a function, from its entry to its return. -/
inductive Code.Run : Code → List Instruction → Prop where
  | last {body : Code} {path : List Instruction} : Path body path .through → Run body path
  | again {body : Code} {path after : List Instruction} :
      Path body path .back → Run body after → Run body (path ++ after)

/-- How many sections are open after a path that starts with `open_`; `none` where one is closed
that is not open. -/
def sectionsAfter : List Instruction → Nat → Option Nat
  | [], open_ => some open_
  | .atomicBegin :: rest, open_ => sectionsAfter rest (open_ + 1)
  | .atomicEnd :: rest, open_ =>
    match open_ with
    | 0 => none
    | open_ + 1 => sectionsAfter rest open_
  | .load _ :: rest, open_ | .store _ :: rest, open_ => sectionsAfter rest open_

/-- Every section a path opens it closes, and it closes no other. -/
def Balanced (path : List Instruction) : Prop :=
  ∀ open_, sectionsAfter path open_ = some open_

/-! ### The generator -/

/-- A `:=` without `@` as it was lowered.  `listed` tells whether its bare name was in
`atomic_bindings` before its right side; `before` is the binding of the name then (`true` if it was
declared with `@`), `reassigned` the one the statement reassigns. -/
structure Assignment where
  name : String
  inFunction : Bool
  opened : Bool
  listed : Bool
  before : Option Bool
  reassigned : Option Bool
  hasSlot : Bool
  code : Code

/-- What types decide: which lambdas are inlined as the callback of a collection's method, which
`&&` and `||` a user operator answers, which callees are closure values, which `.size` is read
straight from its variable, and which functions and calls are lowered to loops. -/
structure LoweringAnswers where
  inlined : Span → Bool
  userOperator : Span → Bool
  closureCallee : Span → Bool
  inPlace : Span → Bool
  loops : Span → Bool
  backEdges : Span → Bool
  isVariant : String → Bool

structure Generator where
  atomicBindings : List String
  variableTable : List String
  globals : List String
  scopes : List (List (String × Bool))
  functions : List Code
  assignments : List Assignment

namespace Generator

/-- `Environment::lookup`: the innermost binding of a name, and whether `@` declared it. -/
def lookup (generator : Generator) (name : String) : Option Bool :=
  generator.scopes.findSome? (·.lookup name)

/-- `define_symbol`, in the innermost scope. -/
def define (generator : Generator) (name : String) (atomic : Bool) : Generator :=
  match generator.scopes with
  | scope :: rest => { generator with scopes := ((name, atomic) :: scope) :: rest }
  | [] => { generator with scopes := [[(name, atomic)]] }

/-- A scope of its own for the names of a function, a lambda or an arm. -/
def pushScope (generator : Generator) (names : List String) : Generator :=
  { generator with scopes := names.map (·, false) :: generator.scopes }

def popScope (generator : Generator) : Generator :=
  { generator with scopes := generator.scopes.tail }

def insertVariable (generator : Generator) (name : String) : Generator :=
  { generator with variableTable := name :: generator.variableTable }

/-- A read, bracketed if the name is listed. -/
def read (generator : Generator) (name : String) : Code :=
  if generator.atomicBindings.contains name then
    .seq (.emit .atomicBegin) (.seq (.emit (.load name)) (.emit .atomicEnd))
  else .emit (.load name)

def generateIdentifier (answers : LoweringAnswers) (generator : Generator) (name : String) : Code :=
  if generator.variableTable.contains name then generator.read name
  else if answers.isVariant name then .skip
  else if generator.globals.contains name then generator.read name
  else .skip

/-- `atomic_bindings.insert`, for a declaring occurrence. -/
def recordAtomic (generator : Generator) (declaration : VariableDeclaration) : Generator :=
  if declaration.atomic then
    { generator with atomicBindings := declaration.name :: generator.atomicBindings }
  else generator

/-- `is_atomic_reassignment` -/
def isAtomicReassignment (generator : Generator) (declaration : VariableDeclaration) : Bool :=
  !declaration.atomic && declaration.isMutable &&
    generator.atomicBindings.contains declaration.name

/-- What the checker makes of a binding: a `:=` to a name in scope is a reassignment. -/
def bind (generator : Generator) (declaration : VariableDeclaration) : Generator :=
  if declaration.isMutable && (generator.lookup declaration.name).isSome then generator
  else generator.define declaration.name declaration.atomic

def logAssignment (generator : Generator) (assignment : Assignment) : Generator :=
  { generator with assignments := assignment :: generator.assignments }

/-- Only the stores through a slot that is there already end a section. -/
def bindingCode (opened hasSlot : Bool) (name : String) (value : Code) : Code :=
  let begin_ := if opened then Code.emit .atomicBegin else .skip
  let end_ := if opened then Code.emit .atomicEnd else .skip
  if hasSlot then .seq begin_ (.seq value (.seq (.emit (.store name)) end_))
  else .seq begin_ (.seq value (.emit (.store name)))

/-- A binding inside a function, after the code of its value: it is stored through the slot of the
name, through the global, or into a fresh slot.  `before` is the generator before the value. -/
def storeBinding (generator before : Generator) (declaration : VariableDeclaration)
    (value : Code) : Code × Generator :=
  let opened := before.isAtomicReassignment declaration
  let hasSlot := generator.variableTable.contains declaration.name ||
    generator.globals.contains declaration.name
  let code := bindingCode opened (declaration.isMutable && hasSlot) declaration.name value
  let generator :=
    if declaration.isMutable && !declaration.atomic then
      generator.logAssignment
        { name := declaration.name, inFunction := true, opened
          listed := before.atomicBindings.contains declaration.name
          before := before.lookup declaration.name
          reassigned := generator.lookup declaration.name
          hasSlot, code }
    else generator
  let generator :=
    if declaration.isMutable && hasSlot then generator
    else generator.insertVariable declaration.name
  (code, generator.bind declaration)

/-- The names that shadow others for a while are put back to what they were. -/
def restoreBindings (generator before : Generator) (names : List String) : Generator :=
  { generator with
    variableTable := generator.variableTable.filter fun name =>
      !names.contains name || before.variableTable.contains name }

/-- A frame of its own, with these names. -/
def enterFunction (generator : Generator) (names parameters : List String) : Generator :=
  { generator.pushScope parameters with variableTable := names }

/-- The function is emitted, and the frame of the one around it taken up again. -/
def leaveFunction (generator before : Generator) (body : Code) : Generator :=
  { generator.popScope with
    variableTable := before.variableTable
    functions := body :: generator.functions }

end Generator

/-- `pattern_binding_names` -/
def Pattern.bindingNames : Pattern → List String
  | .identifier name _ => [name]
  | .constructor _ arguments _ => arguments.filterMap fun
    | .identifier name _ => some name
    | _ => none
  | .wildcard _ | .number _ _ | .text _ _ => []

def EXPECT : String := "expect"

section Lowering

variable (answers : LoweringAnswers)

mutual

/-- `generate_expression`, and `generate_tail_expression` where `tail` is set. -/
def generateExpression : Bool → Expression → Generator → Code × Generator
  | _, .number _ _, g | _, .string _ _, g | _, .bool _ _, g | _, .unit _, g => (.skip, g)
  | _, .identifier name _, g => (g.generateIdentifier answers name, g)
  | _, .interpolation parts _, g => generateParts parts g
  | _, .binaryOperator left operator right span, g =>
    let (first, g) := generateExpression false left g
    let (second, g) := generateExpression false right g
    if (operator = .and || operator = .or) && !answers.userOperator span then
      (.seq first (.branch second .skip), g)
    else (.seq first second, g)
  | _, .unaryOperator _ e _, g | _, .spread e _, g => generateExpression false e g
  | _, .fieldAccess (.identifier name _) _ span, g =>
    if answers.inPlace span && g.variableTable.contains name then (.emit (.load name), g)
    else (g.generateIdentifier answers name, g)
  | _, .fieldAccess e _ _, g => generateExpression false e g
  | tail, .call function arguments memberCall span, g =>
    match function with
    | .identifier name _ =>
      let (values, after) := generateArguments (atPrimitiveName name) arguments g
      if !memberCall && name == EXPECT then (.branch values .skip, after)
      else if tail && answers.backEdges span then (.seq values .back, after)
      else if answers.closureCallee span then
        (.seq (g.generateIdentifier answers name) values, after)
      else (values, after)
    | callee =>
      let (first, g) := generateExpression false callee g
      let (values, g) := generateArguments none arguments g
      (.seq first values, g)
  | _, .lambda parameters _ body span, g =>
    let names := parameters.map (·.name)
    if answers.inlined span then
      let inner := { g.pushScope names with variableTable := names ++ g.variableTable }
      let (code, after) := generateExpression false body inner
      (.loop code, after.popScope.restoreBindings g names)
    else
      let captures := lambdaFreeIdents names body g.variableTable
      let (code, after) := generateExpression false body (g.enterFunction (captures ++ names) names)
      (.skip, after.leaveFunction g code)
  | tail, .block statements _, g => generateStatements tail statements g
  | tail, .ifThenElse condition then_ else_ _, g =>
    let (test, g) := generateExpression false condition g
    let (one, g) := generateExpression tail then_ g
    let (other, g) := generateExpression tail else_ g
    (.seq test (.branch one other), g)
  | tail, .match_ scrutinee arms _, g =>
    let (value, g) := generateExpression false scrutinee g
    let (code, g) := generateArms tail arms g
    (.seq value code, g)
  -- The value of a field write comes first.
  | _, .fieldAssign (.fieldAccess base _ _) value _, g =>
    let (first, g) := generateExpression false value g
    let (second, g) := generateExpression false base g
    (.seq first second, g)
  | _, .fieldAssign _ _ _, g => (.skip, g)
  | _, .indexAssign (.index array index _) value _, g =>
    let (first, g) := generateExpression false array g
    let (second, g) := generateExpression false index g
    let (third, g) := generateExpression false value g
    (.seq first (.seq second third), g)
  | _, .indexAssign _ _ _, g => (.skip, g)
  | _, .index left right _, g | _, .range left right _, g =>
    let (first, g) := generateExpression false left g
    let (second, g) := generateExpression false right g
    (.seq first second, g)
  | _, .array elements _, g | _, .setLiteral elements _, g => generateAll elements g
  | _, .mapLiteral entries _, g => generateEntries entries g
  | _, .record fields _, g | _, .constructor _ fields _, g => generateFields fields g

def generateAll : List Expression → Generator → Code × Generator
  | [], g => (.skip, g)
  | e :: rest, g =>
    let (first, g) := generateExpression false e g
    let (others, g) := generateAll rest g
    (.seq first others, g)

/-- The arguments of a call.  A server's handler is lowered before its address, and an options
argument twice, once for each of its fields that are read. -/
def generateArguments : Option String → List Expression → Generator → Code × Generator
  | _, [], g => (.skip, g)
  | primitive, [first, second], g =>
    if primitive = some "tcpServe" || primitive = some "serve" then
      let (handler, g) := generateExpression false second g
      let (address, g) := generateExpression false first g
      (.seq handler address, g)
    else
      let (one, g) := generateExpression false first g
      let (other, g) := generateExpression false second g
      (.seq one other, g)
  | primitive, [first, second, third], g =>
    if primitive = some "serve" then
      let (handler, g) := generateExpression false second g
      let (maxBodySize, g) := generateExpression false third g
      let (idleTimeout, g) := generateExpression false third g
      let (address, g) := generateExpression false first g
      (.seq handler (.seq maxBodySize (.seq idleTimeout address)), g)
    else if primitive = some "tcpRequest" then
      let (address, g) := generateExpression false first g
      let (bytes, g) := generateExpression false second g
      let (transport, g) := generateExpression false third g
      let (certificates, g) := generateExpression false third g
      (.seq address (.seq bytes (.seq transport certificates)), g)
    else
      let (one, g) := generateExpression false first g
      let (other, g) := generateExpression false second g
      let (last, g) := generateExpression false third g
      (.seq one (.seq other last), g)
  | _, e :: rest, g =>
    let (first, g) := generateExpression false e g
    let (others, g) := generateAll rest g
    (.seq first others, g)

def generateParts : List InterpolationPart → Generator → Code × Generator
  | [], g => (.skip, g)
  | .literal _ :: rest, g => generateParts rest g
  | .hole e :: rest, g =>
    let (first, g) := generateExpression false e g
    let (others, g) := generateParts rest g
    (.seq first others, g)

def generateEntries : List (Expression × Expression) → Generator → Code × Generator
  | [], g => (.skip, g)
  | (key, value) :: rest, g =>
    let (first, g) := generateExpression false key g
    let (second, g) := generateExpression false value g
    let (others, g) := generateEntries rest g
    (.seq first (.seq second others), g)

def generateFields : List (String × Expression) → Generator → Code × Generator
  | [], g => (.skip, g)
  | (_, value) :: rest, g =>
    let (first, g) := generateExpression false value g
    let (others, g) := generateFields rest g
    (.seq first others, g)

/-- The arms of a match, tried in turn; past the last one the program aborts. -/
def generateArms : Bool → List MatchArm → Generator → Code × Generator
  | _, [], g => (.skip, g)
  | tail, ⟨pattern, body, _⟩ :: rest, g =>
    let names := pattern.bindingNames
    let inner := { g.pushScope names with variableTable := names ++ g.variableTable }
    let (one, after) := generateExpression tail body inner
    let (other, g) := generateArms tail rest (after.popScope.restoreBindings g names)
    (.branch one other, g)

/-- `generate_block`; in tail position only the last expression is. -/
def generateStatements : Bool → List Statement → Generator → Code × Generator
  | _, [], g => (.skip, g)
  | tail, [.expression e], g => generateExpression tail e g
  | tail, .expression e :: rest, g =>
    let (first, g) := generateExpression false e g
    let (others, g) := generateStatements tail rest g
    (.seq first others, g)
  | tail, .item (.variableDeclaration ⟨m, name, ty, value, exported, atomic, span⟩) :: rest, g =>
    let declaration : VariableDeclaration := ⟨m, name, ty, value, exported, atomic, span⟩
    let recorded := g.recordAtomic declaration
    let (code, after) := generateExpression false value recorded
    let (first, g) := after.storeBinding recorded declaration code
    let (others, g) := generateStatements tail rest g
    (.seq first others, g)
  | tail, .item (.functionDeclaration ⟨name, ps, ret, bind, body, exported, corelib, span⟩) :: rest,
      g =>
    let declaration : FunctionDeclaration := ⟨name, ps, ret, bind, body, exported, corelib, span⟩
    if declaration.isInertCorelibPlaceholder || (atPrimitiveName name).isSome then
      generateStatements tail rest g
    else
      let names := ps.map (·.name)
      let captures := lambdaFreeIdents names body g.variableTable
      let closure := !captures.isEmpty
      let (code, after) := generateExpression (!closure && answers.loops span) body
        ((g.define name false).enterFunction (captures ++ names) names)
      let g := after.leaveFunction g code
      generateStatements tail rest (if closure then g.insertVariable name else g)
  | tail, .item (.typeDeclaration ⟨_, .sum _ methods, _, _⟩) :: rest, g
  | tail, .item (.typeDeclaration ⟨_, .record _ methods, _, _⟩) :: rest, g =>
    generateStatements tail rest (generateMethods methods g)
  -- A trap is a top-level-only item.
  | tail, .item (.trapDeclaration _) :: rest, g => generateStatements tail rest g

def generateMethods : List MethodDeclaration → Generator → Generator
  | [], g => g
  | ⟨name, parameters, _, body, _, span⟩ :: rest, g =>
    let names := RECEIVER :: parameters.map (·.name)
    -- Only an operator member goes through `emit_module_function`.
    let loops := isOperatorSymbol name && answers.loops span
    let (code, after) := generateExpression loops body (g.enterFunction names names)
    generateMethods rest (after.leaveFunction g code)

end

/-! ### The program -/

/-- `__ql_init` and what has been generated so far. -/
structure Lowered where
  init : Code
  generator : Generator

/-- An initializer that is an LLVM constant. -/
def isConstant : Expression → Bool
  | .string _ _ | .number _ _ | .bool _ _ | .unit _ | .lambda _ _ _ _ => true
  | _ => false

/-- `generate_top_level_binding`: no section, and a global of its own. -/
def generateTopLevelBinding (declaration : VariableDeclaration) (lowered : Lowered) : Lowered :=
  let recorded := lowered.generator.recordAtomic declaration
  let (value, after) := generateExpression answers false declaration.value recorded
  let store := Code.emit (.store declaration.name)
  let code := Code.seq value store
  let logged :=
    if declaration.isMutable && !declaration.atomic then
      after.logAssignment
        { name := declaration.name, inFunction := false, opened := false
          listed := recorded.atomicBindings.contains declaration.name
          before := recorded.lookup declaration.name
          reassigned := after.lookup declaration.name
          hasSlot := false, code }
    else after
  let bound := logged.bind declaration
  { init := if isConstant declaration.value then lowered.init else .seq lowered.init code
    generator := { bound with globals := declaration.name :: bound.globals } }

/-- A top-level function; its frame stays behind until the next one is entered. -/
def generateTopLevelFunction (declaration : FunctionDeclaration) (g : Generator) : Generator :=
  if declaration.isInertCorelibPlaceholder || (atPrimitiveName declaration.name).isSome then g
  else
    let names := declaration.parameters.map (·.name)
    let (code, after) :=
      generateExpression answers (answers.loops declaration.span) declaration.body
        (g.enterFunction names names)
    after.leaveFunction after code

/-- `generate_trap`: a function for each arm. -/
def generateTrapArms : List MatchArm → Generator → Generator
  | [], g => g
  | arm :: rest, g =>
    let names := arm.pattern.bindingNames
    let (code, after) := generateExpression answers false arm.body (g.enterFunction names names)
    generateTrapArms rest (after.leaveFunction g code)

def generateItem (reachable : Option (List String)) (lowered : Lowered) : Item → Lowered
  | .variableDeclaration declaration => generateTopLevelBinding answers declaration lowered
  | .functionDeclaration declaration =>
    let defined := lowered.generator.define declaration.name false
    -- A function that nothing can reach is not emitted.
    { lowered with
      generator :=
        if reachable.all (·.contains declaration.name) then
          generateTopLevelFunction answers declaration defined
        else defined }
  | .typeDeclaration declaration =>
    { lowered with
      generator := generateMethods answers declaration.typeDefinition.methods lowered.generator }
  | .trapDeclaration trap =>
    { lowered with generator := generateTrapArms answers trap.arms lowered.generator }

def Generator.start : Generator where
  atomicBindings := []
  variableTable := []
  globals := []
  scopes := [[]]
  functions := []
  assignments := []

def generate (program : Program) : Lowered :=
  program.items.foldl (generateItem answers (reachableFunctions program)) ⟨.skip, .start⟩

end Lowering

end Quilon
