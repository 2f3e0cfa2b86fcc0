import Quilon.Ast.Within
import Quilon.Ast.Reachability
import Quilon.Deferral
import Quilon.Library.Transition

/-!
# The machine the emitted code runs on

Small-step semantics of a compiled program: what `generate_expression`, `generate_block`,
`if_position`, `match_position`, `generate_call`, `generate_tail_expression` and the launch
registry of `quilon-rt/src/launch_scope.rs` make the code do, one fiber step at a time.

* A deferred value is a `promise`; an expression whose span is a force site has its value forced.
* Variables are cells.  `:=` writes the cell its name has, closures keep the cells of the names
  they capture, and the names bound in blocks and branches stay bound for the rest of the function
  (`variables` of the generator is one table per function).  A branch that is not taken still
  brings its names into that table, with a slot nothing has been stored to.
* What types decide is left open: which of the functions, methods and built-ins of a name a call
  reaches, which arm a match takes, and what a built-in returns.  A built-in may call the closures
  it was given, any method, and the overload sets of its operator.
* Fibers interleave at every step.  A server's handlers and the arms of a trap run on fibers of
  their own, and the host may call `^` and the exported functions once the initialisers have run.

`Context.visible`, `Store.skipped` and the launches kept by an activation are not in the code: they
record what the theorems speak about.
-/

namespace Quilon

/-! ### Values, contexts, closures -/

/-- A run-time value.  `data` stands for a record, sum, collection or handle, whose contents are
not followed. -/
inductive Value where
  | promise (launch : Nat)
  | unit
  | bool (value : Bool)
  | number (value : Rat)
  | text (value : String)
  | closure (index : Nat)
  | data (handle : Nat)
deriving DecidableEq

def Value.isPromise : Value → Bool
  | .promise _ => true
  | _ => false

abbrev Env := List (String × Nat)

/-- Where running code finds its names.  `visible` records, for each binding statement that is
still in scope lexically, whether it stored a promise when it ran. -/
structure Context where
  env : Env
  visible : List (String × Bool)

/-- Code that can be called: a lambda, function or method with the names it sees.  `loop` marks a
function whose self-calls in tail position are lowered to a loop. -/
structure Closure where
  parameters : List String
  body : Expression
  context : Context
  loop : Bool

/-- What reaching the end of a built-in's work does besides yielding a value. -/
inductive Effect where
  | none
  | deferred
  | serves (http : Bool)
  | waits

/-- A built-in at work.  `names` are the overload sets it may dispatch to; `guarded` marks the
runner of a test case, whose callback may be abandoned. -/
structure Operation where
  names : List String
  effect : Effect
  guarded : Bool

inductive Frame where
  | force
  | operands (whole : Expression) (tail : Bool) (rest : List Expression) (values : List Value)
  | condition (tail : Bool) (then_ else_ : Expression)
  | leaveBranch (skipped : Expression)
  | shortCircuit (operator : BinaryOperator) (right : Expression)
  | rightOperand
  | scrutinee (tail : Bool) (arms : List MatchArm)
  | leaveArm (context : Context)
  | statement (tail : Bool) (rest : List Statement)
  | bind (declaration : VariableDeclaration) (tail : Bool) (rest : List Statement)
  | block (tail : Bool) (span : Span) (scope : Option (List Nat)) (visible : List (String × Bool))
  | activation (code : Closure) (caller : Context) (scope : Option (List Nat))
      (launched : List Nat)
  | builtin (operation : Operation) (values : List Value)
  | guard (context : Context)
  | initialise (declaration : VariableDeclaration) (rest : List Item)

inductive Control where
  | eval (tail : Bool) (e : Expression)
  | operands (whole : Expression) (tail : Bool) (rest : List Expression) (values : List Value)
  | run (tail : Bool) (statements : List Statement)
  | apply (code : Closure) (arguments : List Value)
  | operate (operation : Operation) (values : List Value)
  | restart (arguments : List Value)
  | deliver (value : Value)
  | items (rest : List Item)
  | done

structure Fiber where
  control : Control
  context : Context
  frames : List Frame

/-- What fibers share.  A cell is `none` until something is stored in it; a launch is `true` once
it has settled; a handler is a closure a server calls, through `serveConnection` for `@serve`.
`skipped` keeps the slots that only branches not taken have brought in so far. -/
structure Store where
  cells : List (Option Value)
  skipped : List Nat
  closures : List Closure
  methods : List (String × Closure)
  launches : List Bool
  handlers : List (Nat × Bool)

structure State where
  store : Store
  fibers : List Fiber

/-! ### The compiled program -/

/-- A program with the answers its code was generated from: the deferral analysis, and what
depends on types.  `order` lists the operands of an expression as they are lowered (the fields of
a literal in its type's order, an `@serve` call's handler first), `evaluatesBoth` tells the `&&`
and `||` that a user operator answers, `loops` the functions lowered to loops and `backEdges` the
calls that close them. -/
structure Setup where
  program : Program
  info : DeferInfo
  order : Expression → List Expression
  order_operands : ∀ e, ∀ c ∈ order e, c ∈ e.operands
  evaluatesBoth : Span → Bool
  loops : Span → Bool
  backEdges : Span → Bool

/-- Whether a declaration becomes a function of the emitted module. -/
def FunctionDeclaration.emitsModuleFunction (f : FunctionDeclaration) : Bool :=
  !f.isInertCorelibPlaceholder && (atPrimitiveName f.name).isNone

def FunctionDeclaration.code (f : FunctionDeclaration) (loops : Span → Bool) (env : Env) :
    Closure where
  parameters := f.parameters.map (·.name)
  body := f.body
  context := ⟨env, []⟩
  loop := loops f.span

def MethodDeclaration.code (m : MethodDeclaration) (env : Env) : Closure where
  parameters := RECEIVER :: m.parameters.map (·.name)
  body := m.body
  context := ⟨env, []⟩
  loop := false

/-- The items with the globals declared above each, the latest first.  The `n`-th global has
cell `n`. -/
def withGlobals : Env → List Item → List (Item × Env)
  | _, [] => []
  | env, item :: rest =>
    let after := match item with
      | .variableDeclaration v => (v.name, env.length) :: env
      | _ => env
    (item, env) :: withGlobals after rest

def Item.isVariable : Item → Bool
  | .variableDeclaration _ => true
  | _ => false

namespace Setup

variable (setup : Setup)

def itemsWithGlobals : List (Item × Env) :=
  withGlobals [] setup.program.items

def globalCount : Nat :=
  (setup.program.items.filter Item.isVariable).length

/-- The top-level functions that are emitted, with their code. -/
def functions : List (FunctionDeclaration × Closure) :=
  setup.itemsWithGlobals.filterMap fun
    | (.functionDeclaration f, env) =>
      if f.emitsModuleFunction then some (f, f.code setup.loops env) else none
    | _ => none

def topLevelMethods : List (String × Closure) :=
  setup.itemsWithGlobals.flatMap fun
    | (.typeDeclaration t, env) => t.typeDefinition.methods.map fun m => (m.name, m.code env)
    | _ => []

/-- The arms of the traps, with the globals they see. -/
def trapArms : List (MatchArm × Env) :=
  setup.itemsWithGlobals.flatMap fun
    | (.trapDeclaration trap, env) => trap.arms.map fun arm => (arm, env)
    | _ => []

/-- Globals start out zeroed. -/
def start : State where
  store :=
    { cells := List.replicate setup.globalCount (some (.data 0))
      skipped := []
      closures := []
      methods := setup.topLevelMethods
      launches := []
      handlers := [] }
  fibers := [⟨.items setup.program.items, ⟨[], []⟩, []⟩]

end Setup

/-! ### Binding names -/

/-- The names a pattern binds, left to right. -/
def Pattern.names : Pattern → List String
  | .identifier name _ => [name]
  | .constructor _ arguments _ => namesAll arguments
  | .number _ _ | .text _ _ | .wildcard _ => []
where
  namesAll : List Pattern → List String
    | [] => []
    | p :: rest => p.names ++ namesAll rest

/-- Fresh cells for `names`.  Values that were not passed are filled in: a call may leave a
trailing `Site` to the compiler. -/
def bindAll (store : Store) (env : Env) : List String → List Value → Store × Env
  | [], _ => (store, env)
  | name :: names, values =>
    bindAll { store with cells := store.cells ++ [some (values.head?.getD (.data 0))] }
      ((name, store.cells.length) :: env) names values.tail

def Store.setCell (store : Store) (address : Nat) (value : Value) : Store :=
  { store with
      cells := store.cells.set address (some value)
      skipped := store.skipped.filter (· ≠ address) }

/-- A binding statement: `:=` writes the cell its name has, anything else gets a new one. -/
def bindStatement (store : Store) (context : Context) (declaration : VariableDeclaration)
    (value : Value) : Store × Context :=
  let visible := (declaration.name, value.isPromise) :: context.visible
  match if declaration.isMutable then context.env.lookup declaration.name else none with
  | some address => (store.setCell address value, ⟨context.env, visible⟩)
  | none =>
    ({ store with cells := store.cells ++ [some value] },
      ⟨(declaration.name, store.cells.length) :: context.env, visible⟩)

/-- A function declared in a block: a closure over the names above it, and over its own when its
return type is written. -/
def declareFunction (setup : Setup) (store : Store) (context : Context)
    (f : FunctionDeclaration) : Store × Context :=
  let env := (f.name, store.cells.length) :: context.env
  let code := f.code setup.loops (if f.returnType.isSome then env else context.env)
  ({ store with
      cells := store.cells ++ [some (.closure store.closures.length)]
      closures := store.closures ++ [code] },
    ⟨env, context.visible⟩)

/-- The methods of a block-declared type see globals only. -/
def declareType (setup : Setup) (store : Store) (context : Context) (t : TypeDeclaration) :
    Store :=
  let env := context.env.filter (·.2 < setup.globalCount)
  { store with
      methods := store.methods ++ t.typeDefinition.methods.map fun m => (m.name, m.code env) }

/-! ### Branches that are not taken -/

mutual

/-- The items an expression declares in the function it occurs in, in the order met: not those of
lambdas, nested functions, methods or match arms, which have scopes of their own. -/
def introduces : Expression → List Item
  | .number _ _ | .string _ _ | .bool _ _ | .unit _ | .identifier _ _ | .lambda _ _ _ _ => []
  | .interpolation parts _ => introducesParts parts
  | .binaryOperator left _ right _ | .fieldAssign left right _ | .index left right _
  | .indexAssign left right _ | .range left right _ => introduces left ++ introduces right
  | .unaryOperator _ e _ | .fieldAccess e _ _ | .spread e _ | .match_ e _ _ => introduces e
  | .call function arguments _ _ => introduces function ++ introducesAll arguments
  | .block statements _ => introducesStatements statements
  | .ifThenElse condition then_ else_ _ =>
    introduces condition ++ introduces then_ ++ introduces else_
  | .array elements _ | .setLiteral elements _ => introducesAll elements
  | .mapLiteral entries _ => introducesEntries entries
  | .record fields _ | .constructor _ fields _ => introducesFields fields

def introducesAll : List Expression → List Item
  | [] => []
  | e :: rest => introduces e ++ introducesAll rest

def introducesParts : List InterpolationPart → List Item
  | [] => []
  | .literal _ :: rest => introducesParts rest
  | .hole e :: rest => introduces e ++ introducesParts rest

def introducesEntries : List (Expression × Expression) → List Item
  | [] => []
  | (key, value) :: rest => introduces key ++ introduces value ++ introducesEntries rest

def introducesFields : List (String × Expression) → List Item
  | [] => []
  | (_, value) :: rest => introduces value ++ introducesFields rest

def introducesStatements : List Statement → List Item
  | [] => []
  | .expression e :: rest => introduces e ++ introducesStatements rest
  | .item (.variableDeclaration ⟨m, name, ty, value, exported, atomic, span⟩) :: rest =>
    introduces value ++ .variableDeclaration ⟨m, name, ty, value, exported, atomic, span⟩ ::
      introducesStatements rest
  | .item item :: rest => item :: introducesStatements rest

end

/-- A slot nothing is stored to. -/
def reserveSlot (store : Store) (context : Context) (name : String) : Store × Context :=
  ({ store with
      cells := store.cells ++ [none]
      skipped := store.cells.length :: store.skipped },
    ⟨(name, store.cells.length) :: context.env, context.visible⟩)

/-- What generating the code of an item brings into the function's table, without running it. -/
def reserveItem (setup : Setup) (store : Store) (context : Context) : Item → Store × Context
  | .variableDeclaration v =>
    if v.isMutable && (context.env.lookup v.name).isSome then (store, context)
    else reserveSlot store context v.name
  | .functionDeclaration f => reserveSlot store context f.name
  | .typeDeclaration t => (declareType setup store context t, context)
  | .trapDeclaration _ => (store, context)

def reserve (setup : Setup) (store : Store) (context : Context) (skipped : Expression) :
    Store × Context :=
  (introduces skipped).foldl (fun sc item => reserveItem setup sc.1 sc.2 item) (store, context)

/-! ### Launches -/

def Store.settled (store : Store) (scope : Option (List Nat)) : Bool :=
  (scope.getD []).all fun launch => store.launches[launch]?.getD false

/-- `register`: the innermost open scope of the fiber takes the launch; a test case runs on a
fiber of its own.  Without an open scope the launch is dropped. -/
def registerLaunch (launch : Nat) : List Frame → List Frame
  | [] => []
  | .block tail span (some scope) visible :: frames =>
    .block tail span (some (scope ++ [launch])) visible :: frames
  | .activation code caller (some scope) launched :: frames =>
    .activation code caller (some (scope ++ [launch])) launched :: frames
  | .guard context :: frames => .guard context :: frames
  | frame :: frames => frame :: registerLaunch launch frames

/-- The activation that contains the call keeps what it launched. -/
def recordLaunch (launch : Nat) : List Frame → List Frame
  | [] => []
  | .activation code caller scope launched :: frames =>
    .activation code caller scope (launched ++ [launch]) :: frames
  | .guard context :: frames => .guard context :: frames
  | frame :: frames => frame :: recordLaunch launch frames

/-! ### Steps of one fiber -/

/-- What a step takes from outside the model. -/
inductive Choice where
  | none
  | result (value : Value)
  | builtin
  | binding
  | closure (index : Nat) (arguments : List Value)
  | method (index : Nat) (arguments : List Value)
  | function (index : Nat) (arguments : List Value)
  | arm (index : Nat) (values : List Value)

/-- A value that is not deferred, and that exists if it is a closure. -/
def Store.ready (store : Store) : Value → Bool
  | .promise _ => false
  | .closure index => index < store.closures.length
  | _ => true

def endsInExpression (statements : List Statement) : Bool :=
  match statements.getLast? with
  | some (.expression _) => true
  | _ => false

/-- Whether `generate_tail_expression` lowers `e` itself, past the force of its value. -/
def Setup.loweredInTail (setup : Setup) (tail : Bool) : Expression → Bool
  | .block _ _ | .ifThenElse _ _ _ _ | .match_ _ _ _ => tail
  | .call (.identifier _ _) _ false span => tail && setup.backEdges span
  | _ => false

def BinaryOperator.isLogical : BinaryOperator → Bool
  | .and | .or => true
  | _ => false

/-- The overload sets a construct may dispatch to besides built-in code. -/
def operatorNames : Expression → List String
  | .binaryOperator _ operator _ _ => [operator.symbol]
  | .interpolation _ _ => ["`"]
  | _ => []

def callEffect (function : Expression) (arguments : List Expression) (memberCall : Bool) : Effect :=
  if producesDeferred function arguments memberCall then .deferred
  else if namesPrimitive function "tcpServe" then .serves false
  else if namesPrimitive function "serve" then .serves true
  else if namesPrimitive function "sleep" || namesPrimitive function "streamFile" then .waits
  else .none

section Steps

variable (setup : Setup) (choice : Choice) (store : Store) (context : Context)
  (frames : List Frame)

/-- A value from outside: the result of a built-in, the constant of a nullary constructor, what a
slot holds that nothing was stored to. -/
def deliverChosen : Option (Store × Fiber) :=
  match choice with
  | .result value =>
    if store.ready value then some (store, ⟨.deliver value, context, frames⟩) else none
  | _ => none

def readIdentifier (name : String) : Option (Store × Fiber) :=
  match context.env.lookup name with
  | some address =>
    match store.cells[address]? with
    | some (some value) => some (store, ⟨.deliver value, context, frames⟩)
    | _ => deliverChosen choice store context frames
  | none => deliverChosen choice store context frames

def enterBlock (tail : Bool) (statements : List Statement) (span : Span) : Store × Fiber :=
  if tail && endsInExpression statements then
    -- The loop opened the body's own scope at its header; a nested block opens none.
    (store, ⟨.run true statements, context, .block true span none context.visible :: frames⟩)
  else
    let scope := if setup.info.launchScopes.contains span then some [] else none
    (store, ⟨.run false statements, context, .block false span scope context.visible :: frames⟩)

/-- `generate_expression_inner`, with `frames` already holding the force of the value. -/
def evaluate (tail : Bool) (e : Expression) : Option (Store × Fiber) :=
  match e with
  | .number value _ => some (store, ⟨.deliver (.number value), context, frames⟩)
  | .string value _ => some (store, ⟨.deliver (.text value), context, frames⟩)
  | .bool value _ => some (store, ⟨.deliver (.bool value), context, frames⟩)
  | .unit _ => some (store, ⟨.deliver .unit, context, frames⟩)
  | .identifier name _ => readIdentifier choice store context frames name
  | .lambda parameters _ body _ =>
    some ({ store with closures := store.closures ++
        [⟨parameters.map (·.name), body, context, false⟩] },
      ⟨.deliver (.closure store.closures.length), context, frames⟩)
  | .block statements span => some (enterBlock setup store context frames tail statements span)
  | .ifThenElse condition then_ else_ _ =>
    some (store, ⟨.eval false condition, context, .condition tail then_ else_ :: frames⟩)
  | .match_ scrutinee arms _ =>
    some (store, ⟨.eval false scrutinee, context, .scrutinee tail arms :: frames⟩)
  | .binaryOperator left operator right span =>
    if operator.isLogical && !setup.evaluatesBoth span then
      some (store, ⟨.eval false left, context, .shortCircuit operator right :: frames⟩)
    else some (store, ⟨.operands e false (setup.order e) [], context, frames⟩)
  | e => some (store, ⟨.operands e tail (setup.order e) [], context, frames⟩)

/-- `generate_expression`, or `generate_tail_expression` when `tail`. -/
def evalStep (tail : Bool) (e : Expression) : Option (Store × Fiber) :=
  if setup.loweredInTail tail e then evaluate setup choice store context frames true e
  else if setup.info.forceSites.contains e.span then
    evaluate setup choice store context (.force :: frames) false e
  else evaluate setup choice store context frames false e

/-- A call by name, with its arguments evaluated.  Only a built-in answers an `@` primitive, a
member call never reaches the top-level namespace, and a Text method may be a `core.text`
function. -/
def dispatch (function : Expression) (name : String) (arguments : List Expression)
    (memberCall : Bool) (values : List Value) : Option (Store × Fiber) :=
  match choice with
  | .builtin =>
    let operation := ⟨[], callEffect function arguments memberCall, name == "__test_run_case"⟩
    some (store, ⟨.operate operation values, context, frames⟩)
  | .binding =>
    if memberCall || (atPrimitiveName name).isSome then none
    else match context.env.lookup name with
      | some address =>
        match store.cells[address]? with
        | some (some (.closure index)) =>
          (store.closures[index]?).map fun code => (store, ⟨.apply code values, context, frames⟩)
        | _ => none
      | none => none
  | .function index _ =>
    if (atPrimitiveName name).isSome then none
    else match setup.functions[index]? with
      | some (f, code) =>
        if (if memberCall then qnTextImpl name = some f.name else f.name = name) then
          some (store, ⟨.apply code values, context, frames⟩)
        else none
      | none => none
  | .method index _ =>
    if memberCall && (atPrimitiveName name).isNone then
      match store.methods[index]? with
      | some (method, code) =>
        if method = name then some (store, ⟨.apply code values, context, frames⟩) else none
      | none => none
    else none
  | _ => none

/-- The operands are evaluated: a self-call in tail position closes the loop, a call is
dispatched, and anything else is the work of built-in code. -/
def finish (whole : Expression) (tail : Bool) (values : List Value) : Option (Store × Fiber) :=
  if tail then some (store, ⟨.restart values, context, frames⟩)
  else match whole with
    | .call (.identifier name span) arguments memberCall _ =>
      dispatch setup choice store context frames (.identifier name span) name arguments memberCall
        values
    | .call _ _ _ _ =>
      match values with
      | .closure index :: arguments =>
        (store.closures[index]?).map fun code => (store, ⟨.apply code arguments, context, frames⟩)
      | _ => none
    | whole => some (store, ⟨.operate ⟨operatorNames whole, .none, false⟩ values, context, frames⟩)

/-- The work of a built-in ends: it may have launched something. -/
def finishOperation (operation : Operation) (values : List Value) (value : Value) :
    Store × Fiber :=
  let launch := store.launches.length
  let launching := { store with launches := store.launches ++ [false] }
  let registered := recordLaunch launch (registerLaunch launch frames)
  match operation.effect with
  | .none | .waits => (store, ⟨.deliver value, context, frames⟩)
  | .deferred => (launching, ⟨.deliver (.promise launch), context, registered⟩)
  | .serves http =>
    let handlers := values.filterMap fun | .closure index => some (index, http) | _ => none
    ({ launching with handlers := store.handlers ++ handlers },
      ⟨.deliver value, context, registered⟩)

/-- Built-in code: it calls back, or ends. -/
def operateStep (operation : Operation) (values : List Value) : Option (Store × Fiber) :=
  let within := if operation.guarded then .guard context :: frames
    else .builtin operation values :: frames
  match choice with
  | .closure index arguments =>
    if values.contains (.closure index) && arguments.all store.ready then
      (store.closures[index]?).map fun code => (store, ⟨.apply code arguments, context, within⟩)
    else none
  | .method index arguments =>
    if arguments.all store.ready then
      (store.methods[index]?).map fun method =>
        (store, ⟨.apply method.2 arguments, context, within⟩)
    else none
  | .function index arguments =>
    match setup.functions[index]? with
    | some (f, code) =>
      if operation.names.contains f.name && arguments.all store.ready then
        some (store, ⟨.apply code arguments, context, within⟩)
      else none
    | none => none
  | .result value =>
    if store.ready value then some (finishOperation store context frames operation values value)
    else none
  | _ => none

/-- The scope a loop's body opens at its header. -/
def Setup.bodyScope (code : Closure) : Option (List Nat) :=
  if code.loop && setup.info.launchScopes.contains code.body.span then some [] else none

def applyStep (code : Closure) (arguments : List Value) : Store × Fiber :=
  let (bound, env) := bindAll store code.context.env code.parameters arguments
  (bound, ⟨.eval code.loop code.body, ⟨env, code.context.visible⟩,
    .activation code context (setup.bodyScope code) [] :: frames⟩)

def Frame.isActivation : Frame → Bool
  | .activation _ _ _ _ => true
  | _ => false

/-- The back-edge: the body's scope is joined, and the body starts again on the new arguments. -/
def restartStep (arguments : List Value) : Option (Store × Fiber) :=
  match frames.dropWhile (!·.isActivation) with
  | .activation code caller scope launched :: rest =>
    if store.settled scope then
      let (bound, env) := bindAll store code.context.env code.parameters arguments
      some (bound, ⟨.eval true code.body, ⟨env, code.context.visible⟩,
        .activation code caller (setup.bodyScope code) launched :: rest⟩)
    else none
  | _ => none

def runStep (tail : Bool) (statements : List Statement) : Option (Store × Fiber) :=
  match statements with
  | [] => some (store, ⟨.deliver .unit, context, frames⟩)
  | .expression e :: rest =>
    some (store, ⟨.eval (tail && rest.isEmpty) e, context, .statement tail rest :: frames⟩)
  | .item (.variableDeclaration declaration) :: rest =>
    some (store, ⟨.eval false declaration.value, context, .bind declaration tail rest :: frames⟩)
  | .item (.functionDeclaration f) :: rest =>
    let (declared, context) := declareFunction setup store context f
    some (declared, ⟨.run tail rest, context, frames⟩)
  | .item (.typeDeclaration t) :: rest =>
    some (declareType setup store context t, ⟨.run tail rest, context, frames⟩)
  | .item (.trapDeclaration _) :: _ => none

/-- The cell of the global declared right before `rest`. -/
def Setup.globalBefore (rest : List Item) : Nat :=
  setup.globalCount - (rest.filter Item.isVariable).length - 1

def itemsStep (rest : List Item) : Store × Fiber :=
  match rest with
  | [] => (store, ⟨.done, context, frames⟩)
  | .variableDeclaration declaration :: rest =>
    (store, ⟨.eval false declaration.value, context, .initialise declaration rest :: frames⟩)
  | _ :: rest => (store, ⟨.items rest, context, frames⟩)

/-- The skipped part of a conditional is generated after or before the part that runs: its names
enter the function's table there. -/
def skip (skipped : Expression) (control : Control) : Store × Fiber :=
  let (reserved, context) := reserve setup store context skipped
  (reserved, ⟨control, context, frames⟩)

/-- A value reaches the frame that waits for it. -/
def deliverStep (value : Value) (frame : Frame) : Option (Store × Fiber) :=
  match frame with
  | .force =>
    match value with
    | .promise launch =>
      if store.launches[launch]?.getD false then deliverChosen choice store context frames else none
    | value => some (store, ⟨.deliver value, context, frames⟩)
  | .operands whole tail rest values =>
    some (store, ⟨.operands whole tail rest (values ++ [value]), context, frames⟩)
  | .condition tail then_ else_ =>
    match value with
    | .bool true => some (store, ⟨.eval tail then_, context, .leaveBranch else_ :: frames⟩)
    | .bool false => some (skip setup store context frames then_ (.eval tail else_))
    | _ => none
  | .leaveBranch skipped => some (skip setup store context frames skipped (.deliver value))
  | .shortCircuit operator right =>
    match value with
    | .bool b =>
      if b = (operator == .or) then some (skip setup store context frames right (.deliver value))
      else some (store, ⟨.eval false right, context, .rightOperand :: frames⟩)
    | _ => none
  | .rightOperand => some (store, ⟨.deliver value, context, frames⟩)
  | .scrutinee tail arms =>
    match choice with
    | .arm index values =>
      match arms[index]? with
      | some arm =>
        if values.all store.ready then
          let (bound, env) := bindAll store context.env arm.pattern.names values
          some (bound, ⟨.eval tail arm.body, ⟨env, context.visible⟩, .leaveArm context :: frames⟩)
        else none
      | none => none
    | _ => none
  | .leaveArm outer => some (store, ⟨.deliver value, outer, frames⟩)
  | .statement tail rest =>
    match rest with
    | [] => some (store, ⟨.deliver value, context, frames⟩)
    | rest => some (store, ⟨.run tail rest, context, frames⟩)
  | .bind declaration tail rest =>
    let (bound, context) := bindStatement store context declaration value
    some (bound, ⟨.run tail rest, context, frames⟩)
  | .block _ _ scope visible =>
    if store.settled scope then some (store, ⟨.deliver value, ⟨context.env, visible⟩, frames⟩)
    else none
  | .activation _ caller scope _ =>
    if store.settled scope then some (store, ⟨.deliver value, caller, frames⟩) else none
  | .builtin operation values => some (store, ⟨.operate operation values, context, frames⟩)
  | .guard outer => some (store, ⟨.deliver .unit, outer, frames⟩)
  | .initialise declaration rest =>
    let address := setup.globalBefore rest
    some (store.setCell address value,
      ⟨.items rest, ⟨(declaration.name, address) :: context.env, context.visible⟩, frames⟩)

end Steps

/-- One step of one fiber. -/
def fiberStep (setup : Setup) (choice : Choice) (store : Store) (fiber : Fiber) :
    Option (Store × Fiber) :=
  let ⟨control, context, frames⟩ := fiber
  match control with
  | .eval tail e => evalStep setup choice store context frames tail e
  | .operands whole tail (e :: rest) values =>
    some (store, ⟨.eval false e, context, .operands whole tail rest values :: frames⟩)
  | .operands whole tail [] values => finish setup choice store context frames whole tail values
  | .run tail statements => runStep setup store context frames tail statements
  | .apply code arguments => some (applyStep setup store context frames code arguments)
  | .operate operation values => operateStep setup choice store context frames operation values
  | .restart arguments => restartStep setup store frames arguments
  | .deliver value =>
    match frames with
    | [] => some (store, ⟨.done, context, []⟩)
    | frame :: frames => deliverStep setup choice store context frames value frame
  | .items rest => some (itemsStep store context frames rest)
  | .done => none

/-! ### Steps of the program -/

inductive Action where
  | fiber (index : Nat) (choice : Choice)
  | settle (launch : Nat)
  | enter (function : Nat) (arguments : List Value)
  | handle (handler function : Nat) (arguments : List Value)
  | trap (arm : Nat) (values : List Value)
  | abandon (index : Nat)

def Frame.isGuard : Frame → Bool
  | .guard _ => true
  | _ => false

/-- The initialisers have run. -/
def State.initialised (state : State) : Bool :=
  match state.fibers with
  | ⟨.done, _, _⟩ :: _ => true
  | _ => false

def spawn (state : State) (code : Closure) (arguments : List Value) : Option State :=
  if arguments.all state.store.ready then
    some { state with fibers := state.fibers ++ [⟨.apply code arguments, ⟨[], []⟩, []⟩] }
  else none

/-- `^`, and what other programs may call. -/
def FunctionDeclaration.isEntryPoint (f : FunctionDeclaration) : Bool :=
  f.name == "^" || f.isOwnExport

/-- One step of the program. -/
def step (setup : Setup) (action : Action) (state : State) : Option State :=
  match action with
  | .fiber index choice =>
    match state.fibers[index]? with
    | some fiber =>
      match fiberStep setup choice state.store fiber with
      | some (store, fiber) => some ⟨store, state.fibers.set index fiber⟩
      | none => none
    | none => none
  | .settle launch =>
    some { state with
      store := { state.store with launches := state.store.launches.set launch true } }
  | .enter function arguments =>
    match setup.functions[function]? with
    | some (f, code) =>
      if state.initialised && f.isEntryPoint then spawn state code arguments else none
    | none => none
  | .handle handler function arguments =>
    match state.store.handlers[handler]? with
    | some (closure, false) =>
      match state.store.closures[closure]? with
      | some code => spawn state code arguments
      | none => none
    | some (_, true) =>
      match setup.functions[function]? with
      | some (f, code) =>
        if f.name = "core.http.serveConnection" then spawn state code arguments else none
      | none => none
    | none => none
  | .trap arm values =>
    match setup.trapArms[arm]? with
    | some (arm, env) =>
      spawn state ⟨arm.pattern.names, arm.body, ⟨env, []⟩, false⟩ values
    | none => none
  | .abandon index =>
    match state.fibers[index]? with
    | some fiber =>
      match fiber.frames.dropWhile (!·.isGuard) with
      | .guard context :: frames =>
        some { state with fibers := state.fibers.set index ⟨.deliver .unit, context, frames⟩ }
      | _ => none
    | none => none

/-- The states a program reaches. -/
def Setup.Reaches (setup : Setup) : State → Prop :=
  Reachable (step setup) setup.start

/-- Several steps in a row. -/
def perform (setup : Setup) (actions : List Action) (state : State) : Option State :=
  follow (step setup) (fun _ _ => true) actions state

theorem reaches_of_perform {setup : Setup} {actions : List Action} {state final : State}
    (hstate : setup.Reaches state) (h : perform setup actions state = some final) :
    setup.Reaches final :=
  hstate.of_follow (fun _ _ _ => trivial) h

end Quilon
