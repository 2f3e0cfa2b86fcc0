import Quilon.Ast.Nodes
import Mathlib.Data.List.Basic

/-!
# Deferral analysis

`src/deferral.rs`: which expressions may evaluate to a deferred value, the spans where the code
generator forces one (`forceSites`), and the blocks that join what they launch (`launchScopes`).

A `HashSet` is a list without repetitions and a `HashMap` an association list, the latest binding
first; `block_stack` has its last entry first.  What stays fixed during one round of the walk is
in `Round`, what the walk updates in `Taint`.
-/

namespace Quilon

/-! ### Primitives by name and arity -/

/-- Whether `function` names the `@` primitive `primitive`, qualified or bare. -/
def namesPrimitive (function : Expression) (primitive : String) : Bool :=
  match function with
  | .identifier name _ => atPrimitiveName name == some primitive
  | _ => false

def isReadCall (function : Expression) (arguments : List Expression) : Bool :=
  namesPrimitive function "readStdin" && arguments.isEmpty

def isTcpRequestCall (function : Expression) (arguments : List Expression) : Bool :=
  namesPrimitive function "tcpRequest" && (arguments.length == 2 || arguments.length == 3)

def isConnectionReadCall (function : Expression) (arguments : List Expression)
    (memberCall : Bool) : Bool :=
  memberCall && (arguments.length == 1 || arguments.length == 2) && namesPrimitive function "read"

/-- A call that hands back a deferred value. -/
def producesDeferred (function : Expression) (arguments : List Expression)
    (memberCall : Bool) : Bool :=
  isReadCall function arguments || isTcpRequestCall function arguments ||
    isConnectionReadCall function arguments memberCall

def SERVE_ARITY : Nat := 2

def isServeCall (function : Expression) (arguments : List Expression) (primitive : String) : Bool :=
  namesPrimitive function primitive && arguments.length == SERVE_ARITY

/-- A call whose work goes on after it returns, so that its block must join it. -/
def launchesInBackground (function : Expression) (arguments : List Expression)
    (memberCall : Bool) : Bool :=
  producesDeferred function arguments memberCall || isServeCall function arguments "tcpServe" ||
    isServeCall function arguments "serve"

/-! ### What the walk reads and writes -/

/-- A reassignment of an atomic binding whose right side waits; `transitive` names the function
reached and what it waits on. -/
structure AtomicReassignmentForced where
  name : String
  span : Span
  transitive : Option (String × String)
deriving DecidableEq

structure Round where
  atomicReassignments : List Span
  topLevelReassignments : List Span
  deferredGlobals : List String
  knownFunctions : List String
  /-- `char::is_uppercase` -/
  isUppercase : Char → Bool

structure Taint where
  forceSites : List Span
  launchScopes : List Span
  blockStack : List Span
  newlyDeferredGlobals : List String
  violation : Option AtomicReassignmentForced
  waitingFunctions : List (String × String × String)
  currentFunction : Option String
  transitiveWaits : List (String × String)
  producersSeen : List String
  trackUnresolvedCallees : Bool

def Taint.initial : Taint where
  forceSites := []
  launchScopes := []
  blockStack := []
  newlyDeferredGlobals := []
  violation := none
  waitingFunctions := []
  currentFunction := none
  transitiveWaits := []
  producersSeen := []
  trackUnresolvedCallees := true

/-- The names bound in a body so far, and whether each holds a deferred value. -/
abbrev Scope := List (String × Bool)

/-- A name no binding of the body covers is deferred when it is a deferred global. -/
def Round.isDeferred (round : Round) (scope : Scope) (name : String) : Bool :=
  match scope.lookup name with
  | some deferred => deferred
  | none => round.deferredGlobals.contains name

namespace Taint

def insertForce (taint : Taint) (span : Span) : Taint :=
  { taint with forceSites := taint.forceSites.insert span }

/-- `strict`, after the visit: a deferred value in a strict slot is forced there. -/
def strict (visited : Bool × Taint) (span : Span) : Taint :=
  if visited.1 then visited.2.insertForce span else visited.2

def markGlobalDeferred (round : Round) (taint : Taint) (name : String) : Taint :=
  if round.deferredGlobals.contains name then taint
  else { taint with newlyDeferredGlobals := taint.newlyDeferredGlobals.insert name }

def pushWait (taint : Taint) (wait : String × String) : Taint :=
  { taint with transitiveWaits := taint.transitiveWaits ++ [wait] }

/-- The last segment of a name starts with a capital. -/
def isConstructorShaped (round : Round) (name : String) : Bool :=
  match (displayName name).toList with
  | [] => false
  | c :: _ => round.isUppercase c

def recordTransitiveWait (round : Round) (taint : Taint) (function : Expression)
    (memberCall : Bool) : Taint :=
  match function with
  | .identifier name _ =>
    let primitive := atPrimitiveName name
    if primitive == some "tcpServe" || primitive == some "serve" then taint
    else if primitive == some "sleep" || primitive == some "streamFile" then
      taint.pushWait (taint.currentFunction.getD name, name)
    else
      match taint.waitingFunctions.lookup name with
      | some found => taint.pushWait found
      | none =>
        if taint.trackUnresolvedCallees && !memberCall && !isConstructorShaped round name &&
            primitive.isNone && !round.knownFunctions.contains name then
          taint.pushWait (name, "the callee is a value, not a function the checker can follow")
        else taint
  | _ => taint

/-- The waits of a server's handler are dropped: it runs on fibers of its own. -/
def dropHandlerWaits (taint : Taint) (function : Expression) (waitsBeforeArguments : Nat) : Taint :=
  if namesPrimitive function "tcpServe" || namesPrimitive function "serve" then
    { taint with transitiveWaits := taint.transitiveWaits.take waitsBeforeArguments }
  else taint

def recordProducer (taint : Taint) (function : Expression) (arguments : List Expression)
    (memberCall : Bool) : Taint :=
  match function with
  | .identifier name _ =>
    if producesDeferred function arguments memberCall then
      { taint with producersSeen := taint.producersSeen.insert name }
    else taint
  | _ => taint

/-- A launch marks the innermost block. -/
def markLaunchScope (taint : Taint) (function : Expression) (arguments : List Expression)
    (memberCall : Bool) : Taint :=
  match taint.blockStack with
  | scope :: _ =>
    if launchesInBackground function arguments memberCall then
      { taint with launchScopes := taint.launchScopes.insert scope }
    else taint
  | [] => taint

/-- The end of a call's visit. -/
def recordCall (round : Round) (taint : Taint) (function : Expression)
    (arguments : List Expression) (memberCall : Bool) (waitsBeforeArguments : Nat) : Taint :=
  let taint := taint.dropHandlerWaits function waitsBeforeArguments
  let taint := taint.recordTransitiveWait round function memberCall
  let taint := taint.recordProducer function arguments memberCall
  taint.markLaunchScope function arguments memberCall

/-- `check_atomic_reassignment`, against the lengths before the right side was visited. -/
def checkAtomicReassignment (round : Round) (taint : Taint) (name : String) (span : Span)
    (forceSitesBefore transitiveWaitsBefore : Nat) : Taint :=
  if taint.violation.isSome || !round.atomicReassignments.contains span then taint
  else if forceSitesBefore < taint.forceSites.length then
    { taint with violation := some ⟨name, span, none⟩ }
  else match taint.transitiveWaits[transitiveWaitsBefore]? with
    | some found => { taint with violation := some ⟨name, span, some found⟩ }
    | none => taint

def recordWaitingFunction (taint : Taint) (name : String)
    (forceSitesBefore transitiveWaitsBefore : Nat) (producersSeen : List String) : Taint :=
  if (taint.waitingFunctions.lookup name).isSome then taint
  else match taint.transitiveWaits[transitiveWaitsBefore]? with
    | some found => { taint with waitingFunctions := (name, found) :: taint.waitingFunctions }
    | none =>
      if forceSitesBefore < taint.forceSites.length then
        let what := match producersSeen with
          | [producer] => producer
          | _ => "a deferred value"
        { taint with waitingFunctions := (name, name, what) :: taint.waitingFunctions }
      else taint

/-- The first half of `analyze_function_body`, before its body is visited in a fresh scope. -/
def enterFunction (taint : Taint) (name : String) (track : Bool) : Taint :=
  { taint with currentFunction := some name, producersSeen := [], trackUnresolvedCallees := track }

/-- The second half of `analyze_function_body`, with `visited` the state after the body. -/
def leaveFunction (before visited : Taint) (name : String) : Taint :=
  ({ visited with
      currentFunction := before.currentFunction
      trackUnresolvedCallees := before.trackUnresolvedCallees
      producersSeen := before.producersSeen }).recordWaitingFunction name
    before.forceSites.length before.transitiveWaits.length visited.producersSeen

def pushBlock (taint : Taint) (span : Span) : Taint :=
  { taint with blockStack := span :: taint.blockStack }

def popBlock (taint : Taint) : Taint :=
  { taint with blockStack := taint.blockStack.tail }

end Taint

/-! ### The walk -/

section Walk

variable (round : Round)

mutual

/-- Records the forces of the strict parts of an expression, and answers whether its own value is
delivered still deferred. -/
def visit : Expression → Scope → Taint → Bool × Taint
  | .number _ _, _, taint | .string _ _, _, taint | .bool _ _, _, taint | .unit _, _, taint =>
    (false, taint)
  | .identifier name _, scope, taint => (round.isDeferred scope name, taint)
  | .call function arguments memberCall _, scope, taint =>
    let taint := Taint.strict (visit function scope taint) function.span
    let waitsBefore := taint.transitiveWaits.length
    let taint := visitAll arguments scope taint
    (producesDeferred function arguments memberCall,
      taint.recordCall round function arguments memberCall waitsBefore)
  | .binaryOperator left _ right _, scope, taint
  | .fieldAssign left right _, scope, taint | .indexAssign left right _, scope, taint
  | .index left right _, scope, taint | .range left right _, scope, taint =>
    let taint := Taint.strict (visit left scope taint) left.span
    (false, Taint.strict (visit right scope taint) right.span)
  | .unaryOperator _ operand _, scope, taint | .spread operand _, scope, taint
  | .fieldAccess operand _ _, scope, taint | .lambda _ _ operand _, scope, taint =>
    (false, Taint.strict (visit operand scope taint) operand.span)
  | .array elements _, scope, taint | .setLiteral elements _, scope, taint =>
    (false, visitAll elements scope taint)
  | .mapLiteral entries _, scope, taint => (false, visitEntries entries scope taint)
  | .record fields _, scope, taint | .constructor _ fields _, scope, taint =>
    (false, visitFields fields scope taint)
  | .interpolation parts _, scope, taint => (false, visitParts parts scope taint)
  | .ifThenElse condition then_ else_ _, scope, taint =>
    let taint := Taint.strict (visit condition scope taint) condition.span
    let (thenDeferred, taint) := visit then_ scope taint
    let (elseDeferred, taint) := visit else_ scope taint
    (thenDeferred || elseDeferred, taint)
  | .match_ scrutinee arms _, scope, taint =>
    visitArms arms scope (Taint.strict (visit scrutinee scope taint) scrutinee.span)
  | .block statements span, scope, taint =>
    let (deferred, taint) := visitStatements statements scope (taint.pushBlock span)
    (deferred, taint.popBlock)

def visitAll : List Expression → Scope → Taint → Taint
  | [], _, taint => taint
  | e :: rest, scope, taint =>
    visitAll rest scope (Taint.strict (visit e scope taint) e.span)

def visitEntries : List (Expression × Expression) → Scope → Taint → Taint
  | [], _, taint => taint
  | (key, value) :: rest, scope, taint =>
    let taint := Taint.strict (visit key scope taint) key.span
    visitEntries rest scope (Taint.strict (visit value scope taint) value.span)

def visitFields : List (String × Expression) → Scope → Taint → Taint
  | [], _, taint => taint
  | (_, value) :: rest, scope, taint =>
    visitFields rest scope (Taint.strict (visit value scope taint) value.span)

def visitParts : List InterpolationPart → Scope → Taint → Taint
  | [], _, taint => taint
  | .literal _ :: rest, scope, taint => visitParts rest scope taint
  | .hole e :: rest, scope, taint =>
    visitParts rest scope (Taint.strict (visit e scope taint) e.span)

def visitArms : List MatchArm → Scope → Taint → Bool × Taint
  | [], _, taint => (false, taint)
  | ⟨_, body, _⟩ :: rest, scope, taint =>
    let (deferred, taint) := visit body scope taint
    let (any, taint) := visitArms rest scope taint
    (deferred || any, taint)

/-- `visit_block`: a binding is a lazy carrier, and only the last expression's value is the
block's. -/
def visitStatements : List Statement → Scope → Taint → Bool × Taint
  | [], _, taint => (false, taint)
  | .item (.variableDeclaration ⟨_, name, _, value, _, _, span⟩) :: rest, scope, taint =>
    let (deferred, visited) := visit value scope taint
    let visited := visited.checkAtomicReassignment round name span taint.forceSites.length
      taint.transitiveWaits.length
    let visited :=
      if deferred && round.topLevelReassignments.contains span then
        visited.markGlobalDeferred round name
      else visited
    visitStatements rest ((name, deferred) :: scope) visited
  | .item (.functionDeclaration ⟨name, _, _, _, body, _, _, _⟩) :: rest, scope, taint =>
    let visited := Taint.strict (visit body [] (taint.enterFunction name true)) body.span
    visitStatements rest scope (taint.leaveFunction visited name)
  | .item (.typeDeclaration ⟨_, .sum _ methods, _, _⟩) :: rest, scope, taint
  | .item (.typeDeclaration ⟨_, .record _ methods, _, _⟩) :: rest, scope, taint =>
    visitStatements rest scope (visitMethods methods taint)
  -- A trap is a top-level-only item.
  | .item (.trapDeclaration _) :: rest, scope, taint => visitStatements rest scope taint
  | [.expression e], scope, taint => visit e scope taint
  | .expression e :: rest, scope, taint => visitStatements rest scope (visit e scope taint).2

def visitMethods : List MethodDeclaration → Taint → Taint
  | [], taint => taint
  | ⟨name, _, _, body, _, _⟩ :: rest, taint =>
    let visited := Taint.strict (visit body [] (taint.enterFunction name true)) body.span
    visitMethods rest (taint.leaveFunction visited name)

end

/-- Each arm of a trap is a body of its own. -/
def visitTrapArms : List MatchArm → Taint → Taint
  | [], taint => taint
  | arm :: rest, taint =>
    visitTrapArms rest (Taint.strict (visit round arm.body [] taint) arm.body.span)

def analyzeItem (taint : Taint) : Item → Taint
  | .functionDeclaration f =>
    let entered := taint.enterFunction f.name (!f.isInertCorelibPlaceholder)
    taint.leaveFunction (Taint.strict (visit round f.body [] entered) f.body.span) f.name
  | .variableDeclaration v =>
    let (deferred, visited) := visit round v.value [] taint
    let visited := visited.checkAtomicReassignment round v.name v.span taint.forceSites.length
      taint.transitiveWaits.length
    if deferred then
      if v.isMutable then visited.markGlobalDeferred round v.name
      else visited.insertForce v.value.span
    else visited
  | .typeDeclaration t => visitMethods round t.typeDefinition.methods taint
  | .trapDeclaration trap => visitTrapArms round trap.arms taint

/-- One round over the program. -/
def analyzeRound (program : Program) : Taint :=
  program.items.foldl (analyzeItem round) .initial

end Walk

/-! ### The fixed point over the deferred globals -/

def isLambda : Expression → Bool
  | .lambda _ _ _ _ => true
  | _ => false

/-- Every top-level function name and type-method name, and the top-level bindings of lambdas. -/
def knownFunctionNames (program : Program) : List String :=
  program.items.flatMap fun
    | .functionDeclaration f => [f.name]
    | .variableDeclaration v => if isLambda v.value then [v.name] else []
    | .typeDeclaration t => t.typeDefinition.methods.map (·.name)
    | .trapDeclaration _ => []

structure DeferInfo where
  forceSites : List Span
  launchScopes : List Span

/-- What the checker and the character tables answer. -/
structure CheckerAnswers where
  atomicReassignments : List Span
  topLevelReassignments : List Span
  isUppercase : Char → Bool

def CheckerAnswers.round (answers : CheckerAnswers) (program : Program)
    (deferredGlobals : List String) : Round where
  atomicReassignments := answers.atomicReassignments
  topLevelReassignments := answers.topLevelReassignments
  deferredGlobals := deferredGlobals
  knownFunctions := knownFunctionNames program
  isUppercase := answers.isUppercase

/-- The rounds of `analyze`; `none` when `fuel` of them are not enough. -/
def analyzeLoop (answers : CheckerAnswers) (program : Program) :
    Nat → List String → Option (Except AtomicReassignmentForced DeferInfo)
  | 0, _ => none
  | fuel + 1, deferredGlobals =>
    let taint := analyzeRound (answers.round program deferredGlobals) program
    if taint.newlyDeferredGlobals.isEmpty then
      match taint.violation with
      | some violation => some (.error violation)
      | none => some (.ok ⟨taint.forceSites, taint.launchScopes⟩)
    else analyzeLoop answers program fuel (taint.newlyDeferredGlobals ++ deferredGlobals)

/-- What a successful analysis answers is what its last round collected. -/
theorem round_of_analyzeLoop {answers : CheckerAnswers} {program : Program} {fuel : Nat}
    {globals : List String} {info : DeferInfo}
    (h : analyzeLoop answers program fuel globals = some (.ok info)) :
    ∃ deferredGlobals, let taint := analyzeRound (answers.round program deferredGlobals) program
      taint.newlyDeferredGlobals = [] ∧ taint.violation = none ∧
        info = ⟨taint.forceSites, taint.launchScopes⟩ := by
  induction fuel generalizing globals with
  | zero => cases h
  | succ fuel ih =>
    rw [analyzeLoop] at h
    split at h
    case isFalse => exact ih h
    case isTrue hdone =>
      refine ⟨globals, List.isEmpty_iff.mp hdone, ?_⟩
      split at h
      case h_1 => cases h
      case h_2 hviolation =>
        refine ⟨hviolation, ?_⟩
        simpa using h.symm

end Quilon
