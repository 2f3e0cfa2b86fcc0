import Quilon.Ast.Reachability
import Quilon.Ast.Within

/-!
# The fiber-sharing check

`src/typechecker/checker/fiber_sharing.rs`: for every call of `net.@tcpServe` and `http.@serve`, the
handler and the top-level functions it reaches by name may touch no top-level `:=` binding that is
not atomic, and the handler itself no `:=` local of the block around the call.  It runs on the root
scope that is left once every item is checked.
-/

namespace Quilon

/-! ### The root scope -/

/-- What the root scope keeps of a binding. -/
structure Symbol where
  isMutable : Bool
  atomic : Bool

abbrev RootScope := List (String × Symbol)

/-- `insert_symbol`; `none` is a duplicate definition. -/
def RootScope.define (scope : RootScope) (name : String) (symbol : Symbol) : Option RootScope :=
  if (scope.lookup name).isSome then none else some ((name, symbol) :: scope)

def RootScope.defineAll (scope : RootScope) : List String → Option RootScope
  | [] => some scope
  | name :: names => (scope.define name ⟨false, false⟩).bind (·.defineAll names)

/-- `overloaded_names` -/
def overloaded (program : Program) (name : String) : Bool :=
  (isOperatorSymbol name || isCompilerProvidedName name ||
    (program.functions.filter fun f =>
      !f.isInertCorelibPlaceholder && f.name == name).length > 1) && name != "^"

def TypeDefinition.nullaryVariants : TypeDefinition → List String
  | .sum variants _ => (variants.filter (·.2.isEmpty)).map (·.1)
  | .record _ _ => []

/-- What checking a top-level item leaves in the root scope; `none` where it is an error.  The
types the language comes with are there under names that no item may have. -/
def defineItem (program : Program) (scope : RootScope) : Item → Option RootScope
  | .variableDeclaration d =>
    if d.name = RECEIVER then none
    else match scope.lookup d.name with
      | some symbol =>
        -- A `:=` to a name in scope is a reassignment, and `@` marks declarations only.
        if d.isMutable && symbol.isMutable && !d.atomic then some scope else none
      | none =>
        if d.atomic && !d.isMutable then none
        else some ((d.name, ⟨d.isMutable, d.atomic⟩) :: scope)
  | .functionDeclaration f =>
    if f.name = RECEIVER then none
    else if f.isInertCorelibPlaceholder then some scope
    else if overloaded program f.name then
      if isOperatorSymbol f.name then none else some scope
    else scope.define f.name ⟨false, false⟩
  | .typeDeclaration t => scope.defineAll (t.name :: t.typeDefinition.nullaryVariants)
  | .trapDeclaration _ => some scope

def defineItems (program : Program) : List Item → RootScope → Option RootScope
  | [], scope => some scope
  | item :: items, scope => (defineItem program scope item).bind (defineItems program items)

def rootScope (program : Program) : Option RootScope :=
  defineItems program program.items []

/-- `is_top_level` -/
def RootScope.holds (scope : RootScope) (name : String) : Bool :=
  (scope.lookup name).isSome

/-- A `:=` binding that is not atomic. -/
def RootScope.shares (scope : RootScope) (name : String) : Bool :=
  match scope.lookup name with
  | some symbol => symbol.isMutable && !symbol.atomic
  | none => false

/-! ### What code touches -/

/-- A place where a name is read or written. -/
structure Touch where
  name : String
  span : Span

/-- The children of a statement, each with the body it stands in: a function's and a method's own
body for theirs. -/
def Statement.childrenIn (enclosing : Expression) : Statement → List (Expression × Expression)
  | .item (.functionDeclaration f) => [(f.body, f.body)]
  | .item (.typeDeclaration t) => t.typeDefinition.methods.map fun m => (m.body, m.body)
  | statement => statement.children.map fun c => (enclosing, c)

def Expression.childrenIn (e enclosing : Expression) : List (Expression × Expression) :=
  match e with
  | .lambda _ _ body _ => [(body, body)]
  | .block statements _ => statements.flatMap fun s => s.childrenIn enclosing
  | e => e.children.map fun c => (enclosing, c)

theorem Statement.childrenIn_snd (enclosing : Expression) (s : Statement) :
    (s.childrenIn enclosing).map (·.2) = s.children := by
  unfold Statement.childrenIn
  split
  · rfl
  · simp [Statement.children, Function.comp_def]
  · simp [Function.comp_def]

theorem Expression.childrenIn_snd (e enclosing : Expression) :
    (e.childrenIn enclosing).map (·.2) = e.children := by
  unfold Expression.childrenIn
  split
  · rfl
  · simp [Expression.children, List.map_flatMap, Statement.childrenIn_snd]
  · simp [Function.comp_def]

theorem Expression.mem_children_of_mem_childrenIn {e enclosing : Expression}
    {p : Expression × Expression} (h : p ∈ e.childrenIn enclosing) : p.2 ∈ e.children := by
  rw [← e.childrenIn_snd enclosing]
  exact List.mem_map_of_mem h

/-- An expression and its sub-expressions in the order of `ast/walk.rs`, each with the body it
stands in. -/
def visits (enclosing e : Expression) : List (Expression × Expression) :=
  (enclosing, e) :: (e.childrenIn enclosing).attach.flatMap fun p => visits p.1.1 p.1.2
termination_by sizeOf e
decreasing_by exact sizeOf_lt_of_mem_children (Expression.mem_children_of_mem_childrenIn p.2)

theorem visits_eq (enclosing e : Expression) :
    visits enclosing e =
      (enclosing, e) :: (e.childrenIn enclosing).flatMap fun p => visits p.1 p.2 := by
  rw [visits, List.flatMap_subtype (g := fun p => visits p.1 p.2) (fun _ _ => rfl),
    List.unattach_attach]

/-- What an expression touches itself.  A `:=` touches the name it binds or writes. -/
def Expression.touches : Expression → List Touch
  | .identifier name span => if name = RECEIVER then [] else [⟨name, span⟩]
  | .block statements _ => statements.filterMap fun
    | .item (.variableDeclaration d) => if d.isMutable then some ⟨d.name, d.span⟩ else none
    | _ => none
  | _ => []

def walk (e : Expression) : List Touch :=
  (visits e e).flatMap (·.2.touches)

/-! ### The check -/

/-- The primitives whose last argument is a handler, with the way a program spells them. -/
def FIBER_HANDLER_PRIMITIVES : List (String × String) :=
  [("tcpServe", "net.@tcpServe"), ("serve", "http.@serve")]

def fiberHandlerPrimitive (name : String) : Option String :=
  (atPrimitiveName name).bind fun bare => FIBER_HANDLER_PRIMITIVES.lookup bare

/-- A call that launches handlers. -/
structure FiberLaunch where
  primitive : String
  arguments : List Expression
  span : Span
  enclosing : Expression

/-- A `SharedAcrossFibers` error. -/
structure SharedAcrossFibers where
  name : String
  primitive : String
  touch : Span
  span : Span

def fiberLaunch? : Expression × Expression → Option FiberLaunch
  | (enclosing, .call (.identifier name _) arguments _ span) =>
    (fiberHandlerPrimitive name).map fun primitive => ⟨primitive, arguments, span, enclosing⟩
  | _ => none

/-- The launching calls in a body. -/
def fiberLaunchesIn (body : Expression) : List FiberLaunch :=
  (visits body body).filterMap fiberLaunch?

/-- `index_top_level_functions`: the bodies under a name. -/
def definedBodies (program : Program) (name : String) : List Expression :=
  (program.functions.filter (·.name == name)).map (·.body)

def findLocalHandlerBody (scope : Expression) (name : String) : Option Expression :=
  match scope with
  | .block statements _ => statements.findSome? fun
    | .item (.functionDeclaration f) => if f.name = name then some f.body else none
    | .item (.variableDeclaration d) =>
      if d.name = name then
        match d.value with
        | .lambda _ _ body _ => some body
        | _ => none
      else none
    | _ => none
  | _ => none

/-- The `:=` statements of a block. -/
def directMutableLocals : Expression → List VariableDeclaration
  | .block statements _ => statements.filterMap fun
    | .item (.variableDeclaration d) => if d.isMutable then some d else none
    | _ => none
  | _ => []

/-- The touched names that were not visited yet push the bodies they are defined with. -/
def pushDefined (program : Program) :
    List Touch → List Expression → List String → List Expression × List String
  | [], pending, visited => (pending, visited)
  | touch :: touches, pending, visited =>
    if visited.contains touch.name then pushDefined program touches pending visited
    else
      pushDefined program touches ((definedBodies program touch.name).reverse ++ pending)
        (touch.name :: visited)

section Check

variable (scope : RootScope) (program : Program)

/-- The loop of `first_shared_global`, the top of the stack first. -/
def sharedLoop : Nat → List Expression → List String → Option Touch
  | 0, _, _ => none
  | _ + 1, [], _ => none
  | fuel + 1, body :: pending, visited =>
    match (walk body).find? fun touch => scope.shares touch.name with
    | some touch => some touch
    | none =>
      let (pending, visited) := pushDefined program (walk body) pending visited
      sharedLoop fuel pending visited

/-- Each function's body is pushed once at most. -/
def sharedBound (roots : List Expression) : Nat :=
  roots.length + program.functions.length + 1

def firstSharedGlobal (roots : List Expression) : Option Touch :=
  sharedLoop scope program (sharedBound program roots) roots.reverse []

/-- The body that runs on the fiber, where the handler is a lambda or a local name. -/
def FiberLaunch.handlerBody (launch : FiberLaunch) : Option Expression :=
  match launch.arguments.getLast? with
  | some (.lambda _ _ body _) => some body
  | some (.identifier name _) =>
    if (definedBodies program name).isEmpty then findLocalHandlerBody launch.enclosing name
    else none
  | _ => none

def FiberLaunch.roots (launch : FiberLaunch) : List Expression :=
  match launch.handlerBody program with
  | some body => [body]
  | none =>
    match launch.arguments.getLast? with
    | some (.identifier name _) => definedBodies program name
    | _ => []

/-- The `:=` locals a handler may not capture. -/
def FiberLaunch.capturedNames (launch : FiberLaunch) : List String :=
  let locals := directMutableLocals launch.enclosing
  (locals.map (·.name)).filter fun name =>
    !scope.holds name && !locals.any fun d => d.name == name && d.atomic

def checkFiberLaunch (launch : FiberLaunch) : Option SharedAcrossFibers :=
  match firstSharedGlobal scope program (launch.roots program) with
  | some touch => some ⟨touch.name, launch.primitive, touch.span, launch.span⟩
  | none =>
    match launch.handlerBody program with
    | none => none
    | some body =>
      ((walk body).find? fun touch => (launch.capturedNames scope).contains touch.name).map
        fun touch => ⟨touch.name, launch.primitive, touch.span, launch.span⟩

def checkFiberLaunchesIn (body : Expression) : Option SharedAcrossFibers :=
  (fiberLaunchesIn body).findSome? (checkFiberLaunch scope program)

/-- An arm of a trap is a launch of its own. -/
def checkTrapArm (arm : MatchArm) : Option SharedAcrossFibers :=
  match checkFiberLaunchesIn scope program arm.body with
  | some error => some error
  | none => (firstSharedGlobal scope program [arm.body]).map fun touch =>
      ⟨touch.name, "!>", touch.span, arm.body.span⟩

/-- `none` where the program is accepted. -/
def checkFiberSharing : Option SharedAcrossFibers :=
  program.items.findSome? fun
    | .trapDeclaration trap => trap.arms.findSome? (checkTrapArm scope program)
    | item => item.bodies.findSome? (checkFiberLaunchesIn scope program)

end Check

end Quilon
