import Quilon.Codegen.Occurrences

/-!
# What names are resolved with

The tables `src/codegen/generator` looks names up in — `variables`, the globals and the functions of
the module — beside the environment of the type checker, over the same walk.  An access is logged
with the place the generator takes for it and the binding the checker resolves it to.

`variables` is a flat map.  It is emptied where a function, a method or a trap arm begins and put back
behind it, but not where the initializer of a top-level binding begins; behind an arm or an inlined
lambda only the names of the pattern or of the parameters are put back.

`left` and `inserted` are not in the generator: the names whose entry in `variables` is not that of
the declaration in force, and the names entered since the frame or the arm began.

What the checker refuses is left out: a second `=` of a name in one scope.
-/

namespace Quilon.Naming

/-! ### Bindings and places -/

inductive Kind where
  /-- a top-level variable -/
  | global
  /-- a variable of a body, or a closure bound to a name -/
  | local_
  /-- a function without captures -/
  | function
  | variant
  | type
deriving DecidableEq

structure Binding where
  id : Nat
  kind : Kind
deriving DecidableEq

abbrev Table := List (String × Binding)

/-- What the code of an access goes to. -/
inductive Place where
  | slot (binding : Binding)
  | global (binding : Binding)
  | variant
  | function (id : Nat)
  | missing
deriving DecidableEq

/-- The place a binding has. -/
def Binding.place (binding : Binding) : Place :=
  match binding.kind with
  | .global => .global binding
  | .local_ => .slot binding
  | .function => .function binding.id
  | .variant => .variant
  | .type => .missing

/-- A function's name is no value, so there is no place to read it from. -/
def Binding.valuePlace (binding : Binding) : Place :=
  match binding.kind with
  | .function => .missing
  | _ => binding.place

/-- A read or a `:=` as it was lowered; `clear` tells whether nothing stood between the name and its
binding. -/
structure Access where
  name : String
  place : Place
  resolved : Option Binding
  clear : Bool
deriving DecidableEq

structure Call where
  name : String
  target : Place
  resolved : Option Binding
  clear : Bool
deriving DecidableEq

/-- The access goes to the binding the checker resolves it to. -/
def Access.Right (access : Access) : Prop :=
  ∃ binding, access.resolved = some binding ∧ access.place = binding.valuePlace

/-- There is something to call, and it is what the checker resolves the callee to. -/
def Call.Right (call : Call) : Prop :=
  call.target ≠ .missing ∧ ∃ binding, call.resolved = some binding ∧ call.target = binding.place

/-! ### The state -/

structure State where
  /-- the innermost scope of the checker, and those around it -/
  scope : Table
  outer : List Table
  /-- the generator's `variables` -/
  table : Table
  /-- the globals and the functions of the module, in the order they were added -/
  globals : Table
  symbols : List (String × Option Nat)
  lambdas : Nat
  /-- the functions that were the first to be added under their symbol -/
  kept : List (String × Nat)
  next : Nat
  left : List String
  inserted : List String
  accesses : List Access
  calls : List Call

namespace State

/-- `Environment::lookup` -/
def lookup (s : State) (name : String) : Option Binding :=
  (s.scope :: s.outer).findSome? (·.lookup name)

/-- `add_function`: a function whose symbol is taken is not found under it. -/
def addFunction (s : State) (symbol : String) (id : Nat) : State :=
  { s with
    symbols := s.symbols ++ [(symbol, some id)]
    kept := if (s.symbols.lookup symbol).isSome then s.kept else (symbol, id) :: s.kept }

/-- `get_function` -/
def getFunction (s : State) (symbol : String) : Place :=
  match s.symbols.lookup symbol with
  | some (some id) => .function id
  | _ => .missing

def addSymbols (s : State) (names : List String) : State :=
  { s with symbols := s.symbols ++ names.map (·, none) }

/-- The name of a binding that has no slot of its own: an entry under it is another's. -/
def declare (s : State) (name : String) (binding : Binding) : State :=
  { s with
    scope := (name, binding) :: s.scope
    left := if (s.table.lookup name).isSome then name :: s.left else s.left }

/-- The name of a binding and its slot. -/
def bindSlot (s : State) (name : String) (binding : Binding) : State :=
  { s with
    scope := (name, binding) :: s.scope
    table := (name, binding) :: s.table
    left := s.left.filter (· ≠ name)
    inserted := name :: s.inserted }

/-- A slot that is not that of the binding in force. -/
def straySlot (s : State) (name : String) (binding : Binding) : State :=
  { s with
    table := (name, binding) :: s.table
    left := name :: s.left
    inserted := name :: s.inserted }

def advance (s : State) : State := { s with next := s.next + 1 }

def fresh (s : State) (kind : Kind) : Binding := ⟨s.next, kind⟩

def log (s : State) (access : Access) : State := { s with accesses := access :: s.accesses }

def logCall (s : State) (call : Call) : State := { s with calls := call :: s.calls }

/-! ### Reads and writes -/

section Lookup

variable (isVariant : String → Bool)

/-- `generate_expression_inner`, for an identifier. -/
def place (s : State) (name : String) : Place :=
  match s.table.lookup name with
  | some binding => .slot binding
  | none =>
    if isVariant name then .variant
    else
      match s.globals.lookup name with
      | some binding => .global binding
      | none => .missing

/-- Nothing stands between a name that is read and its binding: an entry of `variables` is that of
the declaration in force; without one the binding is no local, and a variant or a global that is
found first is what is meant. -/
def readsClear (s : State) (name : String) : Bool :=
  match s.table.lookup name with
  | some _ => !s.left.contains name
  | none =>
    match s.lookup name with
    | some ⟨_, .global⟩ => !isVariant name
    | some ⟨_, .variant⟩ => isVariant name
    | some ⟨_, .function⟩ | some ⟨_, .type⟩ =>
      !isVariant name && (s.globals.lookup name).isNone
    | some ⟨_, .local_⟩ | none => false

def read (s : State) (name : String) : State :=
  s.log ⟨name, s.place isVariant name, s.lookup name, s.readsClear isVariant name⟩

end Lookup

/-- The same for a name that is assigned to. -/
def assignsClear (s : State) (name : String) : Bool :=
  match s.table.lookup name with
  | some _ => !s.left.contains name
  | none =>
    match s.lookup name with
    | some ⟨_, .global⟩ => true
    | none => (s.globals.lookup name).isNone
    | some _ => false

/-- `:=` in a body.  The checker takes the binding in scope, or declares one; the generator stores
through the entry, through the global, or into a slot of its own. -/
def assign (s : State) (name : String) : State :=
  let clear := s.assignsClear name
  match s.lookup name, s.table.lookup name with
  | some binding, some slot => s.log ⟨name, .slot slot, some binding, clear⟩
  | some binding, none =>
    match s.globals.lookup name with
    | some global => s.log ⟨name, .global global, some binding, clear⟩
    | none =>
      let slot := s.fresh .local_
      ((s.straySlot name slot).advance).log ⟨name, .slot slot, some binding, clear⟩
  | none, some slot =>
    let binding := s.fresh .local_
    ((s.declare name binding).advance).log ⟨name, .slot slot, some binding, clear⟩
  | none, none =>
    let binding := s.fresh .local_
    match s.globals.lookup name with
    | some global => ((s.declare name binding).advance).log ⟨name, .global global, some binding, clear⟩
    | none => ((s.bindSlot name binding).advance).log ⟨name, .slot binding, some binding, clear⟩

/-- The checker refuses a second declaration of a name in one scope. -/
def isDuplicate (s : State) (name : String) : Bool :=
  (s.scope.lookup name).isSome

/-- `=` and `:=` in a body. -/
def bind (s : State) (isMutable : Bool) (name : String) : State :=
  if isMutable then s.assign name
  else if s.isDuplicate name then s
  else (s.bindSlot name (s.fresh .local_)).advance

def declareKind (s : State) (kind : Declared) (name : String) : State :=
  if s.isDuplicate name then s
  else
    let kind := match kind with
      | .variant => Kind.variant
      | .type => Kind.type
    (s.declare name (s.fresh kind)).advance

/-! ### Calls -/

/-- A call of a name goes through the closure that `variables` has under it, or to the function of
the module. -/
def call (s : State) (name : String) : State :=
  let target := match s.table.lookup name with
    | some binding => .slot binding
    | none => s.getFunction name
  let clear := match s.table.lookup name with
    | some _ => !s.left.contains name
    | none =>
      match s.lookup name with
      | some ⟨id, .function⟩ => s.kept.contains (name, id)
      | _ => false
  s.logCall ⟨name, target, s.lookup name, clear⟩

/-! ### Frames and arms -/

/-- Bindings of their own for these names. -/
def scopeOf : List String → Nat → Table
  | [], _ => []
  | name :: rest, id => (name, ⟨id, .local_⟩) :: scopeOf rest (id + 1)

/-- A scope for these names, which shadow others in `variables`. -/
def enterArm (s : State) (names : List String) : State :=
  let scope := scopeOf names s.next
  { s with
    scope
    outer := s.scope :: s.outer
    table := scope ++ s.table
    next := s.next + names.length
    left := s.left.filter (!names.contains ·)
    inserted := [] }

/-- `pop_scope` -/
def popScope (s : State) : State :=
  match s.outer with
  | scope :: outer => { s with scope, outer }
  | [] => s

/-- `restore_bindings`: the other names that were entered meanwhile stay. -/
def leaveArm (s before : State) (names : List String) : State :=
  let stays := s.inserted.filter (!names.contains ·)
  { s.popScope with
    table := before.table.filter (names.contains ·.1) ++ s.table.filter (!names.contains ·.1)
    left := before.left.filter (!stays.contains ·) ++ stays
    inserted := stays ++ before.inserted }

/-- A frame of its own, with these names and the captured entries. -/
def enterFrame (s : State) (names captured : List String) : State :=
  let scope := scopeOf names s.next
  { s with
    scope
    outer := s.scope :: s.outer
    table := s.table.filter (captured.contains ·.1) ++ scope
    next := s.next + names.length
    left := s.left.filter captured.contains
    inserted := [] }

/-- `resume_enclosing_function` -/
def leaveFrame (s before : State) : State :=
  { s.popScope with table := before.table, left := before.left, inserted := before.inserted }

/-- The names `variables` has entries under. -/
def keys (s : State) : List String := s.table.map (·.1)

/-- `__lambda_N` -/
def addLambda (s : State) : State :=
  { s.addSymbols ["__lambda_" ++ toString s.lambdas] with lambdas := s.lambdas + 1 }

/-- The name of a local function that captures nothing, and the function of the module. -/
def declareFunction (s : State) (name : String) (overload : Option String) : State :=
  match overload with
  | none => ((s.declare name (s.fresh .function)).addFunction name s.next).advance
  | some symbol => (s.addFunction symbol s.next).advance

/-- The name of a local function that is a closure, before its body.  A captured entry under the name
is another's. -/
def declareClosure (s : State) (name : String) (bound : Bool) : State :=
  if bound then (s.declare name (s.fresh .local_)).advance else s.advance

/-- The slot of the closure, once it is there. -/
def bindClosure (s : State) (name : String) (bound : Bool) (binding : Binding) : State :=
  { s with
    table := (name, binding) :: s.table
    left := if bound then s.left.filter (· ≠ name) else name :: s.left
    inserted := name :: s.inserted }

end State

/-! ### The walk -/

section Walk

variable (isVariant : String → Bool)

def walk : Occurrences → State → State
  | .none, s => s
  | .seq first rest, s => walk rest (walk first s)
  | .read name, s => s.read isVariant name
  | .call name, s => s.call name
  | .dispatch member symbol, s =>
    s.logCall ⟨symbol, s.getFunction symbol, some ⟨member, .function⟩, s.kept.contains (symbol, member)⟩
  | .bind isMutable name, s => s.bind isMutable name
  | .declare kind name, s => s.declareKind kind name
  | .symbols names, s => s.addSymbols names
  | .arm names body, s => (walk body (s.enterArm names)).leaveArm s names
  | .lambda parameters captures body, s =>
    let captured := captures.of s.keys
    let s := s.addLambda
    (walk body (s.enterFrame parameters captured)).leaveFrame s
  | .function name overload parameters captures body, s =>
    if overload.isNone && s.isDuplicate name then s
    else
      let captured := captures.of s.keys
      if captured.isEmpty then
        let declared := s.declareFunction name overload
        (walk body (declared.enterFrame parameters [])).leaveFrame declared
      else
        let declared := (s.declareClosure name overload.isNone).addLambda
        let after := (walk body (declared.enterFrame parameters captured)).leaveFrame declared
        after.bindClosure name overload.isNone (s.fresh .local_)
  | .body names body, s => (walk body (s.enterFrame names [])).leaveFrame s

end Walk

/-! ### The program -/

section Program

variable (answers : Answers)

/-- A top-level binding's global: it is not found where the name has one already. -/
def State.addGlobal (s : State) (name : String) (binding : Binding) : State :=
  { s with globals := s.globals ++ [(name, binding)] }

/-- What the checker makes of a top-level binding.  A `:=` of a name that is bound is one more
assignment to it, for which the generator adds another global. -/
def State.bindGlobal (s : State) (isMutable : Bool) (name : String) (binding : Binding) : State :=
  if isMutable then
    match s.lookup name with
    | some bound => s.log ⟨name, .global binding, some bound, false⟩
    | none => s.declare name binding
  else if s.isDuplicate name then s
  else s.declare name binding

/-- `generate_top_level_binding`.  The global of a computed binding is there before its initializer
is lowered. -/
def lowerBinding (declaration : VariableDeclaration) (s : State) : State :=
  let name := declaration.name
  let binding := s.fresh .global
  let value := walk answers.isVariant (occurrences answers declaration.value)
  let s := s.advance
  let s :=
    if isConstant declaration.value then (value s).addGlobal name binding
    else value (s.addGlobal name binding)
  s.bindGlobal declaration.isMutable name binding

/-- The frame of a top-level function stays behind. -/
def State.leaveFunction (s : State) : State := { s.popScope with left := s.keys }

/-- Whether there is code for a top-level function. -/
def isEmitted (reachable : Option (List String)) (declaration : FunctionDeclaration) : Bool :=
  !declaration.isInertCorelibPlaceholder && (atPrimitiveName declaration.name).isNone &&
    reachable.all (·.contains declaration.name)

def lowerFunction (reachable : Option (List String)) (position : Nat)
    (declaration : FunctionDeclaration) (s : State) : State :=
  let name := declaration.name
  let declared :=
    if declaration.isInertCorelibPlaceholder || answers.overloaded name || s.isDuplicate name then s
    else s.declare name ⟨position, .function⟩
  if isEmitted reachable declaration then
    (walk answers.isVariant (occurrences answers declaration.body)
      (declared.enterFrame (declaration.parameters.map (·.name)) [])).leaveFunction
  else declared

/-- `__trap_arm_N_Name` -/
def trapSymbol (index : Nat) : Pattern → List String
  | .constructor name _ _ => ["__trap_arm_" ++ toString index ++ "_" ++ name]
  | _ => []

/-- `generate_trap` -/
def trapOccurrences : List (MatchArm × Nat) → Occurrences
  | [] => .none
  | (arm, index) :: rest =>
    .seq
      (.seq (.symbols (trapSymbol index arm.pattern))
        (.body arm.pattern.bindingNames (occurrences answers arm.body)))
      (trapOccurrences rest)

def lowerItem (reachable : Option (List String)) (s : State) : Item × Nat → State
  | (.variableDeclaration declaration, _) => lowerBinding answers declaration s
  | (.functionDeclaration declaration, position) =>
    lowerFunction answers reachable position declaration s
  | (.typeDeclaration declaration, _) =>
    walk answers.isVariant (ofStatements answers [.item (.typeDeclaration declaration)]) s
  -- The checker reads a trap last: a name that is bound below it has no place yet.
  | (.trapDeclaration trap, _) => walk answers.isVariant (trapOccurrences answers trap.arms.zipIdx) s

/-- Every function that is emitted is declared before any body is. -/
def predeclare (reachable : Option (List String)) (s : State) : Item × Nat → State
  | (.functionDeclaration declaration, position) =>
    if isEmitted reachable declaration then
      s.addFunction
        ((overloadSymbol answers declaration.name declaration.span).getD declaration.name) position
    else s
  | _ => s

def State.empty (next : Nat) : State where
  scope := []
  outer := []
  table := []
  globals := []
  symbols := []
  lambdas := 0
  kept := []
  next := next
  left := []
  inserted := []
  accesses := []
  calls := []

/-- `generate` -/
def lowerProgram (program : Program) : State :=
  let reachable := reachableFunctions program
  let items := program.items.zipIdx
  let declared := items.foldl (predeclare answers reachable) (.empty program.items.length)
  items.foldl (lowerItem answers reachable) (declared.addSymbols ["__ql_init"])

end Program

end Quilon.Naming
