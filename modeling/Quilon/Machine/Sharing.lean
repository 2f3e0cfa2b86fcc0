import Quilon.Machine
import Quilon.Typechecker.Equiv.FiberSharing

/-!
# Which fibers access which variables

A run is watched: which cell came from which declaration and which fiber made it, which fibers run
a server's handler or an arm of a trap, and every read and write of a variable's cell.  Watching
takes no step away (`watched_of_reaches`).

`RaceFree` is what sharing is to be: a `:=` cell that a handler or an arm and another fiber access,
one of them writing, is declared with `@`.  `Allowed` are the steps whose code and whose captured
locals the fiber-sharing check looks at.
-/

namespace Quilon

/-- A read or write of a variable's cell. -/
structure Access where
  fiber : Nat
  cell : Nat
  writes : Bool
  touch : Touch

/-- The fiber that made a cell and, where a declaration names it, the declaration. -/
structure Origin where
  fiber : Nat
  declaration : Option VariableDeclaration

/-- `served` are the fibers that run handlers and arms. -/
structure Watched where
  state : State
  served : List Nat
  origins : List Origin
  accesses : List Access

/-! ### What a step of a fiber shows -/

def Item.declaration? : Item → Option VariableDeclaration
  | .variableDeclaration d => some d
  | _ => none

section Step

variable (setup : Setup)

/-- The declarations of the slots that `reserve` adds. -/
def slotDeclarations : Store → Context → List Item → List (Option VariableDeclaration)
  | _, _, [] => []
  | store, context, item :: items =>
    let after := reserveItem setup store context item
    let rest := slotDeclarations after.1 after.2 items
    if after.1.cells.length = store.cells.length then rest else item.declaration? :: rest

/-- The declarations of the cells made when a value reaches a frame, as far as declarations name
them; a conditional's are made if the value skips the branch. -/
def Frame.declares (store : Store) (context : Context) :
    Frame → List (Option VariableDeclaration)
  | .bind d _ _ => [some d]
  | .condition _ skipped _ | .leaveBranch skipped | .shortCircuit _ skipped =>
    slotDeclarations setup store context (introduces skipped)
  | _ => []

def Fiber.declares (store : Store) (fiber : Fiber) : List (Option VariableDeclaration) :=
  match fiber.control, fiber.frames with
  | .deliver _, frame :: _ => frame.declares setup store fiber.context
  | _, _ => []

/-- The cell a step reads or writes. -/
def Fiber.accesses (index : Nat) (choice : Choice) (store : Store) (fiber : Fiber) :
    Option Access :=
  match fiber.control, fiber.frames with
  | .eval _ (.identifier name span), _ =>
    (fiber.context.env.lookup name).map fun cell => ⟨index, cell, false, ⟨name, span⟩⟩
  | .operands (.call (.identifier name span) _ false _) false [] _, _ =>
    match choice with
    | .binding => (fiber.context.env.lookup name).map fun cell =>
        ⟨index, cell, false, ⟨name, span⟩⟩
    | _ => none
  | .deliver _, .bind d _ _ :: _ =>
    -- A `:=` to a name without a cell makes the next one.
    if d.isMutable then
      some ⟨index, (fiber.context.env.lookup d.name).getD store.cells.length, true,
        ⟨d.name, d.span⟩⟩
    else none
  | .deliver _, .initialise d rest :: _ =>
    some ⟨index, setup.globalBefore rest, true, ⟨d.name, d.span⟩⟩
  | _, _ => none

/-! ### Watching a step -/

namespace Watched

variable (action : Action) (watched : Watched)

/-- The fiber that takes the step. -/
def stepping : Option (Nat × Choice × Fiber) :=
  match action with
  | .fiber index choice =>
    (watched.state.fibers[index]?).map fun fiber => (index, choice, fiber)
  | _ => none

def newAccess : Option Access :=
  (watched.stepping action).bind fun (index, choice, fiber) =>
    fiber.accesses setup index choice watched.state.store

/-- The origins of `count` cells that the step makes. -/
def newOrigins (count : Nat) : List Origin :=
  match watched.stepping action with
  | some (index, _, fiber) =>
    let declared := fiber.declares setup watched.state.store ++ List.replicate count none
    (declared.take count).map fun d => ⟨index, d⟩
  | none => []

def nowServed : List Nat :=
  match action with
  | .handle _ _ _ | .trap _ _ => watched.state.fibers.length :: watched.served
  | _ => watched.served

def step : Option Watched :=
  (Quilon.step setup action watched.state).map fun state =>
    let count := state.store.cells.length - watched.state.store.cells.length
    { state
      served := watched.nowServed action
      origins := watched.origins ++ watched.newOrigins setup action count
      accesses := watched.accesses ++ (watched.newAccess setup action).toList }

end Watched

/-- The globals are made before the run, one for each top-level declaration. -/
def Watched.start : Watched where
  state := setup.start
  served := []
  origins := (setup.program.items.filterMap Item.declaration?).map fun d => ⟨0, some d⟩
  accesses := []

end Step

theorem Watched.step_state {setup : Setup} {action : Action} {watched watched' : Watched}
    (h : watched.step setup action = some watched') :
    Quilon.step setup action watched.state = some watched'.state := by
  obtain ⟨state, hstep, rfl⟩ := Option.map_eq_some_iff.mp h
  exact hstep

/-- A watched run is a run. -/
theorem Watched.reaches {setup : Setup} {allowed : Action → Watched → Prop} {watched : Watched}
    (h : Run (Watched.step setup) allowed (Watched.start setup) watched) :
    setup.Reaches watched.state := by
  induction h with
  | start => exact .start
  | next action _ _ hstep ih => exact .next action ih trivial (Watched.step_state hstep)

/-- Every run can be watched. -/
theorem watched_of_reaches {setup : Setup} {state : State} (h : setup.Reaches state) :
    ∃ watched, Reachable (Watched.step setup) (Watched.start setup) watched ∧
      watched.state = state := by
  induction h with
  | start => exact ⟨_, .start, rfl⟩
  | @next before state' action _ _ hstep ih =>
    obtain ⟨watched, hrun, rfl⟩ := ih
    have hnext : ∃ after, watched.step setup action = some after ∧ after.state = state' := by
      rw [Watched.step, hstep]
      exact ⟨_, rfl, rfl⟩
    obtain ⟨after, hnext, hstate⟩ := hnext
    exact ⟨after, .next action hrun trivial hnext, hstate⟩

/-! ### Race freedom -/

section Races

variable (setup : Setup)

/-- The `:=` items. -/
def Program.mutableGlobals (program : Program) : List VariableDeclaration :=
  (program.items.filterMap Item.declaration?).filter (·.isMutable)

/-- Among the `:=` declarations beside `d`, itself included, one of its name has the `@`. -/
def DeclaredAtomic (cell : Nat) (d : VariableDeclaration) : Prop :=
  ∃ beside : List VariableDeclaration, d ∈ beside ∧
    (if cell < setup.globalCount then beside = setup.program.mutableGlobals
      else ∃ block, setup.program.Contains block ∧ beside = directMutableLocals block) ∧
    ∃ declared ∈ beside, declared.name = d.name ∧ declared.atomic = true

def RaceFree (watched : Watched) : Prop :=
  ∀ a ∈ watched.accesses, ∀ b ∈ watched.accesses, a.fiber ≠ b.fiber → a.cell = b.cell →
    a.fiber ∈ watched.served → a.writes = true ∨ b.writes = true →
    ∀ origin, watched.origins[a.cell]? = some origin →
      ∀ d, origin.declaration = some d → d.isMutable = true → DeclaredAtomic setup a.cell d

end Races

/-! ### The steps the check looks at -/

section Allowed

variable (setup : Setup) (scope : RootScope)

/-- A plain call by name that a top-level function answers. -/
def Fiber.callsFunction (choice : Choice) (fiber : Fiber) : Bool :=
  match fiber.control, choice with
  | .operands (.call (.identifier _ _) _ false _) false [] _, .function _ _ => true
  | _, _ => false

/-- What a handler's fiber starts to run otherwise than by a plain call of a top-level function. -/
def Watched.startsUnnamed (action : Action) (watched : Watched) : Option Closure :=
  match action with
  | .handle handler function _ =>
    match watched.state.store.handlers[handler]? with
    | some (closure, false) => watched.state.store.closures[closure]?
    | some (_, true) => (setup.functions[function]?).map (·.2)
    | none => none
  | .fiber index choice =>
    match watched.state.fibers[index]? with
    | some fiber =>
      if watched.served.contains index && !fiber.callsFunction choice then
        match fiberStep setup choice watched.state.store fiber with
        | some (_, ⟨.apply code _, _, _⟩) => some code
        | _ => none
      else none
    | none => none
  | _ => none

/-- The check sees the code as a launch's handler, or the code touches nothing shared. -/
def Followed (body : Expression) : Prop :=
  (∃ launch ∈ setup.program.fiberLaunches, body ∈ launch.roots setup.program) ∨
    Unshared scope setup.program body

/-- The check sees the touch in a launch's handler, and the declaration beside the launch. -/
def SeenCaptured (touch : Touch) (d : VariableDeclaration) : Prop :=
  ∃ launch ∈ setup.program.fiberLaunches, ∃ body, launch.handlerBody setup.program = some body ∧
    touch ∈ walk body ∧ d ∈ directMutableLocals launch.enclosing ∧ scope.holds d.name = false

/-- The code that handlers start by other ways than a plain call of a top-level function is a
handler that the check sees, or touches nothing shared; and the `:=` locals of other fibers that are
accessed are ones that the check sees captured. -/
structure Allowed (action : Action) (watched : Watched) : Prop where
  followed : ∀ code, watched.startsUnnamed setup action = some code →
    Followed setup scope code.body
  captured : ∀ access, watched.newAccess setup action = some access →
    ∀ origin, watched.origins[access.cell]? = some origin → setup.globalCount ≤ access.cell →
      origin.fiber ≠ access.fiber →
      access.fiber ∈ watched.served ∨ origin.fiber ∈ watched.served →
      ∀ d, origin.declaration = some d → d.isMutable = true →
        SeenCaptured setup scope access.touch d

end Allowed

end Quilon
