import Quilon.Runtime.Scheduler

/-!
# The guards a fiber is in

`run_case_guarded` and `run_fault_guarded` of `quilon-rt/src/scheduler.rs`, with the yields that
travel through them.  A guard runs its body on a coroutine of its own, which it resumes itself; what
the body yields comes back to the guard's loop, which ends the body on its own marker and hands any
other yield on to the coroutine it runs on.  So a park leaves the guards one by one until the ready
queue files the fiber, and a resume enters them again one by one.

`outer` are the guards whose `resume_fiber` call is on the stack, innermost first, `inner` those that
have handed the park on, the next to be entered first.  `raised` is not in the code: what the marker
under way was raised for, and the guards on the stack at that moment.
-/

namespace Quilon.Runtime

/-- A test case's guard, with the case, or the guard of `aborts()` and of a launch. -/
inductive GuardKind where
  | case (name : Nat)
  | fault
deriving DecidableEq

structure Guard where
  id : Nat
  kind : GuardKind
deriving DecidableEq

def Guard.isCase (guard : Guard) : Bool :=
  match guard.kind with
  | .case _ => true
  | .fault => false

def Guard.isFault (guard : Guard) : Bool :=
  !guard.isCase

/-- By how much a guard raises `abort_trap_depth` around a resume of its body. -/
def Guard.depth (guard : Guard) : Nat :=
  if guard.isFault then 1 else 0

/-- The marker that ends a guard's body. -/
def Guard.catches (guard : Guard) : Park → Bool
  | .caseAborted => guard.isCase
  | .abortTrapped _ => guard.isFault
  | _ => false

/-- Why a marker was raised: a failing `expect` written in a case, or a fail-loud exit. -/
inductive Cause where
  | expect (name : Nat)
  | failLoud
deriving DecidableEq

inductive Mode where
  | executing
  | yielding (park : Park)
  | resuming
deriving DecidableEq

/-- The fiber a worker runs, with its guards. -/
structure Chain where
  root : Nat
  outer : List Guard
  inner : List Guard
  mode : Mode
  raised : Option (Cause × List Guard)

/-- The coroutine that runs: the innermost guard's, or the fiber's own. -/
def Chain.innermost (chain : Chain) : Nat :=
  match chain.outer with
  | guard :: _ => guard.id
  | [] => chain.root

/-- A worker's fibers.  A parked one keeps the guards it is in, outermost first. -/
structure Lane where
  running : Option Chain
  parked : List (Nat × List Guard)
  abortTrapDepth : Nat
  currentYielder : Nat

def Lane.start : Lane where
  running := none
  parked := []
  abortTrapDepth := 0
  currentYielder := 0

/-- A marker that has ended a guard's body. -/
structure Delivery where
  cause : Cause
  raisedIn : List Guard
  guard : Guard

/-- `unreachable` is the arm of `run_ready_queue` that no marker should reach, `dangling` a yield
through a yielder that is not the running coroutine's. -/
structure Lanes where
  lanes : Nat → Lane
  exited : Bool
  unreachable : Bool
  dangling : Bool
  delivered : List Delivery

def Lanes.start : Lanes where
  lanes _ := .start
  exited := false
  unreachable := false
  dangling := false
  delivered := []

inductive GuardEvent where
  /-- the ready queue runs a new fiber, or one that was parked -/
  | start (root : Nat)
  | resume (root : Nat)
  | reenter
  | enterGuard (guard : Guard)
  /-- the body of the innermost guard returns -/
  | leaveGuard
  | park (park : Park)
  /-- an `expect` written in the case `name` fails -/
  | expect (name : Nat)
  | failLoud (report : String)
  /-- the loop of the guard, or of the ready queue, that a yield has come to -/
  | handle
  | finish

namespace Lanes

def setLane (system : Lanes) (index : Nat) (lane : Lane) : Lanes :=
  { system with lanes := Function.update system.lanes index lane }

/-- A yield of the running coroutine, through the worker's current-yielder cell. -/
def raise (system : Lanes) (index : Nat) (chain : Chain) (park : Park) (cause : Option Cause) :
    Lanes :=
  let lane := system.lanes index
  if lane.currentYielder = chain.innermost then
    system.setLane index { lane with
      running := some { chain with
        mode := .yielding park
        raised := cause.map fun cause => (cause, chain.outer) } }
  else { system with dangling := true }

/-- A guard's loop, or the ready queue's, gets what the coroutine it resumed has yielded. -/
def handle (system : Lanes) (index : Nat) (chain : Chain) (park : Park) : Lanes :=
  let lane := system.lanes index
  match chain.outer with
  | guard :: outer =>
    let depth := lane.abortTrapDepth - guard.depth
    if guard.catches park then
      let ended := { chain with outer := outer, inner := [], mode := .executing, raised := none }
      let after := system.setLane index { lane with
        running := some ended
        abortTrapDepth := depth
        currentYielder := ended.innermost }
      match chain.raised with
      | some (cause, raisedIn) =>
        { after with delivered := { cause, raisedIn, guard } :: system.delivered }
      | none => after
    else
      system.setLane index { lane with
        running := some { chain with outer := outer, inner := guard :: chain.inner }
        abortTrapDepth := depth }
  | [] =>
    if park.isMarker then { system with unreachable := true }
    else
      system.setLane index { lane with
        running := none
        parked := (chain.root, chain.inner) :: lane.parked }

/-- The step of the fiber a worker runs. -/
def stepChain (index : Nat) (chain : Chain) (event : GuardEvent) (system : Lanes) :
    Option Lanes :=
  let lane := system.lanes index
  match event, chain.mode with
  | .reenter, .resuming =>
    match chain.inner with
    | guard :: inner =>
      some (system.setLane index { lane with
        running := some { chain with outer := guard :: chain.outer, inner := inner }
        abortTrapDepth := lane.abortTrapDepth + guard.depth
        currentYielder := guard.id })
    | [] =>
      some (system.setLane index { lane with running := some { chain with mode := .executing } })
  | .enterGuard guard, .executing =>
    some (system.setLane index { lane with
      running := some { chain with outer := guard :: chain.outer }
      abortTrapDepth := lane.abortTrapDepth + guard.depth
      currentYielder := guard.id })
  | .leaveGuard, .executing =>
    match chain.outer with
    | guard :: outer =>
      let left := { chain with outer := outer }
      some (system.setLane index { lane with
        running := some left
        abortTrapDepth := lane.abortTrapDepth - guard.depth
        currentYielder := left.innermost })
    | [] => none
  | .park park, .executing =>
    if park.isMarker then none else some (system.raise index chain park none)
  | .expect name, .executing => some (system.raise index chain .caseAborted (some (.expect name)))
  | .failLoud report, .executing =>
    -- `fail_at` and `__exit` ask `abort_trap_active`
    if 0 < lane.abortTrapDepth then
      some (system.raise index chain (.abortTrapped report) (some .failLoud))
    else some { system with exited := true }
  | .handle, .yielding park => some (system.handle index chain park)
  | .finish, .executing =>
    match chain.outer with
    | [] => some (system.setLane index { lane with running := none })
    | _ :: _ => none
  | _, _ => none

/-- One step of a worker; nothing runs once the process has ended. -/
def step (move : Nat × GuardEvent) (system : Lanes) : Option Lanes :=
  let (index, event) := move
  let lane := system.lanes index
  if system.exited || system.unreachable || system.dangling then none
  else
    match lane.running, event with
    | some chain, event => system.stepChain index chain event
    | none, .start root =>
      some (system.setLane index { lane with
        running := some
          { root, outer := [], inner := [], mode := .executing, raised := none }
        currentYielder := root })
    | none, .resume root =>
      match lane.parked.lookup root with
      | some guards =>
        some (system.setLane index { lane with
          running := some
            { root, outer := [], inner := guards, mode := .resuming, raised := none }
          parked := lane.parked.filter (·.1 ≠ root)
          currentYielder := root })
      | none => none
    | none, _ => none

/-- The states the workers reach. -/
def Reaches : Lanes → Prop :=
  Reachable step .start

end Lanes

end Quilon.Runtime
