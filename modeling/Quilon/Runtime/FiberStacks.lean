import Quilon.Runtime.Guards

/-!
# The stacks the collector scans

The switches of one worker, `quilon-rt/src/scheduler.rs`, with what they tell the collector,
`quilon-rt/src/gc.rs`: the stack bottom of its own scan, the worker's published snapshot for
`push_fiber_roots`, and `switch_disable` and `switch_enable` around every jump.

A resume is three steps: `resume_fiber` up to the jump, the fiber's side (`enter_fiber` and
`switch_enable`), and, when the fiber has left, the rest of `resume_fiber`.  A collection may come
between any two steps with no switch under way; the operations that one step is made of leave what
the collector sees as it is, or have collection held off.

`outer` are the coroutines whose resume is on the machine's stack, innermost first, and `inner` those
that the innermost one is the next to resume or has got control back from; with no `outer`, the
worker's own thread runs its loop.  A fiber in the slab keeps its guards' coroutines, outermost first.
-/

namespace Quilon.Runtime

namespace FiberStacks

structure Coroutine where
  /-- the id it is registered under -/
  id : Nat
  stack : Nat
  /-- the kind of the guard that runs it; none for a fiber of the ready queue -/
  kind : Option GuardKind
  /-- the `id` that `suspend_on` holds over its jump; none before the first resume -/
  held : Option Nat

/-- Why a coroutine has jumped back. -/
inductive Outcome where
  | yielded (park : Park)
  | returned
deriving DecidableEq

/-- What the innermost coroutine, or the worker's loop, does next. -/
inductive Point where
  /-- it has landed; `enter_fiber` comes next -/
  | landed
  | running
  /-- the coroutine it resumed has jumped back; `switch_enable` comes next -/
  | back (outcome : Outcome)
  | handling (outcome : Outcome)
  /-- the coroutine is unregistered, and then its stack dropped -/
  | unregistered
  | unmapped
deriving DecidableEq

inductive Event where
  /-- `install_fiber`, by a fiber or by the worker's loop for a placed job -/
  | install (id : Nat)
  /-- the ready queue's loop resumes a fiber of the slab -/
  | resume (index : Nat)
  /-- a guard's loop resumes its coroutine -/
  | reenter
  | enterGuard (id : Nat) (kind : GuardKind)
  | land
  | park (park : Park)
  /-- `abort_current_case`, `abort_current_trap` -/
  | abort (marker : Park)
  | finish
  | switchBack
  | handle
  | drop
  | release
  /-- the worker is torn down, with what its slab has -/
  | teardown
deriving DecidableEq

end FiberStacks

open FiberStacks in
structure FiberStacks where
  /-- the snapshot's ranges, a range for each stack, and its running fibers, innermost first -/
  ranges : Nat → Option Nat
  running : List Nat
  /-- the recorded stack bottom; none is the thread's own -/
  bottom : Option Nat
  switchDepth : Nat
  /-- a `switch_disable` or a `switch_enable` has found its assertion broken -/
  mispaired : Bool
  runningFibers : List Nat
  reserved : List Nat
  outer : List Coroutine
  inner : List Coroutine
  point : Point
  fibers : List (List Coroutine)
  allocated : Nat
  /-- the stacks that are registered and not unregistered, and those that are unmapped -/
  registered : List Nat
  dropped : List Nat
  tornDown : Bool

namespace FiberStacks

/-- After `begin_run`. -/
def start : FiberStacks where
  ranges _ := none
  running := []
  bottom := none
  switchDepth := 0
  mispaired := false
  runningFibers := []
  reserved := []
  outer := []
  inner := []
  point := .running
  fibers := []
  allocated := 0
  registered := []
  dropped := []
  tornDown := false

/-- The stack the worker executes on. -/
def executing (worker : FiberStacks) : Option Nat :=
  worker.outer.head?.map Coroutine.stack

/-- The stacks that `push_fiber_roots` pushes. -/
def Pushes (worker : FiberStacks) (stack : Nat) : Prop :=
  ∃ id, worker.ranges id = some stack ∧ worker.running.head? ≠ some id

def switchDisable (worker : FiberStacks) : FiberStacks :=
  { worker with
    switchDepth := worker.switchDepth + 1
    mispaired := worker.mispaired || worker.switchDepth ≠ 0 }

def switchEnable (worker : FiberStacks) : FiberStacks :=
  { worker with
    switchDepth := worker.switchDepth - 1
    mispaired := worker.mispaired || worker.switchDepth ≠ 1 }

/-- The range must be there: `expect`. -/
def enterFiber (id : Nat) (worker : FiberStacks) : Option FiberStacks :=
  (worker.ranges id).map fun stack =>
    { worker with bottom := some stack, running := id :: worker.running }

def leaveFiber (worker : FiberStacks) : Option FiberStacks :=
  let running := worker.running.tail
  match running.head? with
  | none => some { worker with bottom := none, running := running }
  | some id => (worker.ranges id).map fun stack =>
      { worker with bottom := some stack, running := running }

/-- Allocates a stack with a coroutine on it, and registers it. -/
def register (id : Nat) (worker : FiberStacks) : FiberStacks :=
  { worker with
    ranges := Function.update worker.ranges id (some worker.allocated)
    reserved := id :: worker.reserved
    allocated := worker.allocated + 1
    registered := worker.allocated :: worker.registered }

def unregister (coroutine : Coroutine) (worker : FiberStacks) : FiberStacks :=
  { worker with
    ranges := Function.update worker.ranges coroutine.id none
    registered := worker.registered.filter (· ≠ coroutine.stack) }

/-- `resume_fiber` up to its jump. -/
def resumeFiber (coroutine : Coroutine) (inner : List Coroutine) (worker : FiberStacks) :
    FiberStacks :=
  { { worker with runningFibers := coroutine.id :: worker.runningFibers }.switchDisable with
    outer := coroutine :: worker.outer
    inner := inner
    point := .landed }

/-- The fiber's side: `new_fiber`, or `suspend_on` after its jump. -/
def land (coroutine : Coroutine) (worker : FiberStacks) : Option FiberStacks :=
  match coroutine.held <|> worker.runningFibers.head? with
  | none => none
  | some id => (worker.enterFiber id).map fun entered =>
      { entered.switchEnable with point := .running }

/-- `suspend_on` up to its jump, `suspend_final`, or the end of `new_fiber`. -/
def leave (coroutine : Coroutine) (outer : List Coroutine) (outcome : Outcome)
    (worker : FiberStacks) : Option FiberStacks :=
  worker.switchDisable.leaveFiber.map fun left =>
    { left with
      outer := outer
      inner := { coroutine with held := worker.runningFibers.head? } :: worker.inner
      point := .back outcome }

/-- The rest of `resume_fiber`. -/
def switchBack (outcome : Outcome) (worker : FiberStacks) : FiberStacks :=
  { worker.switchEnable with
    runningFibers := worker.runningFibers.tail
    point := .handling outcome }

/-- The loop of the ready queue, or of a guard, gets what its coroutine has jumped back with. -/
def handle (outcome : Outcome) (worker : FiberStacks) : Option FiberStacks :=
  match worker.inner with
  | [] => none
  | child :: guards =>
    match outcome, worker.outer, child.kind with
    | .returned, _, _ =>
      some { worker.unregister child with inner := [child], point := .unregistered }
    | .yielded park, [], _ =>
      -- no marker comes to the ready queue: `unreachable!`
      if park.isMarker then none
      else
        some { worker with
          fibers := (child :: guards) :: worker.fibers
          inner := []
          point := .running }
    | .yielded park, coroutine :: outer, some kind =>
      if Guard.catches { id := child.id, kind := kind } park then
        some { worker.unregister child with inner := [child], point := .unregistered }
      else worker.leave coroutine outer outcome
    | .yielded _, _ :: _, none => none

/-- A step of the code that runs: the worker's loop, a guard's, or the body of a coroutine. -/
def stepRunning (event : Event) (worker : FiberStacks) : Option FiberStacks :=
  match event, worker.outer, worker.inner with
  | .install id, _, [] =>
    if id ∈ worker.reserved then none
    else
      some { worker.register id with
        fibers := [{ id := id, stack := worker.allocated, kind := none, held := none }] ::
          worker.fibers }
  | .resume index, [], [] =>
    match worker.fibers[index]? with
    | some (coroutine :: guards) =>
      some { worker.resumeFiber coroutine guards with fibers := worker.fibers.eraseIdx index }
    | _ => none
  | .reenter, _ :: _, coroutine :: guards => some (worker.resumeFiber coroutine guards)
  | .enterGuard id kind, _ :: _, [] =>
    if id ∈ worker.reserved then none
    else
      some { worker.register id with
        inner := [{ id := id, stack := worker.allocated, kind := some kind, held := none }] }
  | .park park, coroutine :: outer, [] =>
    if park.isMarker then none else worker.leave coroutine outer (.yielded park)
  | .abort marker, coroutine :: outer, [] =>
    if marker.isMarker then worker.leave coroutine outer (.yielded marker) else none
  | .finish, coroutine :: outer, [] => worker.leave coroutine outer .returned
  | .teardown, [], [] =>
    some { worker with
      dropped := worker.fibers.flatten.map Coroutine.stack ++ worker.dropped
      fibers := []
      tornDown := true }
  | _, _, _ => none

def step (event : Event) (worker : FiberStacks) : Option FiberStacks :=
  if worker.tornDown then none
  else
    match worker.point, event with
    | .running, event => worker.stepRunning event
    | .landed, .land =>
      match worker.outer with
      | coroutine :: _ => worker.land coroutine
      | [] => none
    | .back outcome, .switchBack => some (worker.switchBack outcome)
    | .handling outcome, .handle => worker.handle outcome
    | .unregistered, .drop =>
      some { worker with
        dropped := worker.inner.map Coroutine.stack ++ worker.dropped
        point := .unmapped }
    | .unmapped, .release =>
      some { worker with
        reserved := worker.reserved.filter (· ∉ worker.inner.map Coroutine.id)
        inner := []
        point := .running }
    | _, _ => none

end FiberStacks

end Quilon.Runtime
