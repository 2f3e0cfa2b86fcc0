import Quilon.Runtime.Scheduler

/-!
# Deferred cells across workers

`quilon-rt/src/deferred.rs` over the schedulers of all workers: the cell a launch leaves behind, the
forces and joins that wait for it on any worker, and the producer that resolves it.

A step is what runs under one lock: `force` checks and registers with the cell's lock held, the
producer stores and wakes with it held, `complete` takes the lock of one worker's completed tokens
and `collect` drains that list.  Everything a fiber does between two of them is a step of its own, so
that the wake of another worker may come anywhere in between, also while a park is still on its way
out through the guards the fiber is in.

The closure that resolves a cell is an `FnOnce`: `producer` says where the one closure of the cell
is.  A heap address is a number, and there is a worker for every number; those never placed anything
on stay as they started.
-/

namespace Quilon.Runtime

variable {Value : Type}

inductive DeferredState (Value : Type) where
  | pending
  | ready (value : Value)
  | faulted (report : String)
deriving DecidableEq

def DeferredState.settled : DeferredState Value → Bool
  | .pending => false
  | .ready _ | .faulted _ => true

/-- What `run_fault_guarded` makes of the producer. -/
inductive Outcome (Value : Type) where
  | value (result : Value)
  | fault (report : String)

def Outcome.toState : Outcome Value → DeferredState Value
  | .value result => .ready result
  | .fault report => .faulted report

/-- Where the closure of `resolve_body` is: in a worker's inbox, in a fiber, or called. -/
inductive Producer where
  | placed (worker : Nat)
  | fiber (worker id : Nat)
  | spent
deriving DecidableEq

/-- A cell; a waiter is the worker whose waker it holds and the token. -/
structure Deferred (Value : Type) where
  state : DeferredState Value
  waiters : List (Nat × Nat)
  locked : Bool
  producer : Producer

/-- Where a fiber is.  A park it has begun has `levels` guards to pass before the worker's loop
files it; `cell` is the deferred value it waits for.  A producer is `waking` from its store until it
drops the lock. -/
inductive Phase where
  | active
  | parking (park : Park) (cell : Option Nat) (levels : Nat)
  | waking (cell : Nat)
deriving DecidableEq

/-- A fiber with the ids of the guards it is in. -/
structure Fiber where
  phase : Phase
  guards : List Nat

structure System (Value : Type) where
  workers : Nat → Worker Fiber
  completed : Nat → List Nat
  cells : Nat → Option (Deferred Value)
  returned : List (Nat × Value)

def System.start : System Value where
  workers _ := .start
  completed _ := []
  cells _ := none
  returned := []

namespace System

/-- The running fiber of a worker. -/
def running (system : System Value) (worker : Nat) : Option (Nat × Fiber) :=
  (system.workers worker).running

def setWorker (system : System Value) (index : Nat) (worker : Worker Fiber) : System Value :=
  { system with workers := Function.update system.workers index worker }

def setCell (system : System Value) (address : Nat) (cell : Deferred Value) : System Value :=
  { system with cells := Function.update system.cells address (some cell) }

/-- The running fiber goes on in another phase. -/
def setPhase (system : System Value) (index id : Nat) (fiber : Fiber) (phase : Phase) :
    System Value :=
  system.setWorker index
    { system.workers index with running := some (id, { fiber with phase := phase }) }

/-- An event of one worker's scheduler. -/
def work (system : System Value) (index : Nat) (event : Event Fiber) : Option (System Value) :=
  (Worker.step event (system.workers index)).map (system.setWorker index)

/-- `Waiters::register` and the end of the check: the fiber holds a fresh token and is about to park
on it. -/
def register (system : System Value) (index id : Nat) (fiber : Fiber) (address : Nat)
    (cell : Deferred Value) : Option (System Value) :=
  let token := (system.workers index).nextToken
  (system.work index .register).map fun registered =>
    (registered.setCell address { cell with waiters := cell.waiters ++ [(index, token)] }).setPhase
      index id fiber (.parking (.readiness token) (some address) fiber.guards.length)

end System

/-- What a worker does next. -/
inductive Act (Value : Type) where
  /-- a fiber that resolves no cell -/
  | spawn
  /-- `launch_here` and `launch_placed`: a fresh cell, its producer placed on `target` -/
  | launch (address target : Nat)
  | install (address : Nat)
  | resume
  /-- a token for a source, and the source changing hands -/
  | source (event : Event Fiber)
  | enterGuard
  /-- a guard's body returned, or the guard abandoned it -/
  | leaveGuard
  /-- any other park: a sleep, a socket, a helper thread -/
  | park (park : Park)
  | force (address : Nat)
  | settle (address : Nat)
  /-- a guard passes the park on to the one around it -/
  | forward
  /-- the worker's loop files the fiber under its park -/
  | file
  | store (address : Nat) (outcome : Outcome Value)
  | complete
  | unlock
  | finish
  /-- `wait_and_wake`, with what the poll itself reports -/
  | collect (reported : List Nat)
  | sweep (now : Nat)

/-- The events by which a source is registered and handed on. -/
def Event.isSource {Coroutine : Type} : Event Coroutine → Bool
  | .register | .borrow _ | .unborrow _ => true
  | _ => false

namespace System

/-- The step of the running fiber, in the phase it is in. -/
def stepRunning (index id : Nat) (fiber : Fiber) (act : Act Value) (system : System Value) :
    Option (System Value) :=
  match act, fiber.phase with
  | .source event, .active => if event.isSource then system.work index event else none
  | .launch address target, .active =>
    match system.cells address with
    | none =>
      some (system.setCell address
        { state := .pending, waiters := [], locked := false, producer := .placed target })
    | some _ => none
  | .enterGuard, .active =>
    (system.work index .reserve).map fun reserved =>
      reserved.setWorker index { reserved.workers index with
        running := some (id, { fiber with
          guards := (system.workers index).scheduler.reserveId.1 :: fiber.guards }) }
  | .leaveGuard, .active =>
    match fiber.guards with
    | guard :: guards =>
      (system.work index (.release guard)).map fun released =>
        released.setWorker index { released.workers index with
          running := some (id, { fiber with guards := guards }) }
    | [] => none
  | .park park, .active =>
    if (system.workers index).mayPark id park then
      some (system.setPhase index id fiber (.parking park none fiber.guards.length))
    else none
  | .force address, .active =>
    match system.cells address with
    | some cell =>
      if cell.locked then none
      else
        match cell.state with
        | .ready value => some { system with returned := (address, value) :: system.returned }
        -- `fault_current_fiber`: no value comes back
        | .faulted _ => some system
        | .pending => system.register index id fiber address cell
    | none => none
  | .settle address, .active =>
    match system.cells address with
    | some cell =>
      if cell.locked then none
      else
        match cell.state with
        | .ready _ | .faulted _ => some system
        | .pending => system.register index id fiber address cell
    | none => none
  | .forward, .parking park cell (levels + 1) =>
    some (system.setPhase index id fiber (.parking park cell levels))
  | .file, .parking park _ 0 => system.work index (.park park fiber)
  | .store address outcome, .active =>
    match system.cells address with
    | some cell =>
      if fiber.guards.isEmpty ∧ cell.producer = .fiber index id ∧ ¬cell.locked then
        some ((system.setCell address
          { cell with state := outcome.toState, locked := true, producer := .spent }).setPhase
            index id fiber (.waking address))
      else none
    | none => none
  | .complete, .waking address =>
    match system.cells address with
    | some cell =>
      match cell.waiters with
      | (worker, token) :: waiters =>
        some { system.setCell address { cell with waiters := waiters } with
          completed := Function.update system.completed worker
            (system.completed worker ++ [token]) }
      | [] => none
    | none => none
  | .unlock, .waking address =>
    match system.cells address with
    | some cell =>
      if cell.waiters.isEmpty then
        some ((system.setCell address { cell with locked := false }).setPhase index id fiber
          .active)
      else none
    | none => none
  | .finish, .active => if fiber.guards.isEmpty then system.work index .finish else none
  | _, _ => none

/-- The step of a worker whose loop runs nothing. -/
def stepLoop (index : Nat) (act : Act Value) (system : System Value) : Option (System Value) :=
  match act with
  | .resume =>
    (system.work index .resume).map fun resumed =>
      match resumed.running index with
      | some (id, fiber) => resumed.setPhase index id fiber .active
      | none => resumed
  | .collect reported =>
    -- The ready queue has been drained first.
    if (system.workers index).scheduler.ready.isEmpty then
      (system.work index (.wake (system.completed index ++ reported))).map fun woken =>
        { woken with completed := Function.update woken.completed index [] }
    else none
  | .sweep now => system.work index (.sweep now)
  | _ => none

/-- One step of the worker `index`. -/
def step (move : Nat × Act Value) (system : System Value) : Option (System Value) :=
  match move with
  | (index, .spawn) => system.work index (.spawn { phase := .active, guards := [] })
  | (index, .install address) =>
    match system.cells address with
    | some cell =>
      if cell.producer = .placed index then
        (system.work index (.spawn { phase := .active, guards := [] })).map fun spawned =>
          spawned.setCell address { cell with
            producer := .fiber index (system.workers index).scheduler.reserveId.1 }
      else none
    | none => none
  | (index, act) =>
    match system.running index with
    | some (id, fiber) => stepRunning index id fiber act system
    | none => stepLoop index act system

/-- The states the workers reach together. -/
def Reaches : System Value → Prop :=
  Reachable step .start

end System

end Quilon.Runtime
