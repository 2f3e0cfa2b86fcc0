import Quilon.Library.Transition
import Mathlib.Data.List.Basic
import Mathlib.Logic.Function.Basic

/-!
# One worker's scheduler

`quilon-rt/src/scheduler.rs`: the slab of fibers, the ready queue, the timers and the readiness
waits of one worker, and the turns its loop takes over them.

A `Vec` that is only pushed and popped (`free`) has its last element first, a `HashMap` is an
association list, an `Instant` is a number.  What a coroutine holds is left open; the scheduler only
moves it.  `holders` is not in the code: a token's source is a Rust value, and only the fiber that
has it exclusively (it allocated the token, it owns the stream, its `borrow_mut` succeeded) reaches a
park on that token.
-/

namespace Quilon.Runtime

/-- What a fiber yields when it parks. -/
inductive Park where
  | sleep (deadline : Nat)
  | readiness (token : Nat)
  | readinessOrDeadline (token deadline : Nat)
  | caseAborted
  | abortTrapped (report : String)
deriving DecidableEq

/-- The guards' own yields, which end the body of one and are no wait. -/
def Park.isMarker : Park → Bool
  | .caseAborted | .abortTrapped _ => true
  | _ => false

structure Scheduler (Coroutine : Type) where
  /-- the slab: `none` is a free slot, one whose fiber is running, or one a guard has reserved -/
  fibers : List (Option Coroutine)
  free : List Nat
  ready : List Nat
  timers : List (Nat × Nat)
  readinessWaiters : List (Nat × Nat)
  readinessDeadlines : List (Nat × Nat × Nat)

variable {Coroutine : Type}

namespace Scheduler

def new : Scheduler Coroutine where
  fibers := []
  free := []
  ready := []
  timers := []
  readinessWaiters := []
  readinessDeadlines := []

/-- `reserve_id`: the slot stays empty until the caller fills it. -/
def reserveId (scheduler : Scheduler Coroutine) : Nat × Scheduler Coroutine :=
  match scheduler.free with
  | id :: free => (id, { scheduler with free := free })
  | [] => (scheduler.fibers.length, { scheduler with fibers := scheduler.fibers ++ [none] })

/-- `release_id`, which is also how `run_ready_queue` ends a fiber that returned. -/
def releaseId (scheduler : Scheduler Coroutine) (id : Nat) : Scheduler Coroutine :=
  { scheduler with fibers := scheduler.fibers.set id none, free := id :: scheduler.free }

def installFiber (scheduler : Scheduler Coroutine) (coroutine : Coroutine) :
    Scheduler Coroutine :=
  let (id, reserved) := scheduler.reserveId
  { reserved with
      fibers := reserved.fibers.set id (some coroutine)
      ready := reserved.ready ++ [id] }

/-- The head of the ready queue, moved out of the slab; `none` inside when `take().unwrap()` would
panic. -/
def popReady (scheduler : Scheduler Coroutine) :
    Option (Nat × Option Coroutine × Scheduler Coroutine) :=
  match scheduler.ready with
  | [] => none
  | id :: ready =>
    some (id, (scheduler.fibers[id]?).join,
      { scheduler with fibers := scheduler.fibers.set id none, ready := ready })

/-- `HashMap::insert` -/
def insertWaiter (waiters : List (Nat × Nat)) (token id : Nat) : List (Nat × Nat) :=
  (token, id) :: waiters.filter (·.1 ≠ token)

/-- A fiber that parked goes back to the slab, under the wait it yielded.  The markers of the guards
are `unreachable!` here. -/
def filePark (scheduler : Scheduler Coroutine) (id : Nat) (coroutine : Coroutine) (park : Park) :
    Option (Scheduler Coroutine) :=
  let filed := { scheduler with fibers := scheduler.fibers.set id (some coroutine) }
  match park with
  | .sleep deadline => some { filed with timers := filed.timers ++ [(deadline, id)] }
  | .readiness token =>
    some { filed with readinessWaiters := insertWaiter filed.readinessWaiters token id }
  | .readinessOrDeadline token deadline =>
    some { filed with
      readinessWaiters := insertWaiter filed.readinessWaiters token id
      readinessDeadlines := filed.readinessDeadlines ++ [(deadline, token, id)] }
  | .caseAborted | .abortTrapped _ => none

/-- `Vec::swap_remove` -/
def swapRemove {α : Type} (entries : List α) (i : Nat) : List α :=
  match entries.getLast? with
  | some last => (entries.set i last).dropLast
  | none => entries

/-- The loop of `sweep_due`: what stays, and what was due in the order it was removed.  Every turn
shortens the entries or the way to their end, so their length is enough `fuel`. -/
def sweepLoop {α : Type} (due : α → Bool) : Nat → Nat → List α → List α × List α
  | 0, _, entries => (entries, [])
  | fuel + 1, i, entries =>
    match entries[i]? with
    | none => (entries, [])
    | some entry =>
      if due entry then
        let (kept, removed) := sweepLoop due fuel i (swapRemove entries i)
        (kept, entry :: removed)
      else sweepLoop due fuel (i + 1) entries

def sweepTimers (scheduler : Scheduler Coroutine) (now : Nat) : Scheduler Coroutine :=
  let (timers, due) := sweepLoop (fun entry => entry.1 ≤ now) scheduler.timers.length 0
    scheduler.timers
  { scheduler with timers := timers, ready := scheduler.ready ++ due.map (·.2) }

def sweepDeadlines (scheduler : Scheduler Coroutine) (now : Nat) : Scheduler Coroutine :=
  let (deadlines, due) := sweepLoop (fun entry => entry.1 ≤ now)
    scheduler.readinessDeadlines.length 0 scheduler.readinessDeadlines
  { scheduler with
      readinessDeadlines := deadlines
      readinessWaiters := scheduler.readinessWaiters.filter fun waiter =>
        !(due.map (·.2.1)).contains waiter.1
      ready := scheduler.ready ++ due.map (·.2.2) }

def sweepDue (scheduler : Scheduler Coroutine) (now : Nat) : Scheduler Coroutine :=
  (scheduler.sweepTimers now).sweepDeadlines now

/-- One ready token of `wait_and_wake`; a token nobody waits on is ignored. -/
def wakeToken (scheduler : Scheduler Coroutine) (token : Nat) : Scheduler Coroutine :=
  match scheduler.readinessWaiters.lookup token with
  | some id =>
    { scheduler with
        readinessWaiters := scheduler.readinessWaiters.filter (·.1 ≠ token)
        readinessDeadlines := scheduler.readinessDeadlines.filter (·.2.2 ≠ id)
        ready := scheduler.ready ++ [id] }
  | none => scheduler

def wake (scheduler : Scheduler Coroutine) (tokens : List Nat) : Scheduler Coroutine :=
  tokens.foldl wakeToken scheduler

end Scheduler

/-! ### A worker -/

/-- A worker at work.  `running` is the fiber `run_ready_queue` has moved out of the slab, `reserved`
the ids of the guards it and the parked fibers are in. -/
structure Worker (Coroutine : Type) where
  scheduler : Scheduler Coroutine
  running : Option (Nat × Coroutine)
  reserved : List Nat
  nextToken : Nat
  holders : List (Nat × Nat)

def Worker.start : Worker Coroutine where
  scheduler := .new
  running := none
  reserved := []
  nextToken := 0
  holders := []

/-- What can happen on a worker.  `register` is `register_helper_waker` and `register_readiness`:
the forces and joins of deferred cells, the stdin gate and the blocking pool take a fresh token for
every park, streams, listeners and the trap dispatcher's pipe keep theirs.  `borrow` and `unborrow`
are how a source changes hands: a listener is moved into its accept loop, a connection's stream sits
in a `RefCell`, whose second `borrow_mut` panics. -/
inductive Event (Coroutine : Type) where
  | spawn (coroutine : Coroutine)
  | resume
  | park (park : Park) (coroutine : Coroutine)
  | finish
  | reserve
  | release (id : Nat)
  | register
  | borrow (token : Nat)
  | unborrow (token : Nat)
  | wake (tokens : List Nat)
  | sweep (now : Nat)

/-- The token a park waits on. -/
def Park.token : Park → Option Nat
  | .readiness token | .readinessOrDeadline token _ => some token
  | _ => none

/-- Whether the fiber `id` reaches a park: it has the source of the token to itself. -/
def Worker.mayPark (worker : Worker Coroutine) (id : Nat) (park : Park) : Bool :=
  match park.token with
  | some token => worker.holders.lookup token == some id
  | none => true

def Worker.step (event : Event Coroutine) (worker : Worker Coroutine) :
    Option (Worker Coroutine) :=
  match event with
  | .spawn coroutine =>
    some { worker with scheduler := worker.scheduler.installFiber coroutine }
  | .resume =>
    match worker.running, worker.scheduler.popReady with
    | none, some (id, some coroutine, scheduler) =>
      some { worker with scheduler := scheduler, running := some (id, coroutine) }
    | _, _ => none
  | .park park coroutine =>
    match worker.running with
    | some (id, _) =>
      if worker.mayPark id park then
        (worker.scheduler.filePark id coroutine park).map fun scheduler =>
          { worker with scheduler := scheduler, running := none }
      else none
    | none => none
  | .finish =>
    match worker.running with
    | some (id, _) =>
      some { worker with scheduler := worker.scheduler.releaseId id, running := none }
    | none => none
  | .reserve =>
    if worker.running.isSome then
      let (id, scheduler) := worker.scheduler.reserveId
      some { worker with scheduler := scheduler, reserved := id :: worker.reserved }
    else none
  | .release id =>
    if worker.running.isSome && worker.reserved.contains id then
      some { worker with
        scheduler := worker.scheduler.releaseId id
        reserved := worker.reserved.erase id }
    else none
  | .register =>
    match worker.running with
    | some (id, _) =>
      some { worker with
        nextToken := worker.nextToken + 1
        holders := (worker.nextToken, id) :: worker.holders }
    | none => none
  | .borrow token =>
    match worker.running with
    | some (id, _) =>
      if token < worker.nextToken && (worker.holders.lookup token).isNone then
        some { worker with holders := (token, id) :: worker.holders }
      else none
    | none => none
  | .unborrow token =>
    match worker.running with
    | some (id, _) =>
      if worker.holders.lookup token = some id then
        some { worker with holders := worker.holders.filter (·.1 ≠ token) }
      else none
    | none => none
  | .wake tokens =>
    if worker.running.isNone then
      some { worker with scheduler := worker.scheduler.wake tokens }
    else none
  | .sweep now =>
    if worker.running.isNone then
      some { worker with scheduler := worker.scheduler.sweepDue now }
    else none

/-- The states a worker reaches. -/
def Worker.Reaches : Worker Coroutine → Prop :=
  Reachable Worker.step .start

end Quilon.Runtime
