import Quilon.Runtime.Scheduler

/-!
# Placing fibers on workers

`quilon-rt/src/placement.rs` under the loops of `quilon-rt/src/scheduler.rs`: the registry of one
run, the start of the helpers, a placement from its first look at the queues to the wake of its
target, and the turns the leader and the helpers take.

A step is what a thread does at one access to what the threads share: one load, one `fetch_add`, the
work under one lock, one wake.  A worker's own scheduler is seen by its thread alone, and moves in
one step with the store that publishes its length.  A wake is kept by the reactor until a poll
returns, and a poll may return at any time, with any tokens.

A job is the fiber it installs; its ticket tells placements apart, and with the two logs of a worker
it is not in the code.  Left out are the attempts to spawn a thread that failed, and the handles
that join the threads.
-/

namespace Quilon.Runtime.Placement

variable {Coroutine : Type}

structure Job (Coroutine : Type) where
  ticket : Nat
  coroutine : Coroutine
deriving DecidableEq

structure WorkerHandle (Coroutine : Type) where
  readyLen : Nat
  inboxLen : Nat
  inbox : List (Job Coroutine)
  /-- the waker fired, and no poll has returned since -/
  woken : Bool
deriving DecidableEq

def WorkerHandle.new : WorkerHandle Coroutine where
  readyLen := 0
  inboxLen := 0
  inbox := []
  woken := false

/-- A `OnceLock<()>`, with the thread that fills it on its way. -/
inductive Once where
  | unset
  | running
  | set
deriving DecidableEq

/-- Where the thread of a worker is. -/
inductive Stage (Coroutine : Type) where
  /-- no thread yet -/
  | unstarted
  | starting
  | published
  /-- at the barrier -/
  | arrived
  | draining
  /-- the inbox is taken, its length not yet -/
  | drained (jobs : List (Job Coroutine))
  | installing (jobs : List (Job Coroutine))
  /-- in `run_ready_queue` -/
  | resuming
  /-- a fiber is in `spawn_placed`, from here to `queued` -/
  | ensuring (job : Job Coroutine)
  | launching (job : Job Coroutine)
  | choosing (job : Job Coroutine) (lens : List Nat) (readyLen : Option Nat)
  | placing (job : Job Coroutine) (target : Nat)
  | counted (job : Job Coroutine) (target : Nat)
  | queued (target : Nat)
  /-- in the poll, under what `idle_wait_plan` said -/
  | waiting (plan : Option (Option Nat))
  | polled (tokens : List Nat)
  | sweeping
  /-- the leader is out of its loop, and in `request_shutdown` from the next on -/
  | leaving
  | shuttingDown (next : Nat)
  | stopped
  /-- `handle` was asked for a slot nobody had published -/
  | panicked
deriving DecidableEq

structure Pool (Coroutine : Type) where
  /-- `workers` of the registry -/
  slots : Nat → Option (WorkerHandle Coroutine)
  shutdown : Bool
  helpersStarted : Once
  /-- how many wait, or waited, at the barrier -/
  arrivals : Nat
  stages : Nat → Stage Coroutine
  workers : Nat → Worker Coroutine
  backgroundTokens : Nat → List Nat
  tickets : Nat
  queuedOn : Nat → List (Job Coroutine)
  installedOn : Nat → List (Job Coroutine)

inductive Action (Coroutine : Type) where
  /-- a fiber at work, or `run_ready_queue` between two of them -/
  | work (worker : Nat) (event : Event Coroutine)
  | markBackground (worker token : Nat)
  | spawnPlaced (worker : Nat) (coroutine : Coroutine)
  | plan (worker : Nat)
  /-- the next access of a thread that has no choice -/
  | advance (worker : Nat)
  | poll (worker : Nat) (tokens : List Nat)
  | sweep (worker now : Nat)

/-! ### Choosing a worker -/

/-- `Iterator::min` of pairs: the first of the least. -/
def minPair : List (Nat × Nat) → Option (Nat × Nat)
  | [] => none
  | pair :: pairs =>
    match minPair pairs with
    | some least =>
      if least.1 < pair.1 ∨ (least.1 = pair.1 ∧ least.2 < pair.2) then some least else some pair
    | none => some pair

/-- `shortest_queue`, of the lengths it read. -/
def shortestQueue (lens : List Nat) : Option Nat :=
  (minPair lens.zipIdx).map (·.2)

/-! ### What an idle worker waits for -/

/-- `None` when nothing is parked; otherwise the deadline of the next poll, if there is one. -/
def idleWaitPlan (scheduler : Scheduler Coroutine) (backgroundTokens : List Nat) :
    Option (Option Nat) :=
  let nextDeadline :=
    (scheduler.timers.map (·.1) ++ scheduler.readinessDeadlines.map (·.1)).min?
  let readinessParked := scheduler.readinessWaiters.any fun waiter =>
    !backgroundTokens.contains waiter.1
  match nextDeadline, readinessParked with
  | none, false => none
  | some deadline, _ => some (some deadline)
  | none, true => some none

/-! ### Steps -/

namespace Pool

def setStage (pool : Pool Coroutine) (worker : Nat) (stage : Stage Coroutine) :
    Pool Coroutine :=
  { pool with stages := Function.update pool.stages worker stage }

def setHandle (pool : Pool Coroutine) (index : Nat) (handle : WorkerHandle Coroutine) :
    Pool Coroutine :=
  { pool with slots := Function.update pool.slots index (some handle) }

def setWorker (pool : Pool Coroutine) (index : Nat) (worker : Worker Coroutine) :
    Pool Coroutine :=
  { pool with workers := Function.update pool.workers index worker }

/-- The thread of `worker` at the handle of `index`, whose `expect` panics on an empty slot. -/
def withHandle (pool : Pool Coroutine) (worker index : Nat)
    (access : WorkerHandle Coroutine → Pool Coroutine) : Pool Coroutine :=
  match pool.slots index with
  | some handle => access handle
  | none => pool.setStage worker .panicked

/-- A worker's own scheduler moves, and `sync_ready_len` publishes the length of its queue. -/
def moveTo (pool : Pool Coroutine) (index : Nat) (worker : Worker Coroutine)
    (stage : Stage Coroutine) : Pool Coroutine :=
  pool.withHandle index index fun handle =>
    ((pool.setWorker index worker).setHandle index
      { handle with readyLen := worker.scheduler.ready.length }).setStage index stage

/-- `publish`, which keeps what a slot has, and `worker::install`. -/
def publish (pool : Pool Coroutine) (index : Nat) : Pool Coroutine :=
  (match pool.slots index with
    | some _ => pool
    | none => pool.setHandle index .new).setWorker index .start

/-- The closure of `ensure_helpers_started`: a thread for every helper, then the barrier. -/
def startHelpers (pool : Pool Coroutine) (count worker : Nat) (job : Job Coroutine) :
    Pool Coroutine :=
  { pool with
      helpersStarted := .running
      arrivals := pool.arrivals + 1
      stages := Function.update
        (fun index => if 0 < index ∧ index < count then .starting else pool.stages index)
        worker (.launching job) }

/-- What a thread does next where it has no choice; `none` while it is blocked. -/
def advance (count : Nat) (pool : Pool Coroutine) (worker : Nat) : Option (Pool Coroutine) :=
  match pool.stages worker with
  | .starting => some ((pool.publish worker).setStage worker .published)
  | .published =>
    some ({ pool with arrivals := pool.arrivals + 1 }.setStage worker .arrived)
  | .arrived => if count ≤ pool.arrivals then some (pool.setStage worker .draining) else none
  | .draining =>
    some (pool.withHandle worker worker fun handle =>
      (pool.setHandle worker { handle with inbox := [] }).setStage worker (.drained handle.inbox))
  | .drained jobs =>
    some (pool.withHandle worker worker fun handle =>
      (pool.setHandle worker { handle with inboxLen := handle.inboxLen - jobs.length }).setStage
        worker (.installing jobs))
  | .installing [] => some (pool.setStage worker .resuming)
  | .installing (job :: jobs) =>
    ((pool.workers worker).step (.spawn job.coroutine)).map fun installed =>
      { pool with
          installedOn := Function.update pool.installedOn worker
            (pool.installedOn worker ++ [job]) }.moveTo worker installed (.installing jobs)
  | .ensuring job =>
    if count ≤ 1 then some (pool.setStage worker (.choosing job [] none))
    else
      match pool.helpersStarted with
      | .unset => some (pool.startHelpers count worker job)
      | .running => none
      | .set => some (pool.setStage worker (.choosing job [] none))
  | .launching job =>
    if count ≤ pool.arrivals then
      some ({ pool with helpersStarted := .set }.setStage worker (.choosing job [] none))
    else none
  | .choosing job lens none =>
    if lens.length < count then
      some (pool.withHandle worker lens.length fun handle =>
        pool.setStage worker (.choosing job lens (some handle.readyLen)))
    else (shortestQueue lens).map fun target => pool.setStage worker (.placing job target)
  | .choosing job lens (some readyLen) =>
    some (pool.withHandle worker lens.length fun handle =>
      pool.setStage worker (.choosing job (lens ++ [readyLen + handle.inboxLen]) none))
  | .placing job target =>
    some (pool.withHandle worker target fun handle =>
      (pool.setHandle target { handle with inboxLen := handle.inboxLen + 1 }).setStage worker
        (.counted job target))
  | .counted job target =>
    some (pool.withHandle worker target fun handle =>
      ({ pool with
          queuedOn := Function.update pool.queuedOn target (pool.queuedOn target ++ [job]) }
        |>.setHandle target { handle with inbox := handle.inbox ++ [job] }).setStage worker
          (.queued target))
  | .queued target =>
    some (pool.withHandle worker target fun handle =>
      (pool.setHandle target { handle with woken := true }).setStage worker .resuming)
  | .polled tokens =>
    ((pool.workers worker).step (.wake tokens)).map fun woken =>
      pool.moveTo worker woken .sweeping
  | .leaving => some ({ pool with shutdown := true }.setStage worker (.shuttingDown 0))
  | .shuttingDown next =>
    if next < count then
      match pool.slots next with
      | some handle =>
        some ((pool.setHandle next { handle with woken := true }).setStage worker
          (.shuttingDown (next + 1)))
      | none => some (pool.setStage worker (.shuttingDown (next + 1)))
    else some (pool.setStage worker .stopped)
  | .unstarted | .resuming | .waiting _ | .sweeping | .stopped | .panicked => none

/-- What `run_ready_queue` and the fibers it resumes do to the scheduler: it pops a fiber when none
runs, and the rest is done by one that does. -/
def atWork (worker : Worker Coroutine) : Event Coroutine → Bool
  | .resume => true
  | .wake _ | .sweep _ => false
  | _ => worker.running.isSome

/-- What a worker does once its queue is empty: the leader leaves when nothing is parked, and a
helper once it is asked to. -/
def planned (pool : Pool Coroutine) (worker : Nat) : Stage Coroutine :=
  match idleWaitPlan (pool.workers worker).scheduler (pool.backgroundTokens worker) with
  | some timeout => .waiting (some timeout)
  | none =>
    if worker = 0 then .leaving
    else if pool.shutdown then .stopped
    else .waiting none

def step (count : Nat) (action : Action Coroutine) (pool : Pool Coroutine) :
    Option (Pool Coroutine) :=
  match action with
  | .advance worker => pool.advance count worker
  | .work worker event =>
    match pool.stages worker with
    | .resuming =>
      if atWork (pool.workers worker) event then
        ((pool.workers worker).step event).map fun moved => pool.moveTo worker moved .resuming
      else none
    | _ => none
  | .markBackground worker token =>
    match pool.stages worker with
    | .resuming =>
      if (pool.workers worker).running.isSome then
        some { pool with
          backgroundTokens := Function.update pool.backgroundTokens worker
            (token :: pool.backgroundTokens worker) }
      else none
    | _ => none
  | .spawnPlaced worker coroutine =>
    match pool.stages worker with
    | .resuming =>
      if (pool.workers worker).running.isSome then
        some ({ pool with tickets := pool.tickets + 1 }.setStage worker
          (.ensuring ⟨pool.tickets, coroutine⟩))
      else none
    | _ => none
  | .plan worker =>
    match pool.stages worker with
    | .resuming =>
      if (pool.workers worker).running.isNone && (pool.workers worker).scheduler.ready.isEmpty then
        some (pool.setStage worker (pool.planned worker))
      else none
    | _ => none
  | .poll worker tokens =>
    match pool.stages worker with
    | .waiting _ =>
      some (pool.withHandle worker worker fun handle =>
        (pool.setHandle worker { handle with woken := false }).setStage worker (.polled tokens))
    | _ => none
  | .sweep worker now =>
    match pool.stages worker with
    | .sweeping =>
      ((pool.workers worker).step (.sweep now)).map fun swept => pool.moveTo worker swept .draining
    | _ => none

/-- The leader has published itself, and `main` is its first fiber. -/
def start (main : Coroutine) : Pool Coroutine where
  slots := Function.update (fun _ => none) 0 (some { WorkerHandle.new with readyLen := 1 })
  shutdown := false
  helpersStarted := .unset
  arrivals := 0
  stages := Function.update (fun _ => .unstarted) 0 .draining
  workers := Function.update (fun _ => .start) 0
    { Worker.start with scheduler := Scheduler.new.installFiber main }
  backgroundTokens := fun _ => []
  tickets := 0
  queuedOn := fun _ => []
  installedOn := fun _ => []

/-- The states a run with `count` workers reaches. -/
def Reaches (count : Nat) (main : Coroutine) : Pool Coroutine → Prop :=
  Reachable (step count) (start main)

end Pool

end Quilon.Runtime.Placement
