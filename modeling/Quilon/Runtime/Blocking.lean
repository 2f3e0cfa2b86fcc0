import Quilon.Library.Transition
import Mathlib.Data.List.Basic

/-!
# The pool for blocking calls

`quilon-rt/src/blocking.rs`: `submit`, which any worker of the scheduler calls, and the threads of
the pool, each of them in `run_worker`.  One step is what is done under one lock, or the creation of
a thread; the threads and the calls of `submit` interleave in any order.

A job is the number of the call of `submit` that brought it.  `submissions` has every such call, and
`started` the jobs that were run, in the order they were taken; neither is in the code, nor is
`refused`, whether the creation of a thread has been refused.  The pool starts with its base
threads, since no job is submitted before `start_blocking_pool` has returned it.
-/

namespace Quilon.Runtime

namespace BlockingPool

/-- `BLOCKING_POOL_BASE_MINIMUM` -/
def baseMinimum : Nat := 4

/-- `BLOCKING_POOL_CEILING` -/
def ceiling : Nat := 16

/-- Where a thread is in `run_worker`. -/
inductive Stage where
  /-- about to lock the queue -/
  | looking
  /-- a base thread in `Condvar::wait` -/
  | waiting
  | running (job : Nat)
  /-- the job has returned and is counted in flight -/
  | finished
  /-- an overflow thread that found the queue empty, and is counted -/
  | exiting
  | gone
deriving DecidableEq

structure Thread where
  isBase : Bool
  stage : Stage

/-- Where a call of `submit` is. -/
inductive Submitting where
  /-- its job is counted and not yet in the queue -/
  | counted
  /-- its job is in the queue, and no thread is notified of it -/
  | pushed
  | notified
  /-- its overflow thread was refused, and is counted -/
  | refused
  | returned
deriving DecidableEq

/-- A call of `submit`, which decided whether to `grow` the pool. -/
structure Submission where
  grow : Bool
  stage : Submitting

end BlockingPool

open BlockingPool in
structure BlockingPool where
  totalThreads : Nat
  inFlight : Nat
  queue : List Nat
  threads : List Thread
  submissions : List Submission
  started : List Nat
  refused : Bool

namespace BlockingPool

def empty : BlockingPool where
  totalThreads := 0
  inFlight := 0
  queue := []
  threads := []
  submissions := []
  started := []
  refused := false

/-- `blocking_pool_base_size` -/
def baseSize (cpuCount : Nat) : Nat :=
  max baseMinimum (min cpuCount ceiling)

/-- `spawn_base_worker`, where the thread is not refused. -/
def spawnBaseWorker (pool : BlockingPool) : BlockingPool :=
  { pool with
    threads := pool.threads ++ [{ isBase := true, stage := .looking }]
    totalThreads := pool.totalThreads + 1 }

/-- `start_blocking_pool` -/
def startBlockingPool : Nat → BlockingPool
  | 0 => empty
  | baseSize + 1 => (startBlockingPool baseSize).spawnBaseWorker

/-- `blocking_pool` -/
def start (cpuCount : Nat) : BlockingPool :=
  startBlockingPool (baseSize cpuCount)

inductive Event where
  /-- `submit` counts its job and decides whether to grow -/
  | submit
  | push (submission : Nat)
  /-- `notify_one`, and the thread that it wakes if any waits -/
  | notify (submission : Nat) (woken : Option Nat)
  | spawn (submission : Nat)
  | refuse (submission : Nat)
  /-- a refused thread is uncounted -/
  | undo (submission : Nat)
  /-- `pop_blocking` or `pop_nonblocking` -/
  | look (thread : Nat)
  /-- a wait that ends by itself -/
  | wake (thread : Nat)
  /-- the job returns -/
  | finish (thread : Nat)
  /-- the job is counted no longer -/
  | uncount (thread : Nat)
  | exit (thread : Nat)

def setThread (pool : BlockingPool) (index : Nat) (thread : Thread) : BlockingPool :=
  { pool with threads := pool.threads.set index thread }

def setSubmission (pool : BlockingPool) (index : Nat) (submission : Submission) : BlockingPool :=
  { pool with submissions := pool.submissions.set index submission }

/-- The part of `submit` under the lock of the state. -/
def submit (pool : BlockingPool) : BlockingPool :=
  let inFlight := pool.inFlight + 1
  let grow := decide (inFlight > pool.totalThreads ∧ pool.totalThreads < ceiling)
  { pool with
    inFlight := inFlight
    totalThreads := if grow then pool.totalThreads + 1 else pool.totalThreads
    submissions := pool.submissions ++ [{ grow := grow, stage := .counted }] }

/-- The part of `submit` after it, for the call `index`. -/
def stepSubmission (event : Event) (index : Nat) (submission : Submission) (pool : BlockingPool) :
    Option BlockingPool :=
  match event, submission.stage with
  | .push _, .counted =>
    some { pool.setSubmission index { submission with stage := .pushed } with
      queue := pool.queue ++ [index] }
  | .notify _ woken, .pushed =>
    let next := if submission.grow then Submitting.notified else .returned
    let notified := pool.setSubmission index { submission with stage := next }
    match woken with
    | some woken =>
      match pool.threads[woken]? with
      | some thread =>
        if thread.stage = .waiting then
          some (notified.setThread woken { thread with stage := .looking })
        else none
      | none => none
    | none =>
      if pool.threads.any fun thread => thread.stage = .waiting then none else some notified
  | .spawn _, .notified =>
    some { pool.setSubmission index { submission with stage := .returned } with
      threads := pool.threads ++ [{ isBase := false, stage := .looking }] }
  | .refuse _, .notified =>
    some { pool.setSubmission index { submission with stage := .refused } with refused := true }
  | .undo _, .refused =>
    some { pool.setSubmission index { submission with stage := .returned } with
      totalThreads := pool.totalThreads - 1 }
  | _, _ => none

/-- `run_worker` of the thread `index`. -/
def stepThread (event : Event) (index : Nat) (thread : Thread) (pool : BlockingPool) :
    Option BlockingPool :=
  match event, thread.stage with
  | .look _, .looking =>
    match pool.queue with
    | job :: queue =>
      some { pool.setThread index { thread with stage := .running job } with
        queue := queue
        started := pool.started ++ [job] }
    | [] =>
      let next := if thread.isBase then Stage.waiting else .exiting
      some (pool.setThread index { thread with stage := next })
  | .wake _, .waiting => some (pool.setThread index { thread with stage := .looking })
  | .finish _, .running _ => some (pool.setThread index { thread with stage := .finished })
  | .uncount _, .finished =>
    some { pool.setThread index { thread with stage := .looking } with
      inFlight := pool.inFlight - 1 }
  | .exit _, .exiting =>
    some { pool.setThread index { thread with stage := .gone } with
      totalThreads := pool.totalThreads - 1 }
  | _, _ => none

def step (event : Event) (pool : BlockingPool) : Option BlockingPool :=
  match event with
  | .submit => some pool.submit
  | .push index | .notify index _ | .spawn index | .refuse index | .undo index =>
    match pool.submissions[index]? with
    | some submission => pool.stepSubmission event index submission
    | none => none
  | .look index | .wake index | .finish index | .uncount index | .exit index =>
    match pool.threads[index]? with
    | some thread => pool.stepThread event index thread
    | none => none

def Reaches (cpuCount : Nat) : BlockingPool → Prop :=
  Reachable step (start cpuCount)

end BlockingPool

end Quilon.Runtime
