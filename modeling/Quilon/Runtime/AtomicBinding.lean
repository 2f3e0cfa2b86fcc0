import Quilon.Library.Transition
import Mathlib.Data.List.Basic
import Mathlib.Logic.Function.Basic
import Mathlib.Algebra.Ring.Nat

/-!
# The lock of atomic bindings

`quilon-rt/src/atomic_binding.rs` under the workers and guards of `quilon-rt/src/scheduler.rs`: one
process-wide `LOCK`, a `DEPTH` for every worker, and the code between `__atomic_begin` and
`__atomic_end`, which is the only code that reads or writes an atomic binding.

A fiber is a stack of bodies, its own and one for each guard it is in, innermost first; `sections` is
how many sections each body has begun and not ended.  A guard abandons the bodies inside it without
running anything on their stacks.  `accesses` is not in the code: what the fiber has read and written
since its outermost section began.
-/

namespace Quilon.Runtime

variable {Value : Type}

inductive Access (Value : Type) where
  | read (binding : Nat) (value : Value)
  | write (binding : Nat) (value : Value)

/-- A fiber with the open sections of its bodies. -/
structure Strand (Value : Type) where
  sections : List Nat
  accesses : List (Access Value)

/-- The sections a fiber has open. -/
def Strand.open (strand : Strand Value) : Nat :=
  strand.sections.sum

/-- A worker: the fiber that runs, those that are parked, and its `DEPTH`. -/
structure Multiplexer (Value : Type) where
  running : Option (Strand Value)
  parked : List (Strand Value)
  depth : Nat

/-- `completed` has the accesses of every outermost section that has ended, in the order they
ended. -/
structure Bindings (Value : Type) where
  workers : Nat → Multiplexer Value
  lock : Bool
  memory : Nat → Value
  completed : List (List (Access Value))

def Bindings.start (memory : Nat → Value) : Bindings Value where
  workers _ := { running := none, parked := [], depth := 0 }
  lock := false
  memory := memory
  completed := []

inductive SectionEvent (Value : Type) where
  /-- a new fiber, or a parked one, runs -/
  | start
  | resume (index : Nat)
  | beginSection
  | endSection
  | read (binding : Nat)
  | write (binding : Nat) (value : Value)
  | enterGuard
  | leaveGuard
  /-- a guard ends the `bodies` bodies inside it -/
  | abandon (bodies : Nat)
  | park
  | finish

namespace Bindings

def setWorker (system : Bindings Value) (index : Nat) (worker : Multiplexer Value) :
    Bindings Value :=
  { system with workers := Function.update system.workers index worker }

/-- The running fiber goes on as `strand`. -/
def setRunning (system : Bindings Value) (index : Nat) (strand : Strand Value) : Bindings Value :=
  system.setWorker index { system.workers index with running := some strand }

/-- `__atomic_begin`; there is no step while another worker has the lock and this one spins. -/
def beginSection (system : Bindings Value) (index : Nat) (strand : Strand Value) :
    Option (Bindings Value) :=
  let worker := system.workers index
  match strand.sections with
  | own :: outer =>
    let entered := { strand with sections := (own + 1) :: outer }
    if worker.depth = 0 then
      if system.lock then none
      else
        some { system.setWorker index { worker with running := some entered, depth := 1 } with
          lock := true }
    else
      some (system.setWorker index
        { worker with running := some entered, depth := worker.depth + 1 })
  | [] => none

/-- `__atomic_end`, of a section this body has begun. -/
def endSection (system : Bindings Value) (index : Nat) (strand : Strand Value) :
    Option (Bindings Value) :=
  let worker := system.workers index
  match strand.sections with
  | (own + 1) :: outer =>
    let left := { strand with sections := own :: outer }
    let next := worker.depth - 1
    let released := if next = 0 then false else system.lock
    if left.open = 0 then
      some { system.setWorker index
          { worker with running := some { left with accesses := [] }, depth := next } with
        lock := released
        completed := system.completed ++ [strand.accesses] }
    else
      some { system.setWorker index { worker with running := some left, depth := next } with
        lock := released }
  | _ => none

/-- The step of the fiber a worker runs. -/
def stepStrand (index : Nat) (strand : Strand Value) (event : SectionEvent Value)
    (system : Bindings Value) : Option (Bindings Value) :=
  let worker := system.workers index
  match event with
  | .beginSection => system.beginSection index strand
  | .endSection => system.endSection index strand
  | .read binding =>
    if 0 < strand.open then
      some (system.setRunning index { strand with
        accesses := strand.accesses ++ [.read binding (system.memory binding)] })
    else none
  | .write binding value =>
    if 0 < strand.open then
      some { system.setRunning index { strand with
          accesses := strand.accesses ++ [.write binding value] } with
        memory := Function.update system.memory binding value }
    else none
  | .enterGuard =>
    some (system.setRunning index { strand with sections := 0 :: strand.sections })
  | .leaveGuard =>
    match strand.sections with
    | _ :: outer :: rest =>
      some (system.setRunning index { strand with sections := outer :: rest })
    | _ => none
  | .abandon bodies =>
    -- the fiber's own body is in no guard
    if bodies < strand.sections.length then
      some (system.setRunning index { strand with sections := strand.sections.drop bodies })
    else none
  | .park =>
    some (system.setWorker index
      { worker with running := none, parked := strand :: worker.parked })
  | .finish => some (system.setWorker index { worker with running := none })
  | .start | .resume _ => none

def step (move : Nat × SectionEvent Value) (system : Bindings Value) : Option (Bindings Value) :=
  let (index, event) := move
  let worker := system.workers index
  match worker.running, event with
  | some strand, event => stepStrand index strand event system
  | none, .start =>
    some (system.setRunning index { sections := [0], accesses := [] })
  | none, .resume position =>
    worker.parked[position]?.map fun strand =>
      system.setWorker index
        { worker with running := some strand, parked := worker.parked.eraseIdx position }
  | none, _ => none

def Reaches (memory : Nat → Value) : Bindings Value → Prop :=
  Reachable step (.start memory)

end Bindings

end Quilon.Runtime
