import Quilon.Library.Transition
import Mathlib.Data.List.Basic
import Mathlib.Logic.Function.Basic

/-!
# Reading lines from stdin

`quilon-rt/src/deferred.rs`: `__read_launch`, which takes a ticket and has its producer placed on
some worker, and the producer, which waits for its ticket at `STDIN_GATE`, reads a line and lets the
next one in.

One step is what runs under the gate's lock, one `read` of the descriptor, or a turn of a worker's
loop; `release_stdin` holds the lock from the count of `serving` to the last waiter it wakes.  The
wake of a waiter on another worker may come before its fiber has parked: the worker's loop takes the
completed tokens only when no fiber runs, and drops those that no fiber is parked on.  A waiter's
token is the place of its producer in `producers`, for it waits under one at a time.

The descriptor may give any number of bytes up to the chunk's size, would block at any time, and is
at its end when all the `input` is read; it does not fail.
-/

namespace Quilon.Runtime

namespace Stdin

/-- `b'\n'` -/
def newline : UInt8 := 10

/-- `b'\r'` -/
def carriageReturn : UInt8 := 13

/-- The size of the chunk that `read_line_from` reads into. -/
def chunkSize : Nat := 1024

/-- Where a producer is between `acquire_stdin` and the end of `release_stdin`. -/
inductive Stage where
  | entered
  /-- `leftover` is taken, and may have a whole line -/
  | scanning (buffer : List UInt8)
  | reading (buffer : List UInt8)
  /-- parked until the descriptor is ready -/
  | blocked (buffer : List UInt8)
  /-- the line is read, and what follows it goes back to `leftover` -/
  | storing (buffer line : List UInt8)
  | releasing (line : List UInt8)
  /-- `serving` is counted, and the lock is held -/
  | waking (line : List UInt8)
deriving DecidableEq

/-- Where a producer is. -/
inductive Phase where
  /-- its ticket is taken -/
  | unplaced
  /-- in the inbox or the ready queue of its worker -/
  | queued
  /-- it has registered with the gate, and has still to park -/
  | registered
  | parked
  | inside (stage : Stage)
  | yielded (line : List UInt8)
deriving DecidableEq

structure Producer where
  ticket : Nat
  worker : Nat
  phase : Phase

/-- Whether its worker runs the producer, and so no other fiber. -/
def Phase.running : Phase → Bool
  | .unplaced | .queued | .parked | .yielded _ | .inside (.blocked _) => false
  | .registered | .inside _ => true

/-- `StdinGate` -/
structure Gate where
  nextTicket : Nat
  serving : Nat
  leftover : List UInt8
  waiters : List Nat
  locked : Bool

/-- What `read` returns. -/
inductive ReadResult where
  | bytes (count : Nat)
  | wouldBlock
  | interrupted
deriving DecidableEq

/-- `take_line`: the line, and what is left in the buffer. -/
def takeLine (buffer : List UInt8) : Option (List UInt8 × List UInt8) :=
  match buffer.idxOf? newline with
  | none => none
  | some index =>
    let line := (buffer.take (index + 1)).dropLast
    let line := if line.getLast? = some carriageReturn then line.dropLast else line
    some (line, buffer.drop (index + 1))

inductive Event where
  /-- `take_stdin_ticket` -/
  | launch
  /-- `launch_deferred_text` -/
  | place (producer worker : Nat)
  /-- a turn of the loop in `acquire_stdin` -/
  | check (producer : Nat)
  | park (producer : Nat)
  /-- a worker's loop takes the completed tokens -/
  | collect (worker : Nat)
  /-- the next step of a producer that reads nothing -/
  | advance (producer : Nat)
  | read (producer : Nat) (result : ReadResult)
  /-- the descriptor is reported ready -/
  | ready (producer : Nat)
deriving DecidableEq

end Stdin

structure Stdin where
  /-- what the descriptor has still to give -/
  input : List UInt8
  gate : Stdin.Gate
  /-- the completed tokens of each worker -/
  completed : Nat → List Nat
  producers : List Stdin.Producer

namespace Stdin

def start (stream : List UInt8) : Stdin where
  input := stream
  gate := { nextTicket := 0, serving := 0, leftover := [], waiters := [], locked := false }
  completed _ := []
  producers := []

/-- Whether the worker runs no producer. -/
def idle (stdin : Stdin) (worker : Nat) : Bool :=
  stdin.producers.all fun producer => producer.worker ≠ worker || !producer.phase.running

def setPhase (stdin : Stdin) (index : Nat) (producer : Producer) (phase : Phase) : Stdin :=
  { stdin with producers := stdin.producers.set index { producer with phase := phase } }

/-- `take_stdin_ticket`, for a producer that is built next. -/
def launch (stdin : Stdin) : Option Stdin :=
  if stdin.gate.locked then none
  else
    let ticket := stdin.gate.nextTicket
    some { stdin with
      gate := { stdin.gate with nextTicket := ticket + 1 }
      producers := stdin.producers ++ [{ ticket := ticket, worker := 0, phase := .unplaced }] }

/-- A turn of the loop in `acquire_stdin`. -/
def check (index : Nat) (producer : Producer) (stdin : Stdin) : Option Stdin :=
  if producer.phase = .queued ∧ stdin.idle producer.worker ∧ ¬stdin.gate.locked then
    if stdin.gate.serving = producer.ticket then
      some (stdin.setPhase index producer (.inside .entered))
    else
      some { stdin.setPhase index producer .registered with
        gate := { stdin.gate with waiters := stdin.gate.waiters ++ [index] } }
  else none

/-- `collect` of the worker's loop: a parked producer is ready again, any other token is dropped. -/
def collect (worker : Nat) (stdin : Stdin) : Option Stdin :=
  if stdin.idle worker ∧ stdin.completed worker ≠ [] then
    some { stdin with
      producers := stdin.producers.mapIdx fun index producer =>
        if index ∈ stdin.completed worker ∧ producer.phase = .parked then
          { producer with phase := .queued }
        else producer
      completed := Function.update stdin.completed worker [] }
  else none

/-- The steps of `read_stdin_line`, `read_line_from` and `release_stdin` but for the reads. -/
def advance (index : Nat) (producer : Producer) (stage : Stage) (stdin : Stdin) : Option Stdin :=
  match stage with
  | .entered =>
    if stdin.gate.locked then none
    else
      some { stdin.setPhase index producer (.inside (.scanning stdin.gate.leftover)) with
        gate := { stdin.gate with leftover := [] } }
  | .scanning buffer =>
    match takeLine buffer with
    | some (line, buffer) => some (stdin.setPhase index producer (.inside (.storing buffer line)))
    | none => some (stdin.setPhase index producer (.inside (.reading buffer)))
  | .storing buffer line =>
    if stdin.gate.locked then none
    else
      some { stdin.setPhase index producer (.inside (.releasing line)) with
        gate := { stdin.gate with leftover := buffer } }
  | .releasing line =>
    if stdin.gate.locked then none
    else
      some { stdin.setPhase index producer (.inside (.waking line)) with
        gate := { stdin.gate with serving := stdin.gate.serving + 1, locked := true } }
  | .waking line =>
    match stdin.gate.waiters with
    | waiter :: waiters =>
      match stdin.producers[waiter]? with
      | some woken =>
        some { stdin with
          gate := { stdin.gate with waiters := waiters }
          completed := Function.update stdin.completed woken.worker
            (stdin.completed woken.worker ++ [waiter]) }
      | none => none
    | [] =>
      some { stdin.setPhase index producer (.yielded line) with
        gate := { stdin.gate with locked := false } }
  | .reading _ | .blocked _ => none

/-- One `read` in `read_once`, and what `read_line_from` makes of it. -/
def read (index : Nat) (producer : Producer) (buffer : List UInt8) (result : ReadResult)
    (stdin : Stdin) : Option Stdin :=
  match result with
  | .wouldBlock => some (stdin.setPhase index producer (.inside (.blocked buffer)))
  | .interrupted => some stdin
  | .bytes 0 =>
    if stdin.input = [] then
      some (stdin.setPhase index producer (.inside (.storing [] buffer)))
    else none
  | .bytes count =>
    if count ≤ chunkSize ∧ count ≤ stdin.input.length then
      let extended := buffer ++ stdin.input.take count
      let stage := match takeLine extended with
        | some (line, buffer) => Stage.storing buffer line
        | none => .reading extended
      some { stdin.setPhase index producer (.inside stage) with input := stdin.input.drop count }
    else none

/-- The step of the producer at `index`. -/
def stepProducer (event : Event) (index : Nat) (producer : Producer) (stdin : Stdin) :
    Option Stdin :=
  match event, producer.phase with
  | .place _ worker, .unplaced =>
    some (stdin.setPhase index { producer with worker := worker } .queued)
  | .check _, _ => stdin.check index producer
  | .park _, .registered => some (stdin.setPhase index producer .parked)
  | .advance _, .inside stage => stdin.advance index producer stage
  | .read _ result, .inside (.reading buffer) => stdin.read index producer buffer result
  | .ready _, .inside (.blocked buffer) =>
    if stdin.idle producer.worker then
      some (stdin.setPhase index producer (.inside (.reading buffer)))
    else none
  | _, _ => none

def step (event : Event) (stdin : Stdin) : Option Stdin :=
  match event with
  | .launch => stdin.launch
  | .collect worker => stdin.collect worker
  | .place index _ | .check index | .park index | .advance index | .read index _ | .ready index =>
    match stdin.producers[index]? with
    | some producer => stdin.stepProducer event index producer
    | none => none

def Reaches (stream : List UInt8) : Stdin → Prop :=
  Reachable step (start stream)

end Stdin

end Quilon.Runtime
