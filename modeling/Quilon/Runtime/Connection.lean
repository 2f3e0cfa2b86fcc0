import Quilon.Library.Transition
import Mathlib.Data.List.Basic

/-!
# The operations on one connection

`quilon-rt/src/net/server.rs`: `Connection.@read()`, `@read(seconds)`, `@write` and `close()`, and the
close that follows the handler, on the worker that owns the connection.

A read is launched onto a fiber of its own, at the end of the worker's ready queue; a write runs on
the fiber that calls it.  Either takes `stream.borrow_mut()` for the whole of its duration.  Where the
socket would block, its fiber parks on the connection's token with the borrow held, until the token
or the deadline wakes it.  In between, the worker runs other fibers, and up to its next park a fiber
runs alone: what an operation does up to there is one step.
-/

namespace Quilon.Runtime

namespace ConnectionState

/-- The size of the buffer of one read. -/
def bufferSize : Nat := 4096

inductive Kind where
  | read
  | timedRead
  | write
deriving DecidableEq

inductive Progress where
  /-- its fiber is in the ready queue and has not run -/
  | launched
  /-- on the connection's token, with the stream borrowed -/
  | parked
  | woken
  /-- a read gives the text -/
  | done (text : List UInt8)
deriving DecidableEq

structure Operation where
  kind : Kind
  progress : Progress

/-- What the stream gives when an operation uses it. -/
inductive Outcome where
  | bytes (count : Nat)
  /-- a read is at the end or has failed, a write has sent all its bytes or failed -/
  | finished
  | timedOut
  | wouldBlock
deriving DecidableEq

inductive Event where
  /-- bytes come from the peer -/
  | arrive (bytes : List UInt8)
  /-- `__connection_read_launch`, or the one with a timeout -/
  | launch (timed : Bool)
  /-- the next fiber of the ready queue runs to its next park -/
  | turn (outcome : Outcome)
  /-- `__connection_write`, to its first park -/
  | write (outcome : Outcome)
  /-- `close_connection` -/
  | close
  /-- the token is ready, or the deadline has passed -/
  | wake (index : Nat)
deriving DecidableEq

end ConnectionState

/-- `ConnectionState`, with what the socket has received and the operations in the order of their
calls. -/
structure ConnectionState where
  /-- it is in the worker's table, and the stream is in its cell -/
  isOpen : Bool
  arrived : List UInt8
  unread : List UInt8
  /-- the operation that has parked with the stream borrowed -/
  borrowed : Option Nat
  operations : List ConnectionState.Operation
  ready : List Nat
  /-- `borrow_mut` has found the stream borrowed, and panicked -/
  aborted : Bool

namespace ConnectionState

def start : ConnectionState where
  isOpen := true
  arrived := []
  unread := []
  borrowed := none
  operations := []
  ready := []
  aborted := false

def setProgress (connection : ConnectionState) (index : Nat) (operation : Operation)
    (progress : Progress) : ConnectionState :=
  { connection with
    operations := connection.operations.set index { operation with progress := progress } }

/-- An operation that has the stream uses it up to its end or its next park. -/
def use (index : Nat) (operation : Operation) (outcome : Outcome) (connection : ConnectionState) :
    Option ConnectionState :=
  match outcome, operation.kind with
  | .wouldBlock, _ =>
    some { connection.setProgress index operation .parked with borrowed := some index }
  | .finished, _ | .timedOut, .timedRead =>
    some { connection.setProgress index operation (.done []) with borrowed := none }
  | .bytes count, .read | .bytes count, .timedRead =>
    if 0 < count ∧ count ≤ bufferSize ∧ count ≤ connection.unread.length then
      some { connection.setProgress index operation (.done (connection.unread.take count)) with
        borrowed := none
        unread := connection.unread.drop count }
    else none
  | .bytes _, .write | .timedOut, .read | .timedOut, .write => none

/-- An operation looks the connection up and takes its stream. -/
def take (index : Nat) (operation : Operation) (outcome : Outcome) (connection : ConnectionState) :
    Option ConnectionState :=
  if connection.isOpen then
    if connection.borrowed.isSome then some { connection with aborted := true }
    else connection.use index operation outcome
  else some (connection.setProgress index operation (.done []))

/-- The fiber at the head of the ready queue runs. -/
def turn (outcome : Outcome) (connection : ConnectionState) : Option ConnectionState :=
  match connection.ready with
  | [] => none
  | index :: ready =>
    match connection.operations[index]? with
    | none => none
    | some operation =>
      match operation.progress with
      | .launched => { connection with ready := ready }.take index operation outcome
      | .woken => { connection with ready := ready }.use index operation outcome
      | .parked | .done _ => none

def launch (kind : Kind) (connection : ConnectionState) : ConnectionState :=
  { connection with
    operations := connection.operations ++ [{ kind := kind, progress := .launched }]
    ready := connection.ready ++ [connection.operations.length] }

/-- The caller's fiber runs already: the write takes the stream without a turn in the queue. -/
def write (outcome : Outcome) (connection : ConnectionState) : Option ConnectionState :=
  let operation := { kind := .write, progress := .launched }
  { connection with operations := connection.operations ++ [operation] }.take
    connection.operations.length operation outcome

def close (connection : ConnectionState) : ConnectionState :=
  if connection.isOpen then
    if connection.borrowed.isSome then { connection with isOpen := false, aborted := true }
    else { connection with isOpen := false }
  else connection

def wake (index : Nat) (connection : ConnectionState) : Option ConnectionState :=
  match connection.operations[index]? with
  | none => none
  | some operation =>
    if operation.progress = .parked then
      some { connection.setProgress index operation .woken with
        ready := connection.ready ++ [index] }
    else none

def step (event : Event) (connection : ConnectionState) : Option ConnectionState :=
  if connection.aborted then none
  else
    match event with
    | .arrive bytes =>
      some { connection with
        arrived := connection.arrived ++ bytes
        unread := connection.unread ++ bytes }
    | .launch timed => some (connection.launch (if timed then .timedRead else .read))
    | .turn outcome => connection.turn outcome
    | .write outcome => connection.write outcome
    | .close => some connection.close
    | .wake index => connection.wake index

end ConnectionState

end Quilon.Runtime
