import Quilon.Library.Transition
import Mathlib.Data.List.Basic
import Mathlib.Logic.Function.Basic

/-!
# A server's connections and its kill

`quilon-rt/src/net/server.rs`: the accept loops of one server, the connections they place on the
workers, and `__server_kill`.  Every access to what they share (the `stopping` flag, the `in_flight`
count, the `open_connections` map, a descriptor) is a step of its own, for the loops, the handlers'
fibers and the kill run on different workers.

The operating system hands a descriptor out again once it is closed; `descriptors` says who has each
open one, a connection of this server or something else in the process.  A connection's handle is its
place in `connections`, never used twice.  The grace period of a kill may end at any moment.
-/

namespace Quilon.Runtime

/-- How far a connection is: in its accept loop up to `counted`, then on its own fiber. -/
inductive Stage where
  /-- `accept` has returned it; `stopping` is not yet tested -/
  | accepted
  | tested
  | inserted
  | counted
  | placed
  /-- the stopping test dropped it -/
  | dropped
  /-- `from_accepted` failed and has dropped the stream; then its entry is removed -/
  | unregistered
  | forgotten
  | handshaking
  /-- the handshake failed; then its entry is removed, it is discounted, and its stream dropped -/
  | refused
  | refusedOut
  | refusedDone
  | handling
  /-- `Connection.close()`: the entry is removed, then the stream is dropped -/
  | closing
  | closed
  /-- the handler has returned; the same close follows -/
  | returned
  | leaving
  | left
  | done
deriving DecidableEq

namespace Stage

/-- The stream is not dropped. -/
def holds : Stage → Bool
  | .dropped | .unregistered | .forgotten | .closed | .left | .done => false
  | _ => true

/-- The connection is in `open_connections`. -/
def listed : Stage → Bool
  | .inserted | .counted | .placed | .unregistered | .handshaking | .refused | .handling
  | .returned => true
  | _ => false

/-- The connection is counted and its fiber has not taken its last step. -/
def inFlight : Stage → Bool
  | .counted | .placed | .unregistered | .forgotten | .handshaking | .refused | .refusedOut
  | .handling | .closing | .closed | .returned | .leaving | .left => true
  | _ => false

/-- An accept loop is between its test of `stopping` and the placement. -/
def entering : Stage → Bool
  | .tested | .inserted | .counted => true
  | _ => false

/-- The handler runs or will. -/
def live : Stage → Bool
  | .accepted | .tested | .inserted | .counted | .placed | .handshaking | .handling | .closing
  | .closed => true
  | _ => false

end Stage

structure Connection where
  stage : Stage
  fd : Nat
  shut : Bool

/-- Who has a descriptor. -/
inductive Owner where
  | connection (id : Nat)
  | other
deriving DecidableEq

inductive AcceptLoop where
  | waiting
  | holding (id : Nat)
  | ended
deriving DecidableEq

/-- `__server_kill`, by the handler of the connection `caller` or by other code. -/
inductive Kill where
  | none
  | waiting (caller : Option Nat)
  | shutting (todo : List (Nat × Nat))
  | returned
deriving DecidableEq

structure Server where
  listeners : Nat
  loops : Nat → AcceptLoop
  stopping : Bool
  inFlight : Nat
  openConnections : List (Nat × Nat)
  connections : List Connection
  descriptors : Nat → Option Owner
  kill : Kill
  /-- the owners of the descriptors `force_shutdown_connection` was called on -/
  shutdowns : List (Option Owner)

def Server.start (listeners : Nat) : Server where
  listeners := listeners
  loops _ := .waiting
  stopping := false
  inFlight := 0
  openConnections := []
  connections := []
  descriptors _ := none
  kill := .none
  shutdowns := []

inductive ServerEvent where
  | accept (loop fd : Nat)
  /-- a genuine accept error ends the loop -/
  | acceptError (loop : Nat)
  | test (loop : Nat)
  | insert (loop : Nat)
  | count (loop : Nat)
  | place (loop : Nat)
  /-- `from_accepted`, for a plain or a TLS listener -/
  | register (id : Nat) (tls : Bool)
  | registerFail (id : Nat)
  | handshake (id : Nat) (ok : Bool)
  | close (id : Nat)
  | handlerReturn (id : Nat)
  | remove (id : Nat)
  | dropStream (id : Nat)
  | discount (id : Nat)
  | otherOpen (fd : Nat)
  | otherClose (fd : Nat)
  | kill (caller : Option Nat)
  /-- the wait of a kill is over: the count is down, or the grace period -/
  | snapshot (expired : Bool)
  | shutNext
  | settle

namespace Server

def setStage (server : Server) (id : Nat) (connection : Connection) (stage : Stage) : Server :=
  { server with connections := server.connections.set id { connection with stage := stage } }

/-- A connection goes from one stage to the next, with nothing shared touched. -/
def advance (server : Server) (id : Nat) (stage next : Stage) : Option Server :=
  match server.connections[id]? with
  | some connection =>
    if connection.stage = stage then some (server.setStage id connection next) else none
  | none => none

/-- `open_connections.remove(&id)` -/
def removeEntry (server : Server) (id : Nat) : Server :=
  { server with openConnections := server.openConnections.filter (·.1 ≠ id) }

/-- The connection an accept loop holds. -/
def held (server : Server) (loop : Nat) : Option (Nat × Connection) :=
  match server.loops loop with
  | .holding id => (server.connections[id]?).map fun connection => (id, connection)
  | _ => none

def setLoop (server : Server) (loop : Nat) (state : AcceptLoop) : Server :=
  { server with loops := Function.update server.loops loop state }

def free (server : Server) (fd : Nat) : Server :=
  { server with descriptors := Function.update server.descriptors fd none }

/-- The accept loop's side of a connection. -/
def stepLoop (event : ServerEvent) (server : Server) : Option Server :=
  match event with
  | .accept loop fd =>
    if loop < server.listeners ∧ server.loops loop = .waiting ∧ server.descriptors fd = none then
      let id := server.connections.length
      some { server.setLoop loop (.holding id) with
        connections := server.connections ++ [{ stage := .accepted, fd, shut := false }]
        descriptors := Function.update server.descriptors fd (some (.connection id)) }
    else none
  | .acceptError loop =>
    if server.loops loop = .waiting then some (server.setLoop loop .ended) else none
  | .test loop =>
    match server.held loop with
    | some (id, connection) =>
      if connection.stage = .accepted then
        if server.stopping then
          some (((server.setStage id connection .dropped).free connection.fd).setLoop loop .ended)
        else some (server.setStage id connection .tested)
      else none
    | none => none
  | .insert loop =>
    match server.held loop with
    | some (id, connection) =>
      if connection.stage = .tested then
        some { server.setStage id connection .inserted with
          openConnections := (id, connection.fd) :: server.openConnections }
      else none
    | none => none
  | .count loop =>
    match server.held loop with
    | some (id, connection) =>
      if connection.stage = .inserted then
        some { server.setStage id connection .counted with inFlight := server.inFlight + 1 }
      else none
    | none => none
  | .place loop =>
    match server.held loop with
    | some (id, connection) =>
      if connection.stage = .counted then
        some ((server.setStage id connection .placed).setLoop loop .waiting)
      else none
    | none => none
  | _ => none

/-- The fiber's side: the stage a connection goes to when its entry is removed, its stream dropped,
or it leaves `in_flight`. -/
def Stage.afterRemove : Stage → Option Stage
  | .unregistered => some .forgotten
  | .refused => some .refusedOut
  | .returned => some .leaving
  | _ => none

def Stage.afterDrop : Stage → Option Stage
  | .refusedDone => some .done
  | .closing => some .closed
  | .leaving => some .left
  | _ => none

def Stage.afterDiscount : Stage → Option Stage
  | .forgotten => some .done
  | .refusedOut => some .refusedDone
  | .left => some .done
  | _ => none

def stepFiber (event : ServerEvent) (server : Server) : Option Server :=
  match event with
  | .register id tls => server.advance id .placed (if tls then .handshaking else .handling)
  | .registerFail id =>
    match server.connections[id]? with
    | some connection =>
      if connection.stage = .placed then
        some ((server.setStage id connection .unregistered).free connection.fd)
      else none
    | none => none
  | .handshake id ok => server.advance id .handshaking (if ok then .handling else .refused)
  | .close id =>
    (server.advance id .handling .closing).map fun closing => closing.removeEntry id
  | .handlerReturn id =>
    match server.connections[id]? with
    | some connection =>
      match connection.stage with
      | .handling => some (server.setStage id connection .returned)
      -- closed by the handler itself: `close_connection` finds nothing
      | .closed => some (server.setStage id connection .left)
      | _ => none
    | none => none
  | .remove id =>
    match server.connections[id]? with
    | some connection =>
      (Stage.afterRemove connection.stage).map fun stage =>
        (server.setStage id connection stage).removeEntry id
    | none => none
  | .dropStream id =>
    match server.connections[id]? with
    | some connection =>
      (Stage.afterDrop connection.stage).map fun stage =>
        (server.setStage id connection stage).free connection.fd
    | none => none
  | .discount id =>
    match server.connections[id]? with
    | some connection =>
      (Stage.afterDiscount connection.stage).map fun stage =>
        { server.setStage id connection stage with inFlight := server.inFlight - 1 }
    | none => none
  | _ => none

/-- `shutdown(2)` on whatever has the descriptor now. -/
def shutdown (server : Server) (fd : Nat) : Server :=
  let shut := { server with shutdowns := server.descriptors fd :: server.shutdowns }
  match server.descriptors fd with
  | some (.connection id) =>
    match server.connections[id]? with
    | some connection =>
      { shut with connections := server.connections.set id { connection with shut := true } }
    | none => shut
  | _ => shut

/-- One more than nothing in flight, for a handler that kills its own server. -/
def floor (caller : Option Nat) : Nat :=
  if caller.isSome then 1 else 0

def stepKill (event : ServerEvent) (server : Server) : Option Server :=
  match event, server.kill with
  | .kill caller, .none => some { server with stopping := true, kill := .waiting caller }
  -- the handle is gone from the table
  | .kill _, _ => some server
  | .snapshot expired, .waiting caller =>
    if server.inFlight ≤ floor caller ∨ expired then
      some { server with kill := .shutting server.openConnections }
    else none
  | .shutNext, .shutting ((_, fd) :: todo) => some { server.shutdown fd with kill := .shutting todo }
  | .settle, .shutting [] =>
    if (List.range server.listeners).all fun loop => server.loops loop = .ended then
      some { server with kill := .returned }
    else none
  | _, _ => none

def step (event : ServerEvent) (server : Server) : Option Server :=
  match event with
  | .otherOpen fd =>
    if server.descriptors fd = none then
      some { server with descriptors := Function.update server.descriptors fd (some .other) }
    else none
  | .otherClose fd => if server.descriptors fd = some .other then some (server.free fd) else none
  | .kill _ | .snapshot _ | .shutNext | .settle => server.stepKill event
  | .accept .. | .acceptError _ | .test _ | .insert _ | .count _ | .place _ =>
    server.stepLoop event
  | _ => server.stepFiber event

def Reaches (listeners : Nat) : Server → Prop :=
  Reachable step (.start listeners)

end Server

end Quilon.Runtime
