import Quilon.Runtime.Server

/-!
# What a kill leaves of a server, and whose descriptors it touches

In every run the count in flight is that of the connections on their way from the count to their
fiber's last step, the map holds the connections whose stage says so, and whoever holds a stream owns
its descriptor.  A kill works from a snapshot of the map, so it is complete only when no accept loop
is about to enter a connection, and its descriptors are the server's only as long as no stream of the
snapshot is dropped before its turn.

Main results:

* `Sound.step` — count, map and descriptors, kept by every step;
* `kill_complete` — nothing is left live and open when no accept loop is caught between its test and
  its placement;
* `shutdown_own_connections` — the map and the shutdowns name open descriptors of the server's own
  connections when no registration fails and no stream of the snapshot is dropped.
-/

namespace Quilon.Runtime

/-- The connection is still with its accept loop. -/
def Stage.inLoop : Stage → Bool
  | .accepted | .tested | .inserted | .counted => true
  | _ => false

/-- The connection is on its own fiber with its stream open, and its handler runs or will. -/
def Stage.exposed : Stage → Bool
  | .placed | .handshaking | .handling | .closing => true
  | _ => false

namespace Server

variable {server server' : Server}

/-! ### The count, the map and the descriptors -/

structure Sound (server : Server) : Prop where
  entries : ∀ id fd, (id, fd) ∈ server.openConnections ↔
    ∃ connection, server.connections[id]? = some connection ∧ connection.stage.listed = true ∧
      connection.fd = fd
  owners : ∀ (id : Nat) (connection : Connection), server.connections[id]? = some connection →
    connection.stage.holds = true →
    server.descriptors connection.fd = some (.connection id)
  counted : server.inFlight = server.connections.countP (·.stage.inFlight)
  stopped : server.stopping = true ↔ server.kill ≠ .none

theorem countP_set_stage {connections : List Connection} {id : Nat} {connection : Connection}
    (hid : connections[id]? = some connection) (after : Connection) :
    (connections.set id after).countP (·.stage.inFlight) +
        (if connection.stage.inFlight = true then 1 else 0) =
      connections.countP (·.stage.inFlight) + (if after.stage.inFlight = true then 1 else 0) := by
  obtain ⟨hlt, rfl⟩ := List.getElem?_eq_some_iff.mp hid
  rw [List.countP_set hlt]
  have hpos : connections[id].stage.inFlight = true →
      0 < connections.countP (·.stage.inFlight) := fun h =>
    List.countP_pos_iff.mpr ⟨_, List.getElem_mem hlt, h⟩
  split <;> rename_i hbefore
  · have := hpos hbefore
    omega
  · omega

/-- A connection goes on in another stage, with the map, its descriptor and the count kept in step. -/
theorem Sound.change (h : server.Sound) {id : Nat} {connection : Connection} (after : Connection)
    {entries : List (Nat × Nat)} {descriptors : Nat → Option Owner} {inFlight : Nat}
    {loops : Nat → AcceptLoop}
    (hid : server.connections[id]? = some connection) (hfd : after.fd = connection.fd)
    (hentries : ∀ entry, entry ∈ entries ↔ (entry.1 ≠ id ∧ entry ∈ server.openConnections) ∨
      (after.stage.listed = true ∧ entry = (id, connection.fd)))
    (hdescriptors : (descriptors = server.descriptors ∧
        (after.stage.holds = true → connection.stage.holds = true)) ∨
      (descriptors = Function.update server.descriptors connection.fd none ∧
        connection.stage.holds = true ∧ after.stage.holds = false))
    (hinFlight : inFlight + (if connection.stage.inFlight = true then 1 else 0) =
      server.inFlight + (if after.stage.inFlight = true then 1 else 0)) :
    Sound { server with
      connections := server.connections.set id after
      openConnections := entries
      descriptors := descriptors
      inFlight := inFlight
      loops := loops } := by
  obtain ⟨hlt, -⟩ := List.getElem?_eq_some_iff.mp hid
  have hlookup : ∀ other found, (server.connections.set id after)[other]? = some found ↔
      (other = id ∧ found = after) ∨ (other ≠ id ∧ server.connections[other]? = some found) := by
    intro other found
    by_cases hother : id = other
    · subst hother
      simp [hlt, eq_comm]
    · simp [List.getElem?_set_ne hother, Ne.symm hother]
  refine ⟨?_, ?_, ?_, h.stopped⟩
  · intro other fd
    simp only [hlookup]
    rw [hentries]
    have hold := h.entries other fd
    grind
  · intro other found hfound hholds
    rw [hlookup] at hfound
    have hself := h.owners id connection hid
    rcases hfound with ⟨rfl, rfl⟩ | ⟨hother, hfound⟩
    · rcases hdescriptors with ⟨rfl, hheld⟩ | ⟨-, -, hnot⟩
      · rw [hfd]
        exact hself (hheld hholds)
      · rw [hholds] at hnot
        cases hnot
    · have howner := h.owners other found hfound hholds
      rcases hdescriptors with ⟨rfl, -⟩ | ⟨rfl, hheld, -⟩
      · exact howner
      · -- The freed descriptor is the changed connection's, so no other one's.
        show Function.update server.descriptors connection.fd none found.fd = _
        rw [Function.update_of_ne, howner]
        intro hsame
        rw [hsame, hself hheld] at howner
        cases howner
        exact hother rfl
  · show inFlight = (server.connections.set id after).countP (·.stage.inFlight)
    have hcount := countP_set_stage hid after
    rw [← h.counted] at hcount
    omega

/-- The map is left alone, and the stages agree on whether the connection is in it. -/
theorem Sound.same_entries (h : server.Sound) {id : Nat} {connection : Connection} {stage : Stage}
    (hid : server.connections[id]? = some connection)
    (hlisted : stage.listed = connection.stage.listed) (entry : Nat × Nat) :
    entry ∈ server.openConnections ↔ (entry.1 ≠ id ∧ entry ∈ server.openConnections) ∨
      (stage.listed = true ∧ entry = (id, connection.fd)) := by
  obtain ⟨other, fd⟩ := entry
  have hentry := h.entries other fd
  rw [hlisted]
  grind

/-- Nothing shared is touched. -/
theorem Sound.setStage (h : server.Sound) {id : Nat} {connection : Connection} {stage : Stage}
    (hid : server.connections[id]? = some connection)
    (hlisted : stage.listed = connection.stage.listed)
    (hholds : stage.holds = true → connection.stage.holds = true)
    (hinFlight : stage.inFlight = connection.stage.inFlight) :
    (server.setStage id connection stage).Sound := by
  refine h.change { connection with stage := stage } hid rfl
    (h.same_entries hid hlisted) (.inl ⟨rfl, hholds⟩) ?_
  rw [hinFlight]

/-- The stream is dropped. -/
theorem Sound.free (h : server.Sound) {id : Nat} {connection : Connection} {stage : Stage}
    (hid : server.connections[id]? = some connection)
    (hlisted : stage.listed = connection.stage.listed) (hheld : connection.stage.holds = true)
    (hholds : stage.holds = false) (hinFlight : stage.inFlight = connection.stage.inFlight) :
    ((server.setStage id connection stage).free connection.fd).Sound := by
  refine h.change { connection with stage := stage } hid rfl
    (h.same_entries hid hlisted) (.inr ⟨rfl, hheld, hholds⟩) ?_
  rw [hinFlight]
  rfl

/-- The entry is removed from the map. -/
theorem Sound.removeEntry (h : server.Sound) {id : Nat} {connection : Connection} {stage : Stage}
    (hid : server.connections[id]? = some connection) (hlisted : stage.listed = false)
    (hholds : stage.holds = true → connection.stage.holds = true)
    (hinFlight : stage.inFlight = connection.stage.inFlight) :
    ((server.setStage id connection stage).removeEntry id).Sound := by
  refine h.change { connection with stage := stage } hid rfl ?_ (.inl ⟨rfl, hholds⟩) ?_
  · intro entry
    show entry ∈ server.openConnections.filter (·.1 ≠ id) ↔ _
    rw [List.mem_filter, hlisted]
    simp [and_comm]
  · rw [hinFlight]
    rfl

theorem Sound.setLoop (h : server.Sound) (loop : Nat) (state : AcceptLoop) :
    (server.setLoop loop state).Sound :=
  ⟨h.entries, h.owners, h.counted, h.stopped⟩

theorem held_eq {loop id : Nat} {connection : Connection}
    (h : server.held loop = some (id, connection)) :
    server.loops loop = .holding id ∧ server.connections[id]? = some connection := by
  unfold held at h
  split at h
  case h_1 held hloop =>
    obtain ⟨found, hfound, heq⟩ := Option.map_eq_some_iff.mp h
    cases heq
    exact ⟨hloop, hfound⟩
  case h_2 => cases h

theorem Sound.stepLoop (h : server.Sound) {event : ServerEvent}
    (hstep : Server.stepLoop event server = some server') : server'.Sound := by
  unfold Server.stepLoop at hstep
  split at hstep
  case h_1 loop fd =>
    -- accept
    split at hstep
    case isTrue hfree =>
      cases hstep
      have hlookup : ∀ (other : Nat) (found : Connection),
          (server.connections ++ [{ stage := .accepted, fd, shut := false }])[other]? = some found ↔
          (other = server.connections.length ∧
            found = { stage := .accepted, fd, shut := false }) ∨
          server.connections[other]? = some found := by
        intro other found
        grind
      refine ⟨?_, ?_, ?_, h.stopped⟩
      · intro other otherFd
        simp only [hlookup]
        show (other, otherFd) ∈ server.openConnections ↔ _
        have hentry := h.entries other otherFd
        grind [Stage.listed]
      · intro other found hfound hholds
        show Function.update server.descriptors fd _ found.fd = _
        rcases (hlookup other found).mp hfound with ⟨rfl, rfl⟩ | hfound
        · exact Function.update_self ..
        · have howner := h.owners other found hfound hholds
          rw [Function.update_of_ne, howner]
          rintro hsame
          rw [hsame, hfree.2.2] at howner
          cases howner
      · show server.inFlight = (server.connections ++ _).countP (·.stage.inFlight)
        rw [List.countP_append, h.counted]
        rfl
    case isFalse => cases hstep
  case h_2 loop =>
    split at hstep
    case isTrue =>
      cases hstep
      exact ⟨h.entries, h.owners, h.counted, h.stopped⟩
    case isFalse => cases hstep
  case h_3 loop =>
    -- test
    split at hstep
    case h_1 id connection hheld =>
      obtain ⟨-, hid⟩ := held_eq hheld
      split at hstep
      case isTrue hstage =>
        split at hstep
        case isTrue =>
          cases hstep
          exact (h.free hid (by rw [hstage]; rfl) (by rw [hstage]; rfl) rfl
            (by rw [hstage]; rfl)).setLoop ..
        case isFalse =>
          cases hstep
          exact h.setStage hid (by rw [hstage]; rfl) (fun _ => by rw [hstage]; rfl)
            (by rw [hstage]; rfl)
      case isFalse => cases hstep
    case h_2 => cases hstep
  case h_4 loop =>
    -- insert
    split at hstep
    case h_1 id connection hheld =>
      obtain ⟨-, hid⟩ := held_eq hheld
      split at hstep
      case isTrue hstage =>
        cases hstep
        refine h.change { connection with stage := .inserted } hid rfl ?_
          (.inl ⟨rfl, fun _ => by rw [hstage]; rfl⟩) (by rw [hstage]; rfl)
        rintro ⟨other, fd⟩
        have hentry := h.entries other fd
        grind [Stage.listed]
      case isFalse => cases hstep
    case h_2 => cases hstep
  case h_5 loop =>
    -- count
    split at hstep
    case h_1 id connection hheld =>
      obtain ⟨-, hid⟩ := held_eq hheld
      split at hstep
      case isTrue hstage =>
        cases hstep
        exact h.change { connection with stage := .counted } hid rfl
          (h.same_entries hid (by rw [hstage]; rfl)) (.inl ⟨rfl, fun _ => by rw [hstage]; rfl⟩)
          (by rw [hstage]; rfl)
      case isFalse => cases hstep
    case h_2 => cases hstep
  case h_6 loop =>
    -- place
    split at hstep
    case h_1 id connection hheld =>
      obtain ⟨-, hid⟩ := held_eq hheld
      split at hstep
      case isTrue hstage =>
        cases hstep
        exact (h.setStage hid (by rw [hstage]; rfl) (fun _ => by rw [hstage]; rfl)
          (by rw [hstage]; rfl)).setLoop ..
      case isFalse => cases hstep
    case h_2 => cases hstep
  case h_7 => cases hstep

theorem advance_eq {id : Nat} {stage next : Stage}
    (h : server.advance id stage next = some server') :
    ∃ connection, server.connections[id]? = some connection ∧ connection.stage = stage ∧
      server' = server.setStage id connection next := by
  unfold advance at h
  split at h
  case h_1 connection hid =>
    split at h
    case isTrue hstage =>
      cases h
      exact ⟨connection, hid, hstage, rfl⟩
    case isFalse => cases h
  case h_2 => cases h

theorem Stage.inFlight_of_afterDiscount {stage next : Stage}
    (h : Stage.afterDiscount stage = some next) : stage.inFlight = true := by
  cases stage <;> cases h <;> rfl

theorem Sound.inFlight_pos (h : server.Sound) {id : Nat} {connection : Connection}
    (hid : server.connections[id]? = some connection)
    (hinFlight : connection.stage.inFlight = true) : 0 < server.inFlight := by
  rw [h.counted, List.countP_pos_iff]
  exact ⟨connection, List.mem_of_getElem? hid, hinFlight⟩

theorem Sound.stepFiber (h : server.Sound) {event : ServerEvent}
    (hstep : Server.stepFiber event server = some server') : server'.Sound := by
  unfold Server.stepFiber at hstep
  split at hstep
  case h_1 id tls =>
    -- register
    obtain ⟨connection, hid, hstage, rfl⟩ := advance_eq hstep
    cases tls <;> exact h.setStage hid (by rw [hstage]; rfl) (fun _ => by rw [hstage]; rfl)
      (by rw [hstage]; rfl)
  case h_2 id =>
    -- registerFail
    split at hstep
    case h_1 connection hid =>
      split at hstep
      case isTrue hstage =>
        cases hstep
        exact h.free hid (by rw [hstage]; rfl) (by rw [hstage]; rfl) rfl (by rw [hstage]; rfl)
      case isFalse => cases hstep
    case h_2 => cases hstep
  case h_3 id ok =>
    -- handshake
    obtain ⟨connection, hid, hstage, rfl⟩ := advance_eq hstep
    cases ok <;> exact h.setStage hid (by rw [hstage]; rfl) (fun _ => by rw [hstage]; rfl)
      (by rw [hstage]; rfl)
  case h_4 id =>
    -- close
    obtain ⟨closing, hadvance, rfl⟩ := Option.map_eq_some_iff.mp hstep
    obtain ⟨connection, hid, hstage, rfl⟩ := advance_eq hadvance
    exact h.removeEntry hid rfl (fun _ => by rw [hstage]; rfl) (by rw [hstage]; rfl)
  case h_5 id =>
    -- handlerReturn
    split at hstep
    case h_1 connection hid =>
      split at hstep
      case h_1 hstage =>
        cases hstep
        exact h.setStage hid (by rw [hstage]; rfl) (fun _ => by rw [hstage]; rfl)
          (by rw [hstage]; rfl)
      case h_2 hstage =>
        cases hstep
        exact h.setStage hid (by rw [hstage]; rfl) (by simp [Stage.holds]) (by rw [hstage]; rfl)
      case h_3 => cases hstep
    case h_2 => cases hstep
  case h_6 id =>
    -- remove
    split at hstep
    case h_1 connection hid =>
      obtain ⟨stage, hstage, rfl⟩ := Option.map_eq_some_iff.mp hstep
      cases hold : connection.stage <;> rw [hold] at hstage <;> cases hstage <;>
        exact h.removeEntry hid rfl (by rw [hold]; decide) (by rw [hold]; rfl)
    case h_2 => cases hstep
  case h_7 id =>
    -- dropStream
    split at hstep
    case h_1 connection hid =>
      obtain ⟨stage, hstage, rfl⟩ := Option.map_eq_some_iff.mp hstep
      cases hold : connection.stage <;> rw [hold] at hstage <;> cases hstage <;>
        exact h.free hid (by rw [hold]; rfl) (by rw [hold]; rfl) rfl (by rw [hold]; rfl)
    case h_2 => cases hstep
  case h_8 id =>
    -- discount
    split at hstep
    case h_1 connection hid =>
      obtain ⟨stage, hstage, rfl⟩ := Option.map_eq_some_iff.mp hstep
      have hpos := h.inFlight_pos hid (Stage.inFlight_of_afterDiscount hstage)
      cases hold : connection.stage <;> rw [hold] at hstage <;> cases hstage <;>
        refine h.change { connection with stage := _ } hid rfl
          (h.same_entries hid (by rw [hold]; rfl)) (.inl ⟨rfl, by rw [hold]; simp [Stage.holds]⟩)
          ?_ <;>
        rw [hold] <;> simp only [Stage.inFlight] <;> simp <;> omega
    case h_2 => cases hstep
  case h_9 => cases hstep

theorem Sound.shutdown (h : server.Sound) (fd : Nat) : (server.shutdown fd).Sound := by
  have hlogged : Sound { server with shutdowns := server.descriptors fd :: server.shutdowns } :=
    ⟨h.entries, h.owners, h.counted, h.stopped⟩
  unfold Server.shutdown
  dsimp only
  split
  case h_1 id howner =>
    split
    case h_1 connection hid =>
      exact hlogged.change { connection with shut := true } hid rfl (hlogged.same_entries hid rfl)
        (.inl ⟨rfl, fun hholds => hholds⟩) rfl
    case h_2 => exact hlogged
  case h_2 => exact hlogged

theorem shutdown_kill (server : Server) (fd : Nat) : (server.shutdown fd).kill = server.kill := by
  unfold Server.shutdown
  dsimp only
  split
  · split <;> rfl
  · rfl

theorem shutdown_stopping (server : Server) (fd : Nat) :
    (server.shutdown fd).stopping = server.stopping := by
  unfold Server.shutdown
  dsimp only
  split
  · split <;> rfl
  · rfl

/-- A kill that goes on to another of its phases leaves everything else as it is. -/
theorem Sound.setKill (h : server.Sound) (hkill : server.kill ≠ .none) {kill : Kill}
    (hnext : kill ≠ .none) : Sound { server with kill := kill } :=
  ⟨h.entries, h.owners, h.counted, by simp [hnext, h.stopped, hkill]⟩

theorem Sound.stepKill (h : server.Sound) {event : ServerEvent}
    (hstep : Server.stepKill event server = some server') : server'.Sound := by
  unfold Server.stepKill at hstep
  split at hstep
  case h_1 caller hkill =>
    cases hstep
    exact ⟨h.entries, h.owners, h.counted, by simp⟩
  case h_2 =>
    cases hstep
    exact h
  case h_3 expired caller hkill =>
    split at hstep
    case isTrue =>
      cases hstep
      exact h.setKill (by simp [hkill]) (by simp)
    case isFalse => cases hstep
  case h_4 id fd todo hkill =>
    cases hstep
    exact (h.shutdown fd).setKill (by simp [shutdown_kill, hkill]) (by simp)
  case h_5 hkill =>
    split at hstep
    case isTrue =>
      cases hstep
      exact h.setKill (by simp [hkill]) (by simp)
    case isFalse => cases hstep
  case h_6 => cases hstep

/-- A descriptor that no connection has changes hands. -/
theorem Sound.setDescriptor (h : server.Sound) {fd : Nat}
    (hfd : ∀ id, server.descriptors fd ≠ some (.connection id)) (owner : Option Owner) :
    Sound { server with descriptors := Function.update server.descriptors fd owner } := by
  refine ⟨h.entries, ?_, h.counted, h.stopped⟩
  intro id connection hid hholds
  have howner := h.owners id connection hid hholds
  show Function.update server.descriptors fd owner connection.fd = _
  rw [Function.update_of_ne, howner]
  intro hsame
  rw [hsame] at howner
  exact hfd id howner

theorem Sound.step (h : server.Sound) {event : ServerEvent}
    (hstep : Server.step event server = some server') : server'.Sound := by
  unfold Server.step at hstep
  split at hstep
  case h_1 fd =>
    split at hstep
    case isTrue hfree =>
      cases hstep
      exact h.setDescriptor (by simp [hfree]) _
    case isFalse => cases hstep
  case h_2 fd =>
    split at hstep
    case isTrue hother =>
      cases hstep
      exact h.setDescriptor (by simp [hother]) _
    case isFalse => cases hstep
  case h_13 => exact h.stepFiber hstep
  all_goals first
    | exact h.stepKill hstep
    | exact h.stepLoop hstep

theorem start_sound (listeners : Nat) : (start listeners).Sound := by
  refine ⟨?_, ?_, rfl, ?_⟩ <;> simp [start]

end Server

/-! ### What a step does to the connections -/

/-- The stages a connection goes through, with the events that take it there. -/
inductive Stage.Goes (stopping : Bool) : ServerEvent → Stage → Stage → Prop where
  | test (loop : Nat) : stopping = false → Goes stopping (.test loop) .accepted .tested
  | turnAway (loop : Nat) : Goes stopping (.test loop) .accepted .dropped
  | insert (loop : Nat) : Goes stopping (.insert loop) .tested .inserted
  | count (loop : Nat) : Goes stopping (.count loop) .inserted .counted
  | place (loop : Nat) : Goes stopping (.place loop) .counted .placed
  | register (id : Nat) : Goes stopping (.register id false) .placed .handling
  | registerTls (id : Nat) : Goes stopping (.register id true) .placed .handshaking
  | registerFail (id : Nat) : Goes stopping (.registerFail id) .placed .unregistered
  | handshake (id : Nat) : Goes stopping (.handshake id true) .handshaking .handling
  | handshakeFail (id : Nat) : Goes stopping (.handshake id false) .handshaking .refused
  | close (id : Nat) : Goes stopping (.close id) .handling .closing
  | handlerReturn (id : Nat) : Goes stopping (.handlerReturn id) .handling .returned
  | closedReturn (id : Nat) : Goes stopping (.handlerReturn id) .closed .left
  | forget (id : Nat) : Goes stopping (.remove id) .unregistered .forgotten
  | refuse (id : Nat) : Goes stopping (.remove id) .refused .refusedOut
  | leave (id : Nat) : Goes stopping (.remove id) .returned .leaving
  | dropRefused (id : Nat) : Goes stopping (.dropStream id) .refusedDone .done
  | dropClosing (id : Nat) : Goes stopping (.dropStream id) .closing .closed
  | dropLeaving (id : Nat) : Goes stopping (.dropStream id) .leaving .left
  | discountForgotten (id : Nat) : Goes stopping (.discount id) .forgotten .done
  | discountRefused (id : Nat) : Goes stopping (.discount id) .refusedOut .refusedDone
  | discountLeft (id : Nat) : Goes stopping (.discount id) .left .done

namespace Server

variable {server server' : Server}

/-- A step takes in a connection, takes one to its next stage, lets an accept loop end, changes a
descriptor of something else, or is the kill's. -/
inductive Steps (server : Server) : ServerEvent → Server → Prop where
  | accept (loop fd : Nat) (descriptors : Nat → Option Owner) : loop < server.listeners →
      server.loops loop = .waiting →
      Steps server (.accept loop fd) { server.setLoop loop (.holding server.connections.length) with
        connections := server.connections ++ [{ stage := .accepted, fd, shut := false }]
        descriptors := descriptors }
  | quit (loop : Nat) : server.loops loop = .waiting →
      Steps server (.acceptError loop) (server.setLoop loop .ended)
  | inLoop (loop id : Nat) (connection : Connection) (stage : Stage) (event : ServerEvent)
      (loops : Nat → AcceptLoop) (entries : List (Nat × Nat)) (descriptors : Nat → Option Owner)
      (inFlight : Nat) :
      server.loops loop = .holding id → server.connections[id]? = some connection →
      Stage.Goes server.stopping event connection.stage stage → connection.stage.inLoop = true →
      (∀ other, other ≠ loop → loops other = server.loops other) →
      (if stage.inLoop then loops loop = .holding id
        else loops loop = .waiting ∨ loops loop = .ended) →
      Steps server event { server with
        loops := loops
        connections := server.connections.set id { connection with stage := stage }
        openConnections := entries
        descriptors := descriptors
        inFlight := inFlight }
  | onFiber (id : Nat) (connection : Connection) (stage : Stage) (event : ServerEvent)
      (entries : List (Nat × Nat)) (descriptors : Nat → Option Owner) (inFlight : Nat) :
      server.connections[id]? = some connection →
      Stage.Goes server.stopping event connection.stage stage → connection.stage.inLoop = false →
      (∀ other, event = .dropStream other → other = id) →
      Steps server event { server with
        connections := server.connections.set id { connection with stage := stage }
        openConnections := entries
        descriptors := descriptors
        inFlight := inFlight }
  | elsewhere (event : ServerEvent) (descriptors : Nat → Option Owner) :
      Steps server event { server with descriptors := descriptors }
  | kill (event : ServerEvent) (server' : Server) : server.stepKill event = some server' →
      Steps server event server'

theorem steps_of_stepLoop {event : ServerEvent}
    (hstep : Server.stepLoop event server = some server') : server.Steps event server' := by
  unfold Server.stepLoop at hstep
  split at hstep
  case h_1 loop fd =>
    split at hstep
    case isTrue hfree =>
      cases hstep
      exact .accept loop fd _ hfree.1 hfree.2.1
    case isFalse => cases hstep
  case h_2 loop =>
    split at hstep
    case isTrue hwaiting =>
      cases hstep
      exact .quit loop hwaiting
    case isFalse => cases hstep
  case h_3 loop =>
    split at hstep
    case h_1 id connection hheld =>
      obtain ⟨hloop, hid⟩ := held_eq hheld
      split at hstep
      case isTrue hstage =>
        split at hstep
        case isTrue =>
          cases hstep
          exact .inLoop loop id connection .dropped _ _ _ _ _ hloop hid
            (by rw [hstage]; exact .turnAway loop) (by rw [hstage]; rfl)
            (fun other hother => Function.update_of_ne hother ..) (.inr (Function.update_self ..))
        case isFalse hstopping =>
          cases hstep
          exact .inLoop loop id connection .tested _ _ _ _ _ hloop hid
            (by rw [hstage]; exact .test loop (by simpa using hstopping)) (by rw [hstage]; rfl)
            (fun _ _ => rfl) hloop
      case isFalse => cases hstep
    case h_2 => cases hstep
  case h_4 loop =>
    split at hstep
    case h_1 id connection hheld =>
      obtain ⟨hloop, hid⟩ := held_eq hheld
      split at hstep
      case isTrue hstage =>
        cases hstep
        exact .inLoop loop id connection .inserted _ _ _ _ _ hloop hid
          (by rw [hstage]; exact .insert loop) (by rw [hstage]; rfl) (fun _ _ => rfl) hloop
      case isFalse => cases hstep
    case h_2 => cases hstep
  case h_5 loop =>
    split at hstep
    case h_1 id connection hheld =>
      obtain ⟨hloop, hid⟩ := held_eq hheld
      split at hstep
      case isTrue hstage =>
        cases hstep
        exact .inLoop loop id connection .counted _ _ _ _ _ hloop hid
          (by rw [hstage]; exact .count loop) (by rw [hstage]; rfl) (fun _ _ => rfl) hloop
      case isFalse => cases hstep
    case h_2 => cases hstep
  case h_6 loop =>
    split at hstep
    case h_1 id connection hheld =>
      obtain ⟨hloop, hid⟩ := held_eq hheld
      split at hstep
      case isTrue hstage =>
        cases hstep
        exact .inLoop loop id connection .placed _ _ _ _ _ hloop hid
          (by rw [hstage]; exact .place loop) (by rw [hstage]; rfl)
          (fun other hother => Function.update_of_ne hother ..) (.inl (Function.update_self ..))
      case isFalse => cases hstep
    case h_2 => cases hstep
  case h_7 => cases hstep

theorem steps_of_stepFiber {event : ServerEvent}
    (hstep : Server.stepFiber event server = some server') : server.Steps event server' := by
  unfold Server.stepFiber at hstep
  split at hstep
  case h_1 id tls =>
    obtain ⟨connection, hid, hstage, rfl⟩ := advance_eq hstep
    refine .onFiber id connection _ _ _ _ _ hid ?_ (by rw [hstage]; rfl) (by simp)
    rw [hstage]
    cases tls
    · exact .register id
    · exact .registerTls id
  case h_2 id =>
    split at hstep
    case h_1 connection hid =>
      split at hstep
      case isTrue hstage =>
        cases hstep
        exact .onFiber id connection _ _ _ _ _ hid (by rw [hstage]; exact .registerFail id)
          (by rw [hstage]; rfl) (by simp)
      case isFalse => cases hstep
    case h_2 => cases hstep
  case h_3 id ok =>
    obtain ⟨connection, hid, hstage, rfl⟩ := advance_eq hstep
    refine .onFiber id connection _ _ _ _ _ hid ?_ (by rw [hstage]; rfl) (by simp)
    rw [hstage]
    cases ok
    · exact .handshakeFail id
    · exact .handshake id
  case h_4 id =>
    obtain ⟨closing, hadvance, rfl⟩ := Option.map_eq_some_iff.mp hstep
    obtain ⟨connection, hid, hstage, rfl⟩ := advance_eq hadvance
    exact .onFiber id connection _ _ _ _ _ hid (by rw [hstage]; exact .close id)
      (by rw [hstage]; rfl) (by simp)
  case h_5 id =>
    split at hstep
    case h_1 connection hid =>
      split at hstep
      case h_1 hstage =>
        cases hstep
        exact .onFiber id connection _ _ _ _ _ hid (by rw [hstage]; exact .handlerReturn id)
          (by rw [hstage]; rfl) (by simp)
      case h_2 hstage =>
        cases hstep
        exact .onFiber id connection _ _ _ _ _ hid (by rw [hstage]; exact .closedReturn id)
          (by rw [hstage]; rfl) (by simp)
      case h_3 => cases hstep
    case h_2 => cases hstep
  case h_6 id =>
    split at hstep
    case h_1 connection hid =>
      obtain ⟨stage, hstage, rfl⟩ := Option.map_eq_some_iff.mp hstep
      refine .onFiber id connection stage _ _ _ _ hid ?_ ?_ (by simp) <;>
        cases hold : connection.stage <;> rw [hold] at hstage <;> cases hstage <;>
        first | rfl | constructor
    case h_2 => cases hstep
  case h_7 id =>
    split at hstep
    case h_1 connection hid =>
      obtain ⟨stage, hstage, rfl⟩ := Option.map_eq_some_iff.mp hstep
      refine .onFiber id connection stage _ _ _ _ hid ?_ ?_ (by simp [eq_comm]) <;>
        cases hold : connection.stage <;> rw [hold] at hstage <;> cases hstage <;>
        first | rfl | constructor
    case h_2 => cases hstep
  case h_8 id =>
    split at hstep
    case h_1 connection hid =>
      obtain ⟨stage, hstage, rfl⟩ := Option.map_eq_some_iff.mp hstep
      refine .onFiber id connection stage _ _ _ _ hid ?_ ?_ (by simp) <;>
        cases hold : connection.stage <;> rw [hold] at hstage <;> cases hstage <;>
        first | rfl | constructor
    case h_2 => cases hstep
  case h_9 => cases hstep

theorem steps_of_step {event : ServerEvent} (hstep : Server.step event server = some server') :
    server.Steps event server' := by
  unfold Server.step at hstep
  split at hstep
  case h_1 fd =>
    split at hstep
    case isTrue =>
      cases hstep
      exact .elsewhere ..
    case isFalse => cases hstep
  case h_2 fd =>
    split at hstep
    case isTrue =>
      cases hstep
      exact .elsewhere ..
    case isFalse => cases hstep
  case h_13 => exact steps_of_stepFiber hstep
  all_goals first
    | exact .kill _ _ hstep
    | exact steps_of_stepLoop hstep

theorem connections_set {connections : List Connection} {id : Nat} {connection : Connection}
    (hid : connections[id]? = some connection) (after : Connection) (other : Nat) :
    (connections.set id after)[other]? = if other = id then some after else connections[other]? := by
  obtain ⟨hlt, -⟩ := List.getElem?_eq_some_iff.mp hid
  rw [List.getElem?_set]
  grind

/-! ### Own descriptors -/

/-- No registration fails, and no stream of the kill's snapshot is dropped before its turn. -/
def keepsSnapshot (event : ServerEvent) (server : Server) : Bool :=
  match event, server.kill with
  | .registerFail _, _ => false
  | .dropStream id, .shutting todo => todo.all (·.1 ≠ id)
  | _, _ => true

structure Kept (server : Server) : Prop where
  registered : ∀ (id : Nat) (connection : Connection), server.connections[id]? = some connection →
    connection.stage ≠ .unregistered ∧ connection.stage ≠ .forgotten
  snapshot : ∀ todo, server.kill = .shutting todo → ∀ id fd, (id, fd) ∈ todo →
    ∃ connection, server.connections[id]? = some connection ∧ connection.fd = fd ∧
      connection.stage.holds = true ∧ connection.stage ≠ .accepted
  shutdowns : ∀ owner ∈ server.shutdowns, ∃ id, owner = some (.connection id)

/-- The entries of the map are of connections that hold their stream and are past their first test. -/
theorem Kept.listed (h : server.Kept) (hsound : server.Sound) {id fd : Nat}
    (hentry : (id, fd) ∈ server.openConnections) :
    ∃ connection, server.connections[id]? = some connection ∧ connection.fd = fd ∧
      connection.stage.holds = true ∧ connection.stage ≠ .accepted := by
  obtain ⟨connection, hid, hlisted, hfd⟩ := (hsound.entries id fd).mp hentry
  obtain ⟨hunregistered, -⟩ := h.registered id connection hid
  refine ⟨connection, hid, hfd, ?_, ?_⟩
  · cases hstage : connection.stage <;> simp_all [Stage.listed, Stage.holds]
  · intro haccepted
    rw [haccepted] at hlisted
    cases hlisted

/-- A connection goes on, with its stream kept if the snapshot has it. -/
theorem Kept.change (h : server.Kept) {id : Nat} {connection : Connection} {stage : Stage}
    (hid : server.connections[id]? = some connection) (hunregistered : stage ≠ .unregistered)
    (hforgotten : stage ≠ .forgotten)
    (hkept : ∀ todo fd, server.kill = .shutting todo → (id, fd) ∈ todo →
      connection.stage.holds = true → connection.stage ≠ .accepted →
      stage.holds = true ∧ stage ≠ .accepted)
    {loops : Nat → AcceptLoop} {entries : List (Nat × Nat)} {descriptors : Nat → Option Owner}
    {inFlight : Nat} :
    Kept { server with
      loops := loops
      connections := server.connections.set id { connection with stage := stage }
      openConnections := entries
      descriptors := descriptors
      inFlight := inFlight } := by
  have hlookup := connections_set hid { connection with stage := stage }
  refine ⟨?_, ?_, h.shutdowns⟩
  · intro other found hfound
    rw [hlookup] at hfound
    split at hfound
    · cases hfound
      exact ⟨hunregistered, hforgotten⟩
    · exact h.registered other found hfound
  · intro todo hkill other fd hentry
    obtain ⟨found, hfound, hfd, hholds, haccepted⟩ := h.snapshot todo hkill other fd hentry
    show ∃ after, (server.connections.set id _)[other]? = some after ∧ _
    rw [hlookup]
    split
    case isTrue hother =>
      subst hother
      rw [hid] at hfound
      cases hfound
      exact ⟨_, rfl, hfd, hkept todo fd hkill hentry hholds haccepted⟩
    case isFalse => exact ⟨found, hfound, hfd, hholds, haccepted⟩

theorem Kept.stepKill (h : server.Kept) (hsound : server.Sound) {event : ServerEvent}
    (hstep : Server.stepKill event server = some server') : server'.Kept := by
  unfold Server.stepKill at hstep
  split at hstep
  case h_1 caller hkill =>
    cases hstep
    exact ⟨h.registered, by simp, h.shutdowns⟩
  case h_2 =>
    cases hstep
    exact h
  case h_3 expired caller hkill =>
    split at hstep
    case isTrue =>
      cases hstep
      refine ⟨h.registered, ?_, h.shutdowns⟩
      rintro _ ⟨⟩ id fd hentry
      exact h.listed hsound hentry
    case isFalse => cases hstep
  case h_4 id fd todo hkill =>
    cases hstep
    -- The descriptor is that of the connection the entry was made for.
    obtain ⟨connection, hid, hfd, hholds, -⟩ := h.snapshot _ hkill id fd (List.mem_cons_self ..)
    have howner := hsound.owners id connection hid hholds
    rw [hfd] at howner
    have hshutdown : server.shutdown fd = { server with
        shutdowns := some (.connection id) :: server.shutdowns
        connections := server.connections.set id { connection with shut := true } } := by
      unfold Server.shutdown
      simp only [howner, hid]
    have hlookup := connections_set hid { connection with shut := true }
    rw [hshutdown]
    refine ⟨?_, ?_, ?_⟩
    · intro other found hfound
      rw [hlookup] at hfound
      split at hfound
      case isTrue =>
        cases hfound
        exact h.registered id connection hid
      case isFalse => exact h.registered other found hfound
    · rintro _ ⟨⟩ other otherFd hentry
      obtain ⟨found, hfound, hkept⟩ :=
        h.snapshot _ hkill other otherFd (List.mem_cons_of_mem _ hentry)
      show ∃ after, (server.connections.set id _)[other]? = some after ∧ _
      rw [hlookup]
      split
      case isTrue hother =>
        subst hother
        rw [hid] at hfound
        cases hfound
        exact ⟨_, rfl, hkept⟩
      case isFalse => exact ⟨found, hfound, hkept⟩
    · intro owner hlogged
      rcases List.mem_cons.mp hlogged with rfl | hlogged
      · exact ⟨id, rfl⟩
      · exact h.shutdowns owner hlogged
  case h_5 hkill =>
    split at hstep
    case isTrue =>
      cases hstep
      exact ⟨h.registered, by simp, h.shutdowns⟩
    case isFalse => cases hstep
  case h_6 => cases hstep

theorem Kept.step (h : server.Kept) (hsound : server.Sound) {event : ServerEvent}
    (hallowed : keepsSnapshot event server = true)
    (hstep : Server.step event server = some server') : server'.Kept := by
  cases steps_of_step hstep with
  | accept loop fd descriptors _ _ =>
    have hlookup : ∀ (other : Nat) (found : Connection),
        (server.connections ++ [{ stage := .accepted, fd, shut := false }])[other]? = some found →
        found.stage = .accepted ∨ server.connections[other]? = some found := by
      intro other found
      grind
    refine ⟨?_, ?_, h.shutdowns⟩
    · intro other found hfound
      rcases hlookup other found hfound with haccepted | hfound
      · simp [haccepted]
      · exact h.registered other found hfound
    · intro todo hkill other otherFd hentry
      obtain ⟨found, hfound, hkept⟩ := h.snapshot todo hkill other otherFd hentry
      refine ⟨found, ?_, hkept⟩
      show (server.connections ++ _)[other]? = some found
      grind
  | quit => exact ⟨h.registered, h.snapshot, h.shutdowns⟩
  | inLoop loop id connection stage _ loops _ _ _ _ hid hgoes hinLoop _ _ =>
    refine h.change hid ?_ ?_ ?_ <;> generalize connection.stage = before at hgoes hinLoop ⊢ <;>
      cases hgoes <;> simp_all [Stage.holds, Stage.inLoop]
  | onFiber id connection stage event _ _ _ hid hgoes hinLoop hown =>
    have hregistered := (h.registered id connection hid).1
    refine h.change hid ?_ ?_ ?_
    · rintro rfl
      generalize connection.stage = before at hgoes
      cases hgoes
      simp [keepsSnapshot] at hallowed
    · rintro rfl
      generalize connection.stage = before at hgoes hregistered
      cases hgoes
      exact hregistered rfl
    · intro todo fd hkill hentry hholds haccepted
      have hdropped : ∀ other, event ≠ .dropStream other := by
        rintro other rfl
        obtain rfl := hown other rfl
        simp only [keepsSnapshot, hkill, List.all_eq_true, decide_eq_true_eq] at hallowed
        exact hallowed (other, fd) hentry rfl
      have hfailed : ∀ other, event ≠ .registerFail other := by
        rintro other rfl
        simp [keepsSnapshot] at hallowed
      generalize connection.stage = before at hgoes hregistered hholds haccepted
      cases hgoes <;> simp_all [Stage.holds]
  | elsewhere => exact ⟨h.registered, h.snapshot, h.shutdowns⟩
  | kill _ _ hkill => exact h.stepKill hsound hkill

theorem start_kept (listeners : Nat) : (start listeners).Kept := by
  refine ⟨?_, ?_, ?_⟩ <;> simp [start]

theorem sound_of_run {allowed : ServerEvent → Server → Prop} {listeners : Nat}
    (h : Run Server.step allowed (.start listeners) server) : server.Sound :=
  Run.invariant (start_sound listeners) (fun _ _ _ hs _ hstep => hs.step hstep) h

/-! ### Loops and their connections -/

/-- A connection up to `counted` is held by exactly one accept loop, of the server's listeners. -/
structure Manned (server : Server) : Prop where
  holder : ∀ loop id, server.loops loop = .holding id → loop < server.listeners ∧
    ∃ connection, server.connections[id]? = some connection ∧ connection.stage.inLoop = true
  distinct : ∀ loop other id, server.loops loop = .holding id → server.loops other = .holding id →
    loop = other
  manned : ∀ id connection, server.connections[id]? = some connection →
    connection.stage.inLoop = true → ∃ loop, server.loops loop = .holding id
  ended : server.kill = .returned → ∀ loop < server.listeners, server.loops loop = .ended

theorem Manned.shutdown (h : server.Manned) (fd : Nat) : (server.shutdown fd).Manned := by
  unfold Server.shutdown
  dsimp only
  split
  case h_1 id howner =>
    split
    case h_1 connection hid =>
      have hlookup := connections_set hid { connection with shut := true }
      refine ⟨?_, h.distinct, ?_, h.ended⟩
      · intro loop other hloop
        obtain ⟨hlt, found, hfound, hinLoop⟩ := h.holder loop other hloop
        refine ⟨hlt, ?_⟩
        simp only [hlookup]
        grind
      · intro other found hfound hinLoop
        simp only [hlookup] at hfound
        grind [h.manned other]
    case h_2 => exact ⟨h.holder, h.distinct, h.manned, h.ended⟩
  case h_2 => exact ⟨h.holder, h.distinct, h.manned, h.ended⟩

theorem Manned.stepKill (h : server.Manned) {event : ServerEvent}
    (hstep : Server.stepKill event server = some server') : server'.Manned := by
  unfold Server.stepKill at hstep
  split at hstep
  case h_1 =>
    cases hstep
    exact ⟨h.holder, h.distinct, h.manned, by simp⟩
  case h_2 =>
    cases hstep
    exact h
  case h_3 =>
    split at hstep
    case isTrue =>
      cases hstep
      exact ⟨h.holder, h.distinct, h.manned, by simp⟩
    case isFalse => cases hstep
  case h_4 id fd todo hkill =>
    cases hstep
    have hshut := h.shutdown fd
    exact ⟨hshut.holder, hshut.distinct, hshut.manned, by simp⟩
  case h_5 =>
    split at hstep
    case isTrue hended =>
      cases hstep
      refine ⟨h.holder, h.distinct, h.manned, fun _ loop hlt => ?_⟩
      simpa using List.all_eq_true.mp hended loop (List.mem_range.mpr hlt)
    case isFalse => cases hstep
  case h_6 => cases hstep

theorem Manned.step (h : server.Manned) {event : ServerEvent}
    (hstep : Server.step event server = some server') : server'.Manned := by
  cases steps_of_step hstep with
  | accept loop fd descriptors hlt hwaiting =>
    have hnew : ∀ other, server.loops other ≠ .holding server.connections.length := by
      intro other hother
      obtain ⟨-, found, hfound, -⟩ := h.holder other _ hother
      simp at hfound
    have hended := h.ended
    refine ⟨?_, ?_, ?_, ?_⟩
    · intro other id hother
      simp only [Server.setLoop, Function.update_apply] at hother ⊢
      split at hother
      case isTrue hsame =>
        subst hsame
        cases hother
        exact ⟨hlt, _, List.getElem?_concat_length, rfl⟩
      case isFalse =>
        obtain ⟨hlt, found, hfound, hinLoop⟩ := h.holder other id hother
        refine ⟨hlt, found, ?_, hinLoop⟩
        grind
    · intro one other id hone hother
      have hdistinct := h.distinct one other id
      simp only [Server.setLoop, Function.update_apply] at hone hother
      grind
    · intro id found hfound hinLoop
      have hmanned := h.manned id found
      simp only [Server.setLoop, Function.update_apply]
      grind
    · intro hkill other hlt
      simp only [Server.setLoop, Function.update_apply] at hkill ⊢
      grind
  | quit loop hwaiting =>
    refine ⟨?_, ?_, ?_, ?_⟩
    · intro other id hother
      have hholder := h.holder other id
      simp only [Server.setLoop, Function.update_apply] at hother ⊢
      grind
    · intro one other id hone hother
      have hdistinct := h.distinct one other id
      simp only [Server.setLoop, Function.update_apply] at hone hother
      grind
    · intro id found hfound hinLoop
      obtain ⟨other, hother⟩ := h.manned id found hfound hinLoop
      refine ⟨other, ?_⟩
      simp only [Server.setLoop, Function.update_apply]
      grind
    · intro hkill other hlt
      have hended := h.ended hkill other hlt
      simp only [Server.setLoop, Function.update_apply]
      grind
  | inLoop loop id connection stage _ loops _ _ _ hloop hid hgoes hinLoop hothers hstate =>
    have hlookup := connections_set hid { connection with stage := stage }
    refine ⟨?_, ?_, ?_, ?_⟩
    · intro other otherId hother
      have hholder := h.holder other otherId
      have hsame := hothers other
      have hdistinct := h.distinct other loop id
      simp only [hlookup] at hother ⊢
      grind
    · intro one other otherId hone hother
      have hdistinct := h.distinct
      simp only at hone hother
      grind
    · intro other found hfound hfoundInLoop
      simp only [hlookup] at hfound ⊢
      have hmanned := h.manned other found
      grind
    · intro hkill other hlt
      have hended := h.ended hkill
      have hholder := h.holder loop id hloop
      grind
  | onFiber id connection stage _ _ _ _ hid hgoes hinLoop =>
    have hlookup := connections_set hid { connection with stage := stage }
    have hstays : stage.inLoop = false := by
      generalize connection.stage = before at hgoes hinLoop
      cases hgoes <;> first | rfl | cases hinLoop
    refine ⟨?_, h.distinct, ?_, h.ended⟩
    · intro loop other hloop
      obtain ⟨hlt, found, hfound, hfoundInLoop⟩ := h.holder loop other hloop
      refine ⟨hlt, ?_⟩
      simp only [hlookup]
      grind
    · intro other found hfound hfoundInLoop
      have hmanned := h.manned other found
      simp only [hlookup] at hfound
      grind
  | elsewhere => exact ⟨h.holder, h.distinct, h.manned, h.ended⟩
  | kill _ _ hkill => exact h.stepKill hkill

theorem start_manned (listeners : Nat) : (start listeners).Manned := by
  refine ⟨?_, ?_, ?_, ?_⟩ <;> simp [start]

/-! ### The kill -/

/-- A kill starts while no accept loop is between its test of `stopping` and the placement, and takes
its snapshot while no handler is between the two halves of a close. -/
def orderly (event : ServerEvent) (server : Server) : Bool :=
  match event, server.kill with
  | .kill _, .none => server.connections.all fun connection => !connection.stage.entering
  | .snapshot _, _ => server.connections.all fun connection => connection.stage ≠ .closing
  | _, _ => true

/-- The entries a kill has yet to shut down, once it has its snapshot. -/
def Kill.todo : Kill → Option (List (Nat × Nat))
  | .shutting todo => some todo
  | .returned => some []
  | _ => none

structure Settled (server : Server) : Prop where
  admitted : server.stopping = true → ∀ connection ∈ server.connections,
    connection.stage.entering = false
  reached : ∀ todo, Kill.todo server.kill = some todo → ∀ (id : Nat) (connection : Connection),
    server.connections[id]? = some connection → connection.stage.exposed = true →
    connection.shut = true ∨ (id, connection.fd) ∈ todo

/-- A shutdown goes to the connection that has the descriptor, and changes nothing else of any. -/
theorem shutdown_connection {fd id : Nat} {after : Connection}
    (h : (server.shutdown fd).connections[id]? = some after) :
    ∃ connection, server.connections[id]? = some connection ∧
      after = { connection with
        shut := connection.shut || decide (server.descriptors fd = some (.connection id)) } := by
  unfold Server.shutdown at h
  dsimp only at h
  split at h
  case h_1 owner howner =>
    split at h
    case h_1 connection hid =>
      rw [connections_set hid] at h
      split at h
      case isTrue hsame =>
        subst hsame
        cases h
        exact ⟨connection, hid, by simp [howner]⟩
      case isFalse hother => exact ⟨after, h, by simp [howner, Ne.symm hother]⟩
    case h_2 hnone =>
      refine ⟨after, h, ?_⟩
      have hother : owner ≠ id := by
        rintro rfl
        rw [hnone] at h
        cases h
      simp [howner, hother]
  case h_2 hother =>
    refine ⟨after, h, ?_⟩
    have hnot : server.descriptors fd ≠ some (.connection id) := hother id
    simp [hnot]

/-- A connection goes on, not exposed anew once the snapshot is taken. -/
theorem Settled.change (h : server.Settled) {id : Nat} {connection : Connection} {stage : Stage}
    (hid : server.connections[id]? = some connection)
    (hentering : server.stopping = true → connection.stage.entering = false →
      stage.entering = false)
    (hexposed : server.kill ≠ .none → stage.exposed = true → connection.stage.exposed = true)
    {loops : Nat → AcceptLoop} {entries : List (Nat × Nat)} {descriptors : Nat → Option Owner}
    {inFlight : Nat} :
    Settled { server with
      loops := loops
      connections := server.connections.set id { connection with stage := stage }
      openConnections := entries
      descriptors := descriptors
      inFlight := inFlight } := by
  have hlookup := connections_set hid { connection with stage := stage }
  refine ⟨?_, ?_⟩
  · intro hstopping found hfound
    rcases List.mem_or_eq_of_mem_set hfound with hfound | rfl
    · exact h.admitted hstopping found hfound
    · exact hentering hstopping (h.admitted hstopping connection (List.mem_of_getElem? hid))
  · intro todo htodo other found hfound hfoundExposed
    have hkill : server.kill ≠ .none := by
      intro hnone
      simp [hnone, Kill.todo] at htodo
    rw [hlookup] at hfound
    split at hfound
    case isTrue hother =>
      cases hfound
      subst hother
      exact h.reached todo htodo other connection hid (hexposed hkill hfoundExposed)
    case isFalse => exact h.reached todo htodo other found hfound hfoundExposed

theorem Settled.stepKill (h : server.Settled) (hsound : server.Sound) {event : ServerEvent}
    (hallowed : orderly event server = true)
    (hstep : Server.stepKill event server = some server') : server'.Settled := by
  unfold Server.stepKill at hstep
  split at hstep
  case h_1 caller hkill =>
    cases hstep
    refine ⟨?_, by simp [Kill.todo]⟩
    intro _ connection hconnection
    simp only [orderly, hkill, List.all_eq_true] at hallowed
    simpa using hallowed connection hconnection
  case h_2 =>
    cases hstep
    exact h
  case h_3 expired caller hkill =>
    split at hstep
    case isTrue =>
      cases hstep
      refine ⟨h.admitted, ?_⟩
      rintro _ ⟨⟩ id connection hid hexposed
      -- Whatever is exposed and not being closed is in the map, so in the snapshot.
      have hclosing : connection.stage ≠ .closing := by
        simp only [orderly, List.all_eq_true] at hallowed
        simpa using hallowed connection (List.mem_of_getElem? hid)
      refine .inr ((hsound.entries id connection.fd).mpr ⟨connection, hid, ?_, rfl⟩)
      cases hstage : connection.stage <;> simp_all [Stage.exposed, Stage.listed]
    case isFalse => cases hstep
  case h_4 id fd todo hkill =>
    cases hstep
    refine ⟨?_, ?_⟩
    · intro hstopping after hafter
      obtain ⟨other, hother⟩ := List.getElem?_of_mem hafter
      obtain ⟨connection, hid, rfl⟩ := shutdown_connection hother
      rw [shutdown_stopping] at hstopping
      exact h.admitted hstopping connection (List.mem_of_getElem? hid)
    · rintro _ ⟨⟩ other after hafter hexposed
      obtain ⟨connection, hother, rfl⟩ := shutdown_connection hafter
      have hreached := h.reached _ (by rw [hkill]; rfl) other connection hother hexposed
      rcases hreached with hshut | hentry
      · exact .inl (by simp [hshut])
      rcases List.mem_cons.mp hentry with hhead | hentry
      · -- It is the connection's turn, and it still has its descriptor.
        cases hhead
        have howner := hsound.owners id connection hother
          (by cases hstage : connection.stage <;> simp_all [Stage.exposed, Stage.holds])
        exact .inl (by simp [howner])
      · exact .inr hentry
  case h_5 hkill =>
    split at hstep
    case isTrue =>
      cases hstep
      refine ⟨h.admitted, ?_⟩
      rintro _ ⟨⟩ id connection hid hexposed
      exact h.reached [] (by rw [hkill]; rfl) id connection hid hexposed
    case isFalse => cases hstep
  case h_6 => cases hstep

theorem Settled.step (h : server.Settled) (hsound : server.Sound) {event : ServerEvent}
    (hallowed : orderly event server = true)
    (hstep : Server.step event server = some server') : server'.Settled := by
  cases steps_of_step hstep with
  | accept loop fd descriptors _ _ =>
    refine ⟨?_, ?_⟩
    · intro hstopping found hfound
      rcases List.mem_append.mp hfound with hfound | hfound
      · exact h.admitted hstopping found hfound
      · obtain rfl := List.mem_singleton.mp hfound
        rfl
    · intro todo htodo other found hfound hexposed
      have hreached := h.reached todo htodo other found
      simp only at hfound
      grind [Stage.exposed]
  | quit => exact ⟨h.admitted, h.reached⟩
  | inLoop loop id connection stage _ loops _ _ _ _ hid hgoes hinLoop _ _ =>
    have hadmitted : server.stopping = true → connection.stage.entering = false := fun hstopping =>
      h.admitted hstopping connection (List.mem_of_getElem? hid)
    have hstopped := hsound.stopped
    refine h.change hid ?_ ?_ <;>
      generalize connection.stage = before at hgoes hinLoop hadmitted ⊢ <;>
      cases hgoes <;> simp_all [Stage.entering, Stage.exposed]
  | onFiber id connection stage event _ _ _ hid hgoes hinLoop hown =>
    refine h.change hid ?_ ?_ <;> generalize connection.stage = before at hgoes hinLoop ⊢ <;>
      cases hgoes <;> simp_all [Stage.entering, Stage.exposed, Stage.inLoop]
  | elsewhere => exact ⟨h.admitted, h.reached⟩
  | kill _ _ hkill => exact h.stepKill hsound hallowed hkill

theorem start_settled (listeners : Nat) : (start listeners).Settled := by
  refine ⟨?_, ?_⟩ <;> simp [start]

/-- A connection that leaves `in_flight` was counted. -/
theorem Sound.discount (h : server.Sound) {id : Nat}
    (hstep : Server.step (.discount id) server = some server') :
    server'.inFlight + 1 = server.inFlight := by
  simp only [Server.step, Server.stepFiber] at hstep
  split at hstep
  case h_1 connection hid =>
    obtain ⟨stage, hstage, rfl⟩ := Option.map_eq_some_iff.mp hstep
    have hpos := h.inFlight_pos hid (Stage.inFlight_of_afterDiscount hstage)
    show server.inFlight - 1 + 1 = server.inFlight
    omega
  case h_2 => cases hstep

/-- A connection that is placed was let in before the kill. -/
theorem Settled.place (h : server.Settled) {loop : Nat}
    (hstep : Server.step (.place loop) server = some server') : server.stopping = false := by
  cases hstopping : server.stopping with
  | false => rfl
  | true =>
    simp only [Server.step, Server.stepLoop] at hstep
    split at hstep
    case h_1 id connection hheld =>
      have hid := (held_eq hheld).2
      have hentering := h.admitted hstopping connection (List.mem_of_getElem? hid)
      split at hstep
      case isTrue hstage =>
        rw [hstage] at hentering
        cases hentering
      case isFalse => cases hstep
    case h_2 => cases hstep

/-- Once the kill has returned, whatever is live has its stream closed or shut down. -/
theorem Settled.returned (h : server.Settled) (hsound : server.Sound) (hmanned : server.Manned)
    (hkill : server.kill = .returned) {connection : Connection}
    (hconnection : connection ∈ server.connections) (hlive : connection.stage.live = true) :
    connection.stage = .closed ∨ connection.shut = true := by
  obtain ⟨id, hid⟩ := List.getElem?_of_mem hconnection
  have hstopping : server.stopping = true := hsound.stopped.mpr (by simp [hkill])
  have hentering := h.admitted hstopping connection hconnection
  have hreached := h.reached [] (by rw [hkill]; rfl) id connection hid
  -- Every accept loop has ended, so none holds it.
  have hinLoop : connection.stage.inLoop = false := by
    cases hinLoop : connection.stage.inLoop with
    | false => rfl
    | true =>
      obtain ⟨loop, hloop⟩ := hmanned.manned id connection hid hinLoop
      have hended := hmanned.ended hkill loop (hmanned.holder loop id hloop).1
      rw [hended] at hloop
      cases hloop
  cases hstage : connection.stage <;>
    simp_all [Stage.live, Stage.entering, Stage.exposed, Stage.inLoop]

end Server

/-- Anything but the kill of a single connection. -/
def killsOnlyServers (event : ServerEvent) (_ : Server) : Bool :=
  match event with
  | .kill (some _) => false
  | _ => true

/-- In a run in which no registration fails and no stream of a kill's snapshot is dropped before its
turn, every entry of the map names an open descriptor of its own connection, and every shutdown goes
to a descriptor that one of the server's connections has. -/
theorem shutdown_own_connections {listeners : Nat} {server : Server}
    (h : Run Server.step (fun event server => Server.keepsSnapshot event server = true)
      (.start listeners) server) :
    (∀ id fd, (id, fd) ∈ server.openConnections →
      server.descriptors fd = some (.connection id)) ∧
    (∀ owner ∈ server.shutdowns, ∃ id, owner = some (.connection id)) := by
  have hsound := Server.sound_of_run h
  have hkept := Run.strengthen (fun _ => Server.sound_of_run) (Server.start_kept listeners)
    (fun _ _ _ hsound hs hallowed hstep => hs.step hsound hallowed hstep) h
  refine ⟨?_, hkept.shutdowns⟩
  intro id fd hentry
  obtain ⟨connection, hid, rfl, hholds, -⟩ := hkept.listed hsound hentry
  exact hsound.owners id connection hid hholds

/-- One connection closed before the kill, its descriptor with the next one. -/
theorem reused_descriptor_shut_down :
    ∃ server, follow Server.step Server.keepsSnapshot
        [.accept 0 7, .test 0, .insert 0, .count 0, .place 0, .register 0 false, .close 0,
          .dropStream 0, .accept 0 7, .test 0, .insert 0, .count 0, .place 0, .kill none,
          .snapshot true, .shutNext] (.start 1) = some server ∧
      server.descriptors 7 = some (.connection 1) ∧
      ∀ owner ∈ server.shutdowns, ∃ id, owner = some (.connection id) := by
  obtain ⟨server, hserver⟩ : ∃ server, follow Server.step Server.keepsSnapshot
      [.accept 0 7, .test 0, .insert 0, .count 0, .place 0, .register 0 false, .close 0,
        .dropStream 0, .accept 0 7, .test 0, .insert 0, .count 0, .place 0, .kill none,
        .snapshot true, .shutNext] (.start 1) = some server := ⟨_, rfl⟩
  have hown := shutdown_own_connections (.of_follow (fun _ _ h => h) .start hserver)
  refine ⟨server, hserver, hown.1 1 7 ?_, hown.2⟩
  cases hserver
  exact List.mem_cons_self ..

/-- A handler returns between the snapshot and its turn: its descriptor is closed, something else in
the process opens it, and is shut down. -/
theorem shutdown_hits_other :
    ¬∀ listeners server, Server.Reaches listeners server →
      (∀ id fd, (id, fd) ∈ server.openConnections →
        server.descriptors fd = some (.connection id)) ∧
      (∀ owner ∈ server.shutdowns, ∃ id, owner = some (.connection id)) := by
  intro hclaim
  obtain ⟨server, hserver⟩ : ∃ server, follow Server.step (fun _ _ => true)
      [.accept 0 7, .test 0, .insert 0, .count 0, .place 0, .register 0 false, .kill none,
        .snapshot true, .handlerReturn 0, .remove 0, .dropStream 0, .otherOpen 7, .shutNext]
      (.start 1) = some server := ⟨_, rfl⟩
  have hreaches : Server.Reaches 1 server := .of_follow (fun _ _ _ => trivial) .start hserver
  have hown := (hclaim 1 server hreaches).2
  cases hserver
  obtain ⟨id, hid⟩ := hown (some .other) (List.mem_cons_self ..)
  cases hid

end Quilon.Runtime
