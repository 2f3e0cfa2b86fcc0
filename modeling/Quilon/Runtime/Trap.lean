import Quilon.Library.Transition
import Mathlib.Data.List.Basic
import Mathlib.Logic.Function.Basic

/-!
# The signal trap

`quilon-rt/src/trap.rs`: `handle_signal`, which any thread runs at any instruction, and the
dispatcher with the runs of the arms, which are fibers of the one worker that installed the trap and
give way to each other at parks only.  One step is one access to an atomic or to the pipe.

A value in `pending_pid` or `pending_uid` comes with the number of the delivery that stored it,
which the code does not keep.  `deliveries` and `runs` are not in the code either: every delivery so
far, in the order of their first stores, and every run so far, in the order they were spawned.
-/

namespace Quilon.Runtime

namespace SignalTrap

/-- `TRAP_SIGNALS`, with the numbers of Linux. -/
def trapSignals : List Nat := [1, 2, 3, 15, 14, 10, 12]

/-- What the pipe holds at most; a write to a full pipe is dropped. -/
def pipeCapacity : Nat := 65536

/-- A value and the delivery that stored it. -/
structure Stored where
  value : Int
  delivery : Nat
deriving DecidableEq

structure Slot where
  running : Bool
  pending : Bool
  pendingPid : Stored
  pendingUid : Stored
  handler : Nat

def emptySlot : Slot where
  running := false
  pending := false
  pendingPid := ⟨0, 0⟩
  pendingUid := ⟨0, 0⟩
  handler := 0

/-- What a call of `handle_signal` has done. -/
inductive Progress where
  | storedPid
  | storedUid
  | storedPending
  | returned
deriving DecidableEq

/-- A signal that arrived from the process `pid` of the user `uid`.  `runsBefore` is how many runs
there had been when its `pending` was stored. -/
structure Delivery where
  index : Nat
  pid : Int
  uid : Int
  progress : Progress
  runsBefore : Nat

inductive Phase where
  | spawned
  | inArm
  | returned
deriving DecidableEq

/-- A run of the arm of a signal. -/
structure ArmRun where
  index : Nat
  arm : Nat
  pid : Stored
  uid : Stored
  phase : Phase

def ArmRun.inProgress (run : ArmRun) : Bool :=
  run.phase ≠ .returned

/-- Where the worker is in `run_dispatcher`, in `dispatch_if_idle` or in the end of a run. -/
inductive Activity where
  /-- the dispatcher is parked, and any other fiber runs -/
  | elsewhere
  | drain
  | loadRunning (index : Nat)
  | swapPending (index : Nat)
  | storeRunning (index : Nat)
  | loadPid (index : Nat)
  | loadUid (index : Nat) (pid : Stored)
  | spawnRun (index : Nat) (pid uid : Stored)
  /-- the arm has returned -/
  | clearRunning (index : Nat)
  | swapAgain (index : Nat)
  | loadPidAgain (index : Nat)
  | loadUidAgain (index : Nat) (pid : Stored)
  | storeRunningAgain (index : Nat) (pid uid : Stored)
  | spawnAgain (index : Nat) (pid uid : Stored)

end SignalTrap

structure SignalTrap where
  slots : Nat → SignalTrap.Slot
  /-- `PIPE_WRITE_FD` is a descriptor -/
  piped : Bool
  /-- the bytes in the self-pipe -/
  pipe : Nat
  deliveries : List SignalTrap.Delivery
  activity : SignalTrap.Activity
  runs : List SignalTrap.ArmRun

namespace SignalTrap

def start : SignalTrap where
  slots _ := emptySlot
  piped := false
  pipe := 0
  deliveries := []
  activity := .elsewhere
  runs := []

inductive Event where
  /-- `__trap_install` -/
  | install (index arm : Nat)
  /-- `handle_signal` is called, and stores `pending_pid` -/
  | deliver (signal : Nat) (pid uid : Int)
  /-- the next step of a call of `handle_signal` -/
  | handle (delivery : Nat)
  /-- the dispatcher goes on from its park -/
  | wake
  /-- the next step of the dispatcher or of the end of a run -/
  | work
  /-- a run calls its arm -/
  | enterArm (run : Nat)
  | returnArm (run : Nat)

def setSlot (trap : SignalTrap) (index : Nat) (slot : Slot) : SignalTrap :=
  { trap with slots := Function.update trap.slots index slot }

/-- `__trap_install` of an arm, which is never at address 0. -/
def install (index arm : Nat) (trap : SignalTrap) : Option SignalTrap :=
  if index < trapSignals.length ∧ 0 < arm then
    some { trap.setSlot index { trap.slots index with handler := arm } with piped := true }
  else none

/-- The first step of `handle_signal`, which `sigaction` installs after the handler is stored. -/
def deliver (signal : Nat) (pid uid : Int) (trap : SignalTrap) : Option SignalTrap :=
  match trapSignals.idxOf? signal with
  | none => some trap
  | some index =>
    let slot := trap.slots index
    if slot.handler = 0 then none
    else
      let stored : Stored := ⟨pid, trap.deliveries.length⟩
      some { trap.setSlot index { slot with pendingPid := stored } with
        deliveries := trap.deliveries ++ [⟨index, pid, uid, .storedPid, trap.runs.length⟩] }

def setDelivery (trap : SignalTrap) (number : Nat) (delivery : Delivery) : SignalTrap :=
  { trap with deliveries := trap.deliveries.set number delivery }

/-- The later steps of `handle_signal`. -/
def handle (number : Nat) (trap : SignalTrap) : Option SignalTrap :=
  match trap.deliveries[number]? with
  | none => none
  | some delivery =>
    let slot := trap.slots delivery.index
    match delivery.progress with
    | .storedPid =>
      let stored : Stored := ⟨delivery.uid, number⟩
      some ((trap.setSlot delivery.index { slot with pendingUid := stored }).setDelivery number
        { delivery with progress := .storedUid })
    | .storedUid =>
      some ((trap.setSlot delivery.index { slot with pending := true }).setDelivery number
        { delivery with progress := .storedPending, runsBefore := trap.runs.length })
    | .storedPending =>
      let written := if trap.piped then min (trap.pipe + 1) pipeCapacity else trap.pipe
      some { trap.setDelivery number { delivery with progress := .returned } with pipe := written }
    | .returned => none

/-- The dispatcher goes on to the next signal, or parks again. -/
def nextIndex (index : Nat) : Activity :=
  if index + 1 < trapSignals.length then .loadRunning (index + 1) else .elsewhere

/-- `spawn_run`: the run's fiber, with the arm as it is installed now, is queued on this worker. -/
def spawnRun (index : Nat) (pid uid : Stored) (next : Activity) (trap : SignalTrap) : SignalTrap :=
  let arm := (trap.slots index).handler
  { trap with runs := trap.runs ++ [⟨index, arm, pid, uid, .spawned⟩], activity := next }

/-- The next step of `run_dispatcher`, `dispatch_if_idle` or the end of a run. -/
def work (trap : SignalTrap) : Option SignalTrap :=
  match trap.activity with
  | .elsewhere => none
  | .drain =>
    -- one read takes up to 64 bytes, and the one that finds none ends the drain
    if trap.pipe = 0 then some { trap with activity := .loadRunning 0 }
    else some { trap with pipe := trap.pipe - 64 }
  | .loadRunning index =>
    if (trap.slots index).running then some { trap with activity := nextIndex index }
    else some { trap with activity := .swapPending index }
  | .swapPending index =>
    let slot := trap.slots index
    if slot.pending then
      some { trap.setSlot index { slot with pending := false } with
        activity := .storeRunning index }
    else some { trap with activity := nextIndex index }
  | .storeRunning index =>
    let slot := trap.slots index
    some { trap.setSlot index { slot with running := true } with activity := .loadPid index }
  | .loadPid index =>
    some { trap with activity := .loadUid index (trap.slots index).pendingPid }
  | .loadUid index pid =>
    some { trap with activity := .spawnRun index pid (trap.slots index).pendingUid }
  | .spawnRun index pid uid => some (spawnRun index pid uid (nextIndex index) trap)
  | .clearRunning index =>
    let slot := trap.slots index
    some { trap.setSlot index { slot with running := false } with activity := .swapAgain index }
  | .swapAgain index =>
    let slot := trap.slots index
    if slot.pending then
      some { trap.setSlot index { slot with pending := false } with
        activity := .loadPidAgain index }
    else some { trap with activity := .elsewhere }
  | .loadPidAgain index =>
    some { trap with activity := .loadUidAgain index (trap.slots index).pendingPid }
  | .loadUidAgain index pid =>
    some { trap with activity := .storeRunningAgain index pid (trap.slots index).pendingUid }
  | .storeRunningAgain index pid uid =>
    let slot := trap.slots index
    some { trap.setSlot index { slot with running := true } with
      activity := .spawnAgain index pid uid }
  | .spawnAgain index pid uid => some (spawnRun index pid uid .elsewhere trap)

/-- The worker leaves a run's fiber in `phase`. -/
def setPhase (number : Nat) (run : ArmRun) (phase : Phase) (next : Activity) (trap : SignalTrap) :
    SignalTrap :=
  { trap with runs := trap.runs.set number { run with phase := phase }, activity := next }

def step (event : Event) (trap : SignalTrap) : Option SignalTrap :=
  match event with
  | .install index arm => trap.install index arm
  | .deliver signal pid uid => trap.deliver signal pid uid
  | .handle number => trap.handle number
  | .work => trap.work
  | .wake =>
    match trap.activity with
    | .elsewhere => if trap.piped then some { trap with activity := .drain } else none
    | _ => none
  | .enterArm number =>
    match trap.activity, trap.runs[number]? with
    | .elsewhere, some run =>
      if run.phase ≠ .spawned then none
      -- with no arm the run goes straight to its end
      else if run.arm = 0 then
        some (trap.setPhase number run .returned (.clearRunning run.index))
      else some (trap.setPhase number run .inArm .elsewhere)
    | _, _ => none
  | .returnArm number =>
    match trap.activity, trap.runs[number]? with
    | .elsewhere, some run =>
      if run.phase = .inArm then
        some (trap.setPhase number run .returned (.clearRunning run.index))
      else none
    | _, _ => none

def Reaches : SignalTrap → Prop :=
  Reachable step start

end SignalTrap

end Quilon.Runtime
