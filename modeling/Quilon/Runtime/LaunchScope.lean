import Quilon.Library.Transition
import Mathlib.Data.List.Basic
import Mathlib.Logic.Function.Basic

/-!
# Launch scopes by fiber id

`quilon-rt/src/launch_scope.rs`: the map from a fiber's id to the scopes it has open, and what a join
and a strict force of a faulted value do with it.  A key is in the map exactly while its stack is not
empty, so no entry and an empty stack are the same here; the innermost scope is first.

An activation is one body that runs under an id: a fiber, or a guard's body.  Its id is free before
and after and may be taken again.  A body that returns has closed its scopes, for compiled code joins
each block it enters; a body that a guard abandons has not.  `opened` is not in the code: the scopes
the activation itself has opened and not joined, with the launches it has made in each.
-/

namespace Quilon.Runtime

/-- Where an activation is: in its own code, settling the scope of a block it closes (`own` are the
launches of that scope), settling everything it has open after a strict force of a fault, or at the
exit that follows. -/
inductive ScopePhase where
  | running
  | joining (own todo done : List Nat) (faults : List String)
  | faulting (report : String) (todo : List Nat) (faults : List String)
  | exiting

structure Activation where
  opened : List (List Nat)
  phase : ScopePhase

/-- `joined` has, for each join that is done, the launches of the block and those it settled;
`reported`, for each strict force that found a fault, the value's own report and what was written. -/
structure Registry where
  scopes : Nat → List (List Nat)
  activations : Nat → Option Activation
  launched : Nat
  /-- `none` while the launch is pending, then its fault, if it has one -/
  outcomes : Nat → Option (Option String)
  joined : List (List Nat × List Nat)
  reported : List (String × List String)
  unreachable : Bool

def Registry.start : Registry where
  scopes _ := []
  activations _ := none
  launched := 0
  outcomes _ := none
  joined := []
  reported := []
  unreachable := false

inductive ScopeEvent where
  | start (id : Nat)
  | finish (id : Nat)
  | abandon (id : Nat)
  | enter (id : Nat)
  /-- a launch, and its `register` -/
  | launch (id : Nat)
  | join (id : Nat)
  | force (id launch : Nat)
  /-- one turn of `settle_all` -/
  | settleNext (id : Nat)
  /-- `exit_on_faults`, once all has settled -/
  | close (id : Nat)
  /-- a producer is done -/
  | resolve (launch : Nat) (fault : Option String)

namespace Registry

def setActivation (registry : Registry) (id : Nat) (activation : Option Activation) : Registry :=
  { registry with activations := Function.update registry.activations id activation }

def setScopes (registry : Registry) (id : Nat) (stack : List (List Nat)) : Registry :=
  { registry with scopes := Function.update registry.scopes id stack }

/-- Adds a launch to the innermost scope, if there is one. -/
def addTo (launch : Nat) : List (List Nat) → List (List Nat)
  | [] => []
  | scope :: stack => (scope ++ [launch]) :: stack

/-- The step of an activation that is in its own code. -/
def stepRunning (id : Nat) (activation : Activation) (event : ScopeEvent) (registry : Registry) :
    Option Registry :=
  let stack := registry.scopes id
  match event with
  | .finish _ =>
    if activation.opened.isEmpty then some (registry.setActivation id none) else none
  | .enter _ =>
    some ((registry.setScopes id ([] :: stack)).setActivation id
      (some { activation with opened := [] :: activation.opened }))
  | .launch _ =>
    let launch := registry.launched
    some { (registry.setScopes id (addTo launch stack)).setActivation id
        (some { activation with opened := addTo launch activation.opened }) with
      launched := launch + 1 }
  | .join _ =>
    -- compiled code joins only a block it has entered
    match activation.opened, stack with
    | own :: opened, scope :: rest =>
      some ((registry.setScopes id rest).setActivation id
        (some { opened := opened, phase := .joining own scope [] [] }))
    | _, _ => none
  | .force _ launch =>
    match registry.outcomes launch with
    | some (some report) =>
      let phase := match stack with
        | [] => ScopePhase.faulting report [] [report]
        | _ :: _ => .faulting report stack.flatten []
      some ((registry.setScopes id []).setActivation id (some { opened := [], phase := phase }))
    | some none => some registry
    | none => none
  | _ => none

/-- The step of an activation that settles. -/
def stepSettling (id : Nat) (activation : Activation) (event : ScopeEvent) (registry : Registry) :
    Option Registry :=
  match event, activation.phase with
  | .settleNext _, .joining own (launch :: todo) done faults =>
    (registry.outcomes launch).map fun fault =>
      registry.setActivation id (some { activation with
        phase := .joining own todo (done ++ [launch]) (faults ++ fault.toList) })
  | .settleNext _, .faulting report (launch :: todo) faults =>
    (registry.outcomes launch).map fun fault =>
      registry.setActivation id (some { activation with
        phase := .faulting report todo (faults ++ fault.toList) })
  | .close _, .joining own [] done faults =>
    some { registry.setActivation id (some { activation with
        phase := if faults.isEmpty then .running else .exiting }) with
      joined := (own, done) :: registry.joined }
  | .close _, .faulting report [] faults =>
    if faults.isEmpty then some { registry with unreachable := true }
    else
      some { registry.setActivation id (some { activation with phase := .exiting }) with
        reported := (report, faults) :: registry.reported }
  | _, _ => none

def stepActivation (id : Nat) (event : ScopeEvent) (registry : Registry) : Option Registry :=
  match registry.activations id with
  | some activation =>
    match activation.phase with
    | .running => registry.stepRunning id activation event
    | _ => registry.stepSettling id activation event
  | none => none

def step (event : ScopeEvent) (registry : Registry) : Option Registry :=
  if registry.unreachable then none
  else
    match event with
    | .start id =>
      match registry.activations id with
      | none => some (registry.setActivation id (some { opened := [], phase := .running }))
      | some _ => none
    | .abandon id =>
      -- `force_reset`: nothing on the body's stack runs
      (registry.activations id).map fun _ => registry.setActivation id none
    | .resolve launch fault =>
      match registry.outcomes launch with
      | none =>
        if launch < registry.launched then
          some { registry with outcomes := Function.update registry.outcomes launch (some fault) }
        else none
      | some _ => none
    | .finish id | .enter id | .launch id | .join id | .force id _ | .settleNext id | .close id =>
      registry.stepActivation id event

def Reaches : Registry → Prop :=
  Reachable step .start

end Registry

end Quilon.Runtime
