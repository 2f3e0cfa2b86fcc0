import Mathlib.Logic.Basic

/-!
# Runs of a transition system

A system is a partial step function on states, labelled by actions.  A run may be restricted to
the steps that a condition allows: a property of restricted runs is the shape of every statement
of the form "as long as such a step is not taken, such a state is not reached".

Main results:

* `Run.invariant` — what holds at the start and is kept by the allowed steps holds in every state
  of a run;
* `Run.strengthen` — the same, where a step may use what is already known of every state reached;
* `Run.mono` — a run under a condition is a run under a weaker one;
* `Run.of_follow` — steps that were computed are steps of a run.
-/

namespace Quilon

variable {State Action : Type*}

/-- The states reached from `start` by steps that meet `allowed`. -/
inductive Run (step : Action → State → Option State) (allowed : Action → State → Prop)
    (start : State) : State → Prop where
  | start : Run step allowed start start
  | next {s s' : State} (a : Action) : Run step allowed start s → allowed a s →
      step a s = some s' → Run step allowed start s'

/-- The states reached from `start` by any steps. -/
def Reachable (step : Action → State → Option State) (start : State) : State → Prop :=
  Run step (fun _ _ => True) start

variable {step : Action → State → Option State} {allowed weaker : Action → State → Prop}
  {start s : State}

namespace Run

theorem invariant {Inv : State → Prop} (hstart : Inv start)
    (hstep : ∀ a s s', Inv s → allowed a s → step a s = some s' → Inv s')
    (h : Run step allowed start s) : Inv s := by
  induction h with
  | start => exact hstart
  | next a _ hallowed hs ih => exact hstep a _ _ ih hallowed hs

theorem strengthen {Known Inv : State → Prop} (hknown : ∀ s, Run step allowed start s → Known s)
    (hstart : Inv start)
    (hstep : ∀ a s s', Known s → Inv s → allowed a s → step a s = some s' → Inv s')
    (h : Run step allowed start s) : Inv s := by
  induction h with
  | start => exact hstart
  | next a hrun hallowed hs ih => exact hstep a _ _ (hknown _ hrun) ih hallowed hs

theorem mono (hweaker : ∀ a s, allowed a s → weaker a s) (h : Run step allowed start s) :
    Run step weaker start s := by
  induction h with
  | start => exact .start
  | next a _ hallowed hs ih => exact .next a ih (hweaker a _ hallowed) hs

theorem reachable (h : Run step allowed start s) : Reachable step start s :=
  h.mono fun _ _ _ => trivial

end Run

/-- Takes the steps of `actions` in turn, as long as `check` passes. -/
def follow (step : Action → State → Option State) (check : Action → State → Bool) :
    List Action → State → Option State
  | [], s => some s
  | a :: actions, s =>
    if check a s then
      match step a s with
      | some s' => follow step check actions s'
      | none => none
    else none

theorem Run.of_follow {check : Action → State → Bool} {actions : List Action} {s' : State}
    (hcheck : ∀ a s, check a s = true → allowed a s) (hs : Run step allowed start s)
    (h : follow step check actions s = some s') : Run step allowed start s' := by
  induction actions generalizing s with
  | nil =>
    obtain rfl := Option.some.inj h
    exact hs
  | cons a actions ih =>
    rw [follow, Option.ite_none_right_eq_some] at h
    obtain ⟨hpass, h⟩ := h
    split at h
    case h_1 next hstep => exact ih (.next a hs (hcheck a s hpass) hstep) h
    case h_2 => cases h

end Quilon
