import Quilon.Ast.Nodes

/-!
# The harness of a test run

`corelib/test.qn` and the registry it asks (`quilon-rt/src/test_registry.rs`): the open groups, the
paths, the selection, and what `describe` and `it` do with a body.  What the body does otherwise is a
`Behaviour`: everything a statement can do to the harness, with the rest of the program as a state of
type `σ` that its steps read and change.

A `Behaviour` is as much of a run as one looks at: it stops at `cut`, so what never ends has a
`Behaviour` of any length.  What the reporter prints is left out.
-/

namespace Quilon.Testing

/-! ### Paths and selections -/

/-- What is left of `text` behind `start`, when it begins so. -/
def stripStart (start text : String) : Option (List Char) :=
  if start.toList.isPrefixOf text.toList then some (text.toList.drop start.toList.length) else none

/-- Whether the selected path `selected` names `path` itself or a suite above it. -/
def selects (selected path : String) : Bool :=
  decide (path = selected) ||
    match stripStart selected path with
    | some (c :: _) => decide (c = '/')
    | _ => false

/-- Whether `path` is a selected case, or lies under a selected suite. -/
def covered (path : String) (selection : List String) : Bool :=
  selection.any fun selected => selects selected path

/-- Whether some selected path lies under the suite at `path`. -/
def nestsASelection (path : String) (selection : List String) : Bool :=
  selection.any fun selected => selects path selected

/-- The two kinds of test call. -/
inductive Kind where
  | suite
  | case
deriving DecidableEq, Repr

/-- `__test_suite_selected` -/
def suiteSelected (selection : List String) (path : String) : Bool :=
  selection.isEmpty || covered path selection || nestsASelection path selection

/-- `__test_case_selected` -/
def caseSelected (selection : List String) (path : String) : Bool :=
  selection.isEmpty || covered path selection

def selected (selection : List String) : Kind → String → Bool
  | .suite => suiteSelected selection
  | .case => caseSelected selection

/-! ### What a run records -/

/-- A suite entered, a case run, or a case tallied, at its path. -/
inductive Execution where
  | entered (path : String)
  | ran (site : Span) (path : String)
  | finished (path : String) (failed : Bool)
deriving DecidableEq, Repr

/-- The cells of `corelib/test.qn`, the failure mark of the registry, and what has been executed. -/
structure Harness where
  openSuiteNames : List String
  passedCases : Nat
  failedCases : Nat
  caseFailure : Bool
  executed : List Execution
deriving DecidableEq, Repr

namespace Harness

variable (harness : Harness)

/-- Before the first test block. -/
def new : Harness := ⟨[], 0, 0, false, []⟩

/-- The open names and `name`, joined by `/`. -/
def pathTo (name : String) : String :=
  (harness.openSuiteNames ++ [name]).foldl
    (fun path segment => if path = "" then segment else path ++ "/" ++ segment) ""

def enterSuite (name : String) : Harness :=
  { harness with
    openSuiteNames := harness.openSuiteNames ++ [name]
    executed := harness.executed ++ [.entered (harness.pathTo name)] }

/-- Every name short of the last. -/
def popSuite : Harness :=
  { harness with
    openSuiteNames := harness.openSuiteNames.foldl (fun kept segment =>
      if kept.length + 1 < harness.openSuiteNames.length then kept ++ [segment] else kept) [] }

def leaveSuite : Harness :=
  if harness.openSuiteNames.isEmpty then harness else harness.popSuite

/-- Tally the case that just ran; the mark is taken with it. -/
def finishCase (name : String) : Harness :=
  { harness with
    passedCases := if harness.caseFailure then harness.passedCases else harness.passedCases + 1
    failedCases := if harness.caseFailure then harness.failedCases + 1 else harness.failedCases
    caseFailure := false
    executed := harness.executed ++ [.finished (harness.pathTo name) harness.caseFailure] }

/-- A case's body begins. -/
def beginCase (site : Span) (name : String) : Harness :=
  { harness with executed := harness.executed ++ [.ran site (harness.pathTo name)] }

end Harness

/-! ### Behaviours -/

/-- What a piece of a test program does. -/
inductive Behaviour (σ : Type) where
  | done
  /-- nothing more is looked at -/
  | cut
  /-- the process ends -/
  | exit
  /-- a failing `expect` -/
  | abort
  | seq (first second : Behaviour σ)
  /-- a step of the program, which may ask the harness -/
  | step (change : Harness → σ → σ) (next : Harness → σ → Behaviour σ)
  | enterSuite (name : String)
  | leaveSuite
  | finishCase (name : String)
  /-- `describe(name, body)` or `it(name, body)` -/
  | call (kind : Kind) (site : Span) (name : String) (body : Behaviour σ)

inductive Ending where
  | completed
  | aborted
  | exited
  | cut
deriving DecidableEq, Repr

/-- The harness and the rest of the program. -/
structure RunState (σ : Type) where
  harness : Harness
  world : σ

namespace RunState

variable {σ : Type} (state : RunState σ)

def enterSuite (name : String) : RunState σ :=
  { state with harness := state.harness.enterSuite name }

def leaveSuite : RunState σ :=
  { state with harness := state.harness.leaveSuite }

def finishCase (name : String) : RunState σ :=
  { state with harness := state.harness.finishCase name }

def beginCase (site : Span) (name : String) : RunState σ :=
  { state with harness := state.harness.beginCase site name }

/-- The mark a failing `expect` leaves before it ends the case. -/
def markCaseFailed : RunState σ :=
  { state with harness := { state.harness with caseFailure := true } }

end RunState

section Run

variable {σ : Type}

/-- Go on where a part has completed. -/
def andThen (result : Ending × RunState σ) (next : RunState σ → Ending × RunState σ) :
    Ending × RunState σ :=
  match result with
  | (.completed, state) => next state
  | stopped => stopped

/-- Go on where a case's body has completed or was aborted. -/
def andFinish (result : Ending × RunState σ) (next : RunState σ → Ending × RunState σ) :
    Ending × RunState σ :=
  match result with
  | (.completed, state) | (.aborted, state) => next state
  | stopped => stopped

/-- Run a behaviour under a selection. -/
def run (selection : List String) : Behaviour σ → RunState σ → Ending × RunState σ
  | .done, state => (.completed, state)
  | .cut, state => (.cut, state)
  | .exit, state => (.exited, state)
  | .abort, state => (.aborted, state.markCaseFailed)
  | .seq first second, state => andThen (run selection first state) (run selection second)
  | .step change next, state =>
    run selection (next state.harness state.world)
      { state with world := change state.harness state.world }
  | .enterSuite name, state => (.completed, state.enterSuite name)
  | .leaveSuite, state => (.completed, state.leaveSuite)
  | .finishCase name, state => (.completed, state.finishCase name)
  | .call .suite _ name body, state =>
    if suiteSelected selection (state.harness.pathTo name) then
      andThen (run selection body (state.enterSuite name)) fun state =>
        (.completed, state.leaveSuite)
    else (.completed, state)
  | .call .case site name body, state =>
    if caseSelected selection (state.harness.pathTo name) then
      andFinish (run selection body (state.beginCase site name)) fun state =>
        (.completed, state.finishCase name)
    else (.completed, state)

/-- Every harness call the run makes is one that `P` holds of: its kind, its place in the source, and
the path it is made at. -/
def Along (P : Kind → Span → String → Prop) (selection : List String) :
    Behaviour σ → RunState σ → Prop
  | .seq first second, state =>
    Along P selection first state ∧
      ∀ later, run selection first state = (.completed, later) → Along P selection second later
  | .step change next, state =>
    Along P selection (next state.harness state.world)
      { state with world := change state.harness state.world }
  | .call kind site name body, state =>
    P kind site (state.harness.pathTo name) ∧
      (selected selection kind (state.harness.pathTo name) = true →
        match kind with
        | .suite => Along P selection body (state.enterSuite name)
        | .case => Along P selection body (state.beginCase site name))
  | .done, _ | .cut, _ | .exit, _ | .abort, _ | .enterSuite _, _ | .leaveSuite, _ | .finishCase _, _ =>
    True

end Run

/-! ### What holds of the parts -/

theorem selects_self (path : String) : selects path path = true := by
  rw [selects, decide_eq_true rfl, Bool.true_or]

/-- Leaving a suite drops the innermost name. -/
theorem Harness.leaveSuite_openSuiteNames (harness : Harness) :
    harness.leaveSuite.openSuiteNames = harness.openSuiteNames.dropLast := by
  have hfold : ∀ (bound : Nat) (names kept : List String),
      names.foldl (fun kept segment => if kept.length + 1 < bound then kept ++ [segment] else kept) kept =
        kept ++ names.take (bound - 1 - kept.length) := by
    intro bound names
    induction names with
    | nil => simp
    | cons name rest ih =>
      intro kept
      rw [List.foldl_cons, ih]
      by_cases h : kept.length + 1 < bound
      · obtain ⟨room, hroom⟩ : ∃ room, bound - 1 - kept.length = room + 1 :=
          ⟨bound - 2 - kept.length, by omega⟩
        have hrest : bound - 1 - (kept ++ [name]).length = room := by
          rw [List.length_append, List.length_singleton]
          omega
        rw [if_pos h, hrest, hroom, List.take_succ_cons, List.append_assoc]
        rfl
      · have hzero : bound - 1 - kept.length = 0 := by omega
        rw [if_neg h, hzero, List.take_zero, List.take_zero]
  rw [leaveSuite]
  split
  · next hempty =>
    rw [List.isEmpty_iff.mp hempty]
    rfl
  · show harness.popSuite.openSuiteNames = _
    rw [popSuite, List.dropLast_eq_take]
    exact hfold _ _ []

/-- A group that is left gives back what was open before. -/
theorem Harness.leaveSuite_enterSuite (harness : Harness) (name : String) :
    (harness.enterSuite name).leaveSuite.openSuiteNames = harness.openSuiteNames := by
  rw [leaveSuite_openSuiteNames]
  exact List.dropLast_concat

end Quilon.Testing
