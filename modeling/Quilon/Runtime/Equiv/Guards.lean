import Quilon.Runtime.Guards
import Mathlib.Algebra.BigOperators.Group.List.Basic
import Mathlib.Algebra.Ring.Nat

/-!
# Where the markers of the guards end

`abort_trap_depth` counts the fault guards whose bodies are being resumed, whatever parked in
between, so a fail-loud exit is trapped exactly inside one, by the innermost.  A failing `expect`
asks no such question: its marker goes to the innermost case guard of the fiber it runs on, and on a
fiber with none, such as a server's handler, to the ready queue.

Main results:

* `Fits.step` — the depth, the yielder and the guard a marker is meant for, kept by every step in
  which an `expect` fails inside its own case;
* `markers_stay_inside` — so in every such run each marker ends the body it is meant to end.
-/

namespace Quilon.Runtime

/-- The guard a marker should end: for an `expect` that of its own case, innermost; for a fail-loud
exit the innermost one of `aborts()` or a launch. -/
def Cause.Ends (cause : Cause) (raisedIn : List Guard) (guard : Guard) : Prop :=
  match cause with
  | .expect name => raisedIn.find? Guard.isCase = some guard ∧ guard.kind = .case name
  | .failLoud => raisedIn.find? Guard.isFault = some guard

/-- Whether an `expect` that fails does so on a fiber whose innermost case guard is that of its own
case: not on a server's handler or another fiber of its own, and not in a closure that has outlived
its case. -/
def Lanes.inOwnCase (move : Nat × GuardEvent) (system : Lanes) : Bool :=
  match move.2, (system.lanes move.1).running with
  | .expect name, some chain =>
    (chain.outer.find? Guard.isCase).any fun guard => guard.kind = .case name
  | _, _ => true

/-- The depth of a chain of resumes. -/
def faults (guards : List Guard) : Nat :=
  (guards.map Guard.depth).sum

theorem faults_cons (guard : Guard) (guards : List Guard) :
    faults (guard :: guards) = guard.depth + faults guards := by
  simp [faults]

theorem faults_pos_iff {guards : List Guard} :
    0 < faults guards ↔ ∃ guard ∈ guards, guard.isFault = true := by
  induction guards with
  | nil => simp [faults]
  | cons guard guards ih =>
    rw [faults_cons, List.exists_mem_cons_iff, ← ih]
    unfold Guard.depth
    split
    case isTrue hfault =>
      simp only [hfault, true_or, iff_true]
      omega
    case isFalse hfault => simp [hfault]

/-! ### One worker -/

/-- What the fiber a worker runs is like in each mode. -/
def Chain.Fits (chain : Chain) (lane : Lane) : Prop :=
  match chain.mode with
  | .executing => chain.inner = [] ∧ chain.raised = none ∧ lane.currentYielder = chain.innermost
  | .resuming => chain.raised = none ∧ lane.currentYielder = chain.innermost
  | .yielding park =>
    (park.isMarker = false ∧ chain.raised = none) ∨
      ∃ cause raisedIn guard, chain.raised = some (cause, raisedIn) ∧
        cause.Ends raisedIn guard ∧ chain.outer.find? (·.catches park) = some guard

/-- The depth counts the fault guards on the stack. -/
def Lane.Fits (lane : Lane) : Prop :=
  match lane.running with
  | none => lane.abortTrapDepth = 0
  | some chain => lane.abortTrapDepth = faults chain.outer ∧ chain.Fits lane

structure Lanes.Fits (system : Lanes) : Prop where
  lanes : ∀ index, (system.lanes index).Fits
  reachable : system.unreachable = false
  yielder : system.dangling = false
  delivered : ∀ delivery ∈ system.delivered, delivery.cause.Ends delivery.raisedIn delivery.guard

namespace Lanes

variable {system system' : Lanes}

theorem Fits.setLane (h : system.Fits) {index : Nat} {lane : Lane} (hlane : lane.Fits) :
    (system.setLane index lane).Fits where
  lanes other := by
    show (Function.update system.lanes index lane other).Fits
    rw [Function.update_apply]
    split
    · exact hlane
    · exact h.lanes other
  reachable := h.reachable
  yielder := h.yielder
  delivered := h.delivered

/-- A yield of the code that runs: the yielder is its own. -/
theorem Fits.raise (h : system.Fits) {index : Nat} {chain : Chain} {park : Park}
    {cause : Option Cause} (hrunning : (system.lanes index).running = some chain)
    (hmode : chain.mode = .executing)
    (hcause : match cause with
      | none => park.isMarker = false
      | some cause => ∃ guard, cause.Ends chain.outer guard ∧
          chain.outer.find? (·.catches park) = some guard) :
    (system.raise index chain park cause).Fits := by
  have hlane := h.lanes index
  unfold Lane.Fits at hlane
  rw [hrunning] at hlane
  obtain ⟨hdepth, hchain⟩ := hlane
  unfold Chain.Fits at hchain
  rw [hmode] at hchain
  obtain ⟨-, -, hyielder⟩ := hchain
  unfold Lanes.raise
  rw [if_pos hyielder]
  refine h.setLane ⟨hdepth, ?_⟩
  cases cause with
  | none => exact .inl ⟨hcause, rfl⟩
  | some cause =>
    obtain ⟨guard, hends, hcatches⟩ := hcause
    exact .inr ⟨cause, chain.outer, guard, rfl, hends, hcatches⟩

/-- A yield comes to a guard's loop, or to the ready queue's. -/
theorem Fits.handle (h : system.Fits) {index : Nat} {chain : Chain} {park : Park}
    (hrunning : (system.lanes index).running = some chain) (hmode : chain.mode = .yielding park) :
    (system.handle index chain park).Fits := by
  have hlane := h.lanes index
  unfold Lane.Fits at hlane
  rw [hrunning] at hlane
  obtain ⟨hdepth, hchain⟩ := hlane
  unfold Chain.Fits at hchain
  rw [hmode] at hchain
  unfold Lanes.handle
  cases houter : chain.outer with
  | nil =>
    have hmark : park.isMarker = false := by
      rcases hchain with ⟨hmark, -⟩ | ⟨_, _, _, -, -, hcatches⟩
      · exact hmark
      · simp [houter] at hcatches
    rw [houter] at hdepth
    simp only [hmark]
    exact h.setLane hdepth
  | cons guard outer =>
    rw [houter, faults_cons] at hdepth
    have hrest : (system.lanes index).abortTrapDepth - guard.depth = faults outer := by omega
    dsimp only
    split
    case isTrue hcaught =>
      have hended : Fits (system.setLane index { system.lanes index with
          running := some { chain with outer := outer, inner := [], mode := .executing, raised := none }
          abortTrapDepth := (system.lanes index).abortTrapDepth - guard.depth
          currentYielder := Chain.innermost
            { chain with outer := outer, inner := [], mode := .executing, raised := none } }) :=
        h.setLane ⟨hrest, rfl, rfl, rfl⟩
      rcases hchain with ⟨hmark, hraised⟩ | ⟨cause, raisedIn, target, hraised, hends, hcatches⟩
      · rw [hraised]
        exact hended
      · rw [hraised]
        obtain rfl : guard = target := by simpa [houter, hcaught] using hcatches
        refine { hended with delivered := ?_ }
        rintro delivery hdelivery
        rcases List.mem_cons.mp hdelivery with rfl | hdelivery
        · exact hends
        · exact h.delivered delivery hdelivery
    case isFalse hpassed =>
      refine h.setLane ⟨hrest, ?_⟩
      show Chain.Fits _ _
      unfold Chain.Fits
      simp only [hmode]
      rcases hchain with hpark | ⟨cause, raisedIn, target, hraised, hends, hcatches⟩
      · exact .inl hpark
      · have hcatches' : outer.find? (·.catches park) = some target := by
          simpa [houter, hpassed] using hcatches
        exact .inr ⟨cause, raisedIn, target, hraised, hends, hcatches'⟩

theorem Fits.stepChain (h : system.Fits) {index : Nat} {chain : Chain} {event : GuardEvent}
    (hrunning : (system.lanes index).running = some chain)
    (hallowed : inOwnCase (index, event) system = true)
    (hstep : system.stepChain index chain event = some system') : system'.Fits := by
  have hlane := h.lanes index
  unfold Lane.Fits at hlane
  rw [hrunning] at hlane
  obtain ⟨hdepth, hchain⟩ := hlane
  unfold Chain.Fits at hchain
  unfold Lanes.stepChain at hstep
  dsimp only at hstep
  split at hstep
  case h_1 hmode =>
    -- reenter
    rw [hmode] at hchain
    split at hstep
    case h_1 guard inner hinner =>
      cases hstep
      refine h.setLane ⟨?_, ?_⟩
      · show (system.lanes index).abortTrapDepth + guard.depth = faults (guard :: chain.outer)
        rw [hdepth, faults_cons, Nat.add_comm]
      · show Chain.Fits _ _
        unfold Chain.Fits
        simp only [hmode]
        exact ⟨hchain.1, rfl⟩
    case h_2 hinner =>
      cases hstep
      exact h.setLane ⟨hdepth, hinner, hchain.1, hchain.2⟩
  case h_2 guard hmode =>
    -- enterGuard
    rw [hmode] at hchain
    cases hstep
    refine h.setLane ⟨?_, ?_⟩
    · show (system.lanes index).abortTrapDepth + guard.depth = faults (guard :: chain.outer)
      rw [hdepth, faults_cons, Nat.add_comm]
    · show Chain.Fits _ _
      unfold Chain.Fits
      simp only [hmode]
      exact ⟨hchain.1, hchain.2.1, rfl⟩
  case h_3 hmode =>
    -- leaveGuard
    rw [hmode] at hchain
    split at hstep
    case h_1 guard outer houter =>
      cases hstep
      rw [houter, faults_cons] at hdepth
      refine h.setLane ⟨?_, ?_⟩
      · show (system.lanes index).abortTrapDepth - guard.depth = faults outer
        omega
      · show Chain.Fits _ _
        unfold Chain.Fits
        simp only [hmode]
        exact ⟨hchain.1, hchain.2.1, trivial⟩
    case h_2 => cases hstep
  case h_4 park hmode =>
    split at hstep
    case isTrue => cases hstep
    case isFalse hmark =>
      cases hstep
      exact h.raise hrunning hmode (by simpa using hmark)
  case h_5 name hmode =>
    cases hstep
    unfold inOwnCase at hallowed
    rw [hrunning] at hallowed
    obtain ⟨guard, hcase, hkind⟩ : ∃ guard, chain.outer.find? Guard.isCase = some guard ∧
        guard.kind = .case name := by
      simpa [Option.any_eq_true] using hallowed
    exact h.raise hrunning hmode ⟨guard, ⟨hcase, hkind⟩, hcase⟩
  case h_6 report hmode =>
    -- The depth is positive only when there is a fault guard to go to.
    split at hstep
    case isTrue hactive =>
      cases hstep
      rw [hdepth, faults_pos_iff] at hactive
      obtain ⟨guard, hguard⟩ := Option.isSome_iff_exists.mp (List.find?_isSome.mpr hactive)
      exact h.raise hrunning hmode ⟨guard, hguard, hguard⟩
    case isFalse =>
      cases hstep
      exact ⟨h.lanes, h.reachable, h.yielder, h.delivered⟩
  case h_7 park hmode =>
    cases hstep
    exact h.handle hrunning hmode
  case h_8 hmode =>
    split at hstep
    case h_1 houter =>
      cases hstep
      rw [houter] at hdepth
      exact h.setLane hdepth
    case h_2 => cases hstep
  case h_9 => cases hstep

theorem Fits.step (h : system.Fits) {move : Nat × GuardEvent} (hallowed : inOwnCase move system = true)
    (hstep : Lanes.step move system = some system') : system'.Fits := by
  obtain ⟨index, event⟩ := move
  have hlane := h.lanes index
  unfold Lane.Fits at hlane
  unfold Lanes.step at hstep
  dsimp only at hstep
  split at hstep
  case isTrue => cases hstep
  case isFalse =>
    split at hstep
    case h_1 chain event hrunning => exact h.stepChain hrunning hallowed hstep
    case h_2 root hnone =>
      cases hstep
      rw [hnone] at hlane
      exact h.setLane ⟨hlane, rfl, rfl, rfl⟩
    case h_3 root hnone =>
      rw [hnone] at hlane
      split at hstep
      case h_1 guards hguards =>
        cases hstep
        exact h.setLane ⟨hlane, rfl, rfl⟩
      case h_2 => cases hstep
    case h_4 => cases hstep

end Lanes

/-- In a run whose `expect`s fail inside their own cases, every marker ends the body it is meant to
end and none comes to the ready queue; the depth is the number of fault guards being resumed, and a
fail-loud exit ends the process exactly when there is none. -/
theorem markers_stay_inside {system : Lanes}
    (h : Run Lanes.step (fun move system => Lanes.inOwnCase move system = true) .start system) :
    system.unreachable = false ∧ system.dangling = false ∧
    (∀ delivery ∈ system.delivered, delivery.cause.Ends delivery.raisedIn delivery.guard) ∧
    (∀ index chain park, (system.lanes index).running = some chain →
      chain.mode = .yielding park → park.isMarker = true →
      ∃ cause raisedIn guard, chain.raised = some (cause, raisedIn) ∧
        cause.Ends raisedIn guard ∧ chain.outer.find? (·.catches park) = some guard) ∧
    (∀ index, (system.lanes index).running = none → (system.lanes index).abortTrapDepth = 0) ∧
    (∀ index chain, (system.lanes index).running = some chain →
      (system.lanes index).abortTrapDepth = faults chain.outer) ∧
    (∀ index chain report system', (system.lanes index).running = some chain →
      chain.mode = .executing → Lanes.step (index, .failLoud report) system = some system' →
      (system'.exited = true ↔ ∀ guard ∈ chain.outer, guard.isFault = false)) := by
  have hstart : Lanes.start.Fits := ⟨fun _ => rfl, rfl, rfl, by simp [Lanes.start]⟩
  have hfits := Run.invariant hstart (fun _ _ _ hs hallowed hstep => hs.step hallowed hstep) h
  have hrunning : ∀ index chain, (system.lanes index).running = some chain →
      (system.lanes index).abortTrapDepth = faults chain.outer ∧
        chain.Fits (system.lanes index) := by
    intro index chain hchain
    have hlane := hfits.lanes index
    unfold Lane.Fits at hlane
    rw [hchain] at hlane
    exact hlane
  refine ⟨hfits.reachable, hfits.yielder, hfits.delivered, ?_, ?_, ?_, ?_⟩
  · intro index chain park hchain hmode hmark
    have hshape := (hrunning index chain hchain).2
    unfold Chain.Fits at hshape
    rw [hmode] at hshape
    rcases hshape with ⟨hpark, -⟩ | hshape
    · rw [hpark] at hmark
      cases hmark
    · exact hshape
  · intro index hnone
    have hlane := hfits.lanes index
    unfold Lane.Fits at hlane
    rw [hnone] at hlane
    exact hlane
  · exact fun index chain hchain => (hrunning index chain hchain).1
  · intro index chain report system' hchain hmode hstep
    have hdepth := (hrunning index chain hchain).1
    have htrapped : 0 < faults chain.outer ↔ _ := faults_pos_iff
    rw [← hdepth] at htrapped
    unfold Lanes.step at hstep
    dsimp only at hstep
    split at hstep
    case isTrue => cases hstep
    case isFalse halive =>
      have hexited : system.exited = false := by
        cases hexited : system.exited
        · rfl
        · simp [hexited] at halive
      rw [hchain] at hstep
      simp only [Lanes.stepChain, hmode] at hstep
      split at hstep
      case isTrue hactive =>
        cases hstep
        obtain ⟨guard, hguard, hfault⟩ := htrapped.mp hactive
        have hraised : (system.raise index chain (.abortTrapped report) (some .failLoud)).exited =
            false := by
          unfold Lanes.raise
          dsimp only
          split <;> exact hexited
        simp only [hraised, Bool.false_eq_true, false_iff, not_forall]
        exact ⟨guard, hguard, by simp [hfault]⟩
      case isFalse hactive =>
        cases hstep
        simp only [true_iff]
        intro guard hguard
        by_contra hfault
        exact hactive (htrapped.mpr ⟨guard, hguard, by simpa using hfault⟩)

/-- An `expect` under `aborts()` in a case, after a park through both guards. -/
theorem expect_in_aborts_ends_its_case :
    ∃ system, follow Lanes.step Lanes.inOwnCase
        [(0, .start 0), (0, .enterGuard ⟨1, .case 7⟩), (0, .enterGuard ⟨2, .fault⟩),
          (0, .park (.sleep 5)), (0, .handle), (0, .handle), (0, .handle), (0, .start 3),
          (0, .finish), (0, .resume 0), (0, .reenter), (0, .reenter), (0, .reenter),
          (0, .expect 7), (0, .handle), (0, .handle)] .start = some system ∧
      system.unreachable = false ∧ system.delivered.length = 1 := by
  obtain ⟨system, hsystem⟩ : ∃ system, follow Lanes.step Lanes.inOwnCase
      [(0, .start 0), (0, .enterGuard ⟨1, .case 7⟩), (0, .enterGuard ⟨2, .fault⟩),
        (0, .park (.sleep 5)), (0, .handle), (0, .handle), (0, .handle), (0, .start 3),
        (0, .finish), (0, .resume 0), (0, .reenter), (0, .reenter), (0, .reenter),
        (0, .expect 7), (0, .handle), (0, .handle)] .start = some system := ⟨_, rfl⟩
  refine ⟨system, hsystem, (markers_stay_inside (.of_follow (fun _ _ h => h) .start hsystem)).1, ?_⟩
  cases hsystem
  rfl

/-- An `expect` written in a case and run by a server's handler, on a fiber of another worker. -/
theorem expect_in_handler_unreachable :
    ¬∀ system, Lanes.Reaches system → system.unreachable = false := by
  intro hclaim
  obtain ⟨system, hsystem, hreached⟩ : ∃ system, follow Lanes.step (fun _ _ => true)
      [(0, .start 0), (0, .enterGuard ⟨1, .case 7⟩), (1, .start 2), (1, .expect 7), (1, .handle)]
      .start = some system ∧ system.unreachable = true := ⟨_, rfl, rfl⟩
  rw [hclaim system (.of_follow (fun _ _ _ => trivial) .start hsystem)] at hreached
  cases hreached

end Quilon.Runtime
