import Quilon.Runtime.Deferred
import Quilon.Runtime.Equiv.Scheduler

/-!
# A deferred cell settles once, and its waiters are woken

A fiber that waits for a cell is *awaited* from the moment it registers: its token is in the cell's
waiter list, or the cell has settled and the token is among the completed ones of the fiber's worker.
The one step that could lose it is `collect`, which drops a completed token nobody has filed a wait
for.  But `collect` belongs to a loop that runs no fiber, so a fiber that has registered and not yet
been filed is on another worker's loop, or there is none.

Main results:

* `Awaits.step` — what one scheduler event does to the fibers of a worker that wait for cells;
* `settles_once` — in every run a cell settles at most once, forces return the one value, and no
  waiter of a settled cell is lost.
-/

namespace Quilon.Runtime

/-! ### The fibers of one worker -/

section Workers

variable {worker worker' : Worker Fiber} {roster roster' : Roster} {event : Event Fiber}
  {awaited awaited' : Nat → Nat → Prop}

theorem slot_of_set {Coroutine : Type} {fibers : List (Option Coroutine)} {id other : Nat}
    {slot : Option Coroutine} {coroutine : Coroutine}
    (h : (fibers.set other slot)[id]? = some (some coroutine)) :
    fibers[id]? = some (some coroutine) ∨ (id = other ∧ slot = some coroutine) := by
  by_cases hother : other = id
  · subst hother
    rw [List.getElem?_set_self'] at h
    obtain ⟨_, -, hslot⟩ := Option.map_eq_some_iff.mp h
    exact .inr ⟨rfl, hslot⟩
  · rw [List.getElem?_set_ne hother] at h
    exact .inl h

theorem wake_fibers {Coroutine : Type} {scheduler : Scheduler Coroutine} (tokens : List Nat) :
    (scheduler.wake tokens).fibers = scheduler.fibers := by
  induction tokens generalizing scheduler with
  | nil => rfl
  | cons token tokens ih =>
    have htoken : (scheduler.wakeToken token).fibers = scheduler.fibers := by
      unfold Scheduler.wakeToken
      split <;> rfl
    exact ih.trans htoken

/-- What a step leaves in the slab was there, or has just been put there. -/
theorem Represents.step_slab (h : Represents worker roster)
    (hstep : Worker.step event worker = some worker') {id : Nat} {fiber : Fiber}
    (hid : worker'.scheduler.fibers[id]? = some (some fiber)) :
    worker.scheduler.fibers[id]? = some (some fiber) ∨ event = .spawn fiber ∨
      ∃ park old, event = .park park fiber ∧ worker.running = some (id, old) := by
  have hreserves := h.reserveId.2.fibers
  cases Worker.steps_of_step hstep with
  | spawn coroutine =>
    rcases slot_of_set hid with hid | ⟨-, hcoroutine⟩
    · exact .inl ((hreserves id fiber).mp hid)
    · cases hcoroutine
      exact .inr (.inl rfl)
  | park hrunning hmay hfile =>
    rename_i parked old coroutine park scheduler
    have hfibers : scheduler.fibers = worker.scheduler.fibers.set parked (some coroutine) := by
      cases park <;> cases hfile <;> rfl
    rw [hfibers] at hid
    rcases slot_of_set hid with hid | ⟨rfl, hcoroutine⟩
    · exact .inl hid
    · cases hcoroutine
      exact .inr (.inr ⟨park, old, rfl, hrunning⟩)
  | resume | finish | release =>
    rcases slot_of_set hid with hid | ⟨-, hslot⟩
    · exact .inl hid
    · cases hslot
  | reserve => exact .inl ((hreserves id fiber).mp hid)
  | wake tokens => exact .inl (wake_fibers tokens ▸ hid)
  | register | borrow | unborrow | sweep => exact .inl hid

/-- A park that is woken makes its fiber ready; any other stays. -/
theorem RosterStep.parked (h : RosterStep roster event roster') {id : Nat} {park : Park}
    (hid : roster id = some (.parked park)) :
    (roster' id = some (.parked park) ∧ park.wokenBy event = false) ∨ roster' id = some .ready := by
  cases h with
  | wakes =>
    cases hwoken : park.wokenBy event with
    | true => exact .inr (Roster.fire_eq_ready.mpr (.inr ⟨park, hid, hwoken⟩))
    | false => exact .inl ⟨Roster.fire_eq_parked.mpr ⟨hid, hwoken⟩, rfl⟩
  | token hevent =>
    refine .inl ⟨hid, ?_⟩
    rcases hevent with rfl | ⟨token, rfl⟩ | ⟨token, rfl⟩ <;> rfl
  | _ => left; rw [Function.update_apply]; split <;> simp_all [Park.wokenBy]

theorem RosterStep.ready (h : RosterStep roster event roster') {id : Nat}
    (hid : roster id = some .ready) :
    roster' id = some .ready ∨ roster' id = some .running := by
  cases h with
  | wakes => exact .inl (Roster.fire_eq_ready.mpr (.inl hid))
  | token => exact .inl hid
  | _ => rw [Function.update_apply]; split <;> simp_all

/-- The parked fibers of a worker that wait for cells: each is ready again, or parked on a token that
is `awaited` for its cell. -/
structure Awaits (awaited : Nat → Nat → Prop) (worker : Worker Fiber) (roster : Roster) :
    Prop where
  represents : Represents worker roster
  filed : ∀ (id : Nat) (fiber : Fiber) (park : Park) (cell : Option Nat) (levels : Nat),
    worker.scheduler.fibers[id]? = some (some fiber) → fiber.phase = .parking park cell levels →
    roster id = some .ready ∨ (roster id = some (.parked park) ∧
      ∀ address, cell = some address → ∃ token, park = .readiness token ∧ awaited address token)

theorem Awaits.mono (h : Awaits awaited worker roster)
    (hawaited : ∀ address token, awaited address token → awaited' address token) :
    Awaits awaited' worker roster where
  represents := h.represents
  filed id fiber park cell levels hid hphase := by
    rcases h.filed id fiber park cell levels hid hphase with hready | ⟨hparked, hcell⟩
    · exact .inl hready
    · refine .inr ⟨hparked, fun address haddress => ?_⟩
      obtain ⟨token, hpark, htoken⟩ := hcell address haddress
      exact ⟨token, hpark, hawaited address token htoken⟩

/-- The fiber that runs goes on in another state. -/
theorem Awaits.rerun (h : Awaits awaited worker roster) {id : Nat} {old : Fiber} (fiber : Fiber)
    (hold : worker.running = some (id, old)) :
    Awaits awaited { worker with running := some (id, fiber) } roster where
  represents :=
    { h.represents with
      running := by
        intro other
        rw [← h.represents.running other, hold]
        simp }
  filed := h.filed

/-- A step of the scheduler keeps what is awaited, as long as what is no longer awaited is what the
step wakes, and the fibers it puts into the slab are new or parked as they say. -/
theorem Awaits.step (h : Awaits awaited worker roster)
    (hstep : Worker.step event worker = some worker')
    (hawaited : ∀ address token, awaited address token →
      awaited' address token ∨ (Park.readiness token).wokenBy event = true)
    (hspawn : ∀ fiber, event = .spawn fiber → fiber.phase = .active)
    (hpark : ∀ park fiber, event = .park park fiber → ∀ other cell levels,
      fiber.phase = .parking other cell levels → other = park ∧
        ∀ address, cell = some address → ∃ token, park = .readiness token ∧ awaited' address token) :
    ∃ roster', Awaits awaited' worker' roster' := by
  obtain ⟨roster', hroster, hrepresents⟩ := h.represents.step hstep
  refine ⟨roster', hrepresents, ?_⟩
  intro id fiber park cell levels hid hphase
  rcases h.represents.step_slab hstep hid with hid' | rfl | ⟨filed, old, rfl, hold⟩
  · have hslot := (hrepresents.occupied id).mp ⟨fiber, hid⟩
    rcases h.filed id fiber park cell levels hid' hphase with hready | ⟨hparked, hcell⟩
    · rcases hroster.ready hready with hready | hran
      · exact .inl hready
      · simp [hran] at hslot
    · rcases hroster.parked hparked with ⟨hstill, hnot⟩ | hready
      · refine .inr ⟨hstill, fun address haddress => ?_⟩
        obtain ⟨token, rfl, htoken⟩ := hcell address haddress
        refine ⟨token, rfl, (hawaited address token htoken).resolve_right ?_⟩
        simp [hnot]
      · exact .inl hready
  · rw [hspawn fiber rfl] at hphase
    cases hphase
  · obtain ⟨rfl, hcell⟩ := hpark filed fiber rfl park cell levels hphase
    refine .inr ⟨?_, hcell⟩
    cases hroster with
    | park _ _ hran =>
      obtain ⟨other, hother⟩ := (h.represents.running _).mpr hran
      rw [hold] at hother
      cases hother
      exact Function.update_self ..
    | wakes hevent => simp at hevent
    | token hevent => simp at hevent

end Workers

/-! ### All workers -/

variable {Value : Type} {system system' : System Value} {kept : Nat → DeferredState Value → Prop}

/-- The token of a waiter on `worker` is still with its cell, or on its way to the worker. -/
def System.Awaited (system : System Value) (worker address token : Nat) : Prop :=
  ∃ cell, system.cells address = some cell ∧
    ((worker, token) ∈ cell.waiters ∨
      (cell.state.settled = true ∧ token ∈ system.completed worker))

/-- What every step keeps.  `kept` are states that cells have settled in. -/
structure System.Sound (kept : Nat → DeferredState Value → Prop) (system : System Value) :
    Prop where
  awaits : ∀ index, ∃ roster, Awaits (system.Awaited index) (system.workers index) roster
  parking : ∀ index id fiber park address levels, system.running index = some (id, fiber) →
    fiber.phase = .parking park (some address) levels →
    ∃ token, park = .readiness token ∧ system.Awaited index address token
  waking : ∀ index id fiber address, system.running index = some (id, fiber) →
    fiber.phase = .waking address →
    ∃ cell, system.cells address = some cell ∧ cell.state.settled = true
  spent : ∀ address cell, system.cells address = some cell →
    (cell.state.settled = true ↔ cell.producer = .spent)
  returned : ∀ entry ∈ system.returned,
    ∃ cell, system.cells entry.1 = some cell ∧ cell.state = .ready entry.2
  kept : ∀ address state, kept address state → state.settled = true ∧
    ∃ cell, system.cells address = some cell ∧ cell.state = state

namespace System

theorem setWorker_running (index other : Nat) (worker : Worker Fiber) :
    (system.setWorker index worker).running other =
      if other = index then worker.running else system.running other := by
  show (Function.update system.workers index worker other).running = _
  rw [Function.update_apply]
  split <;> rfl

/-- Another worker in the place of one that keeps its fibers awaited. -/
theorem Sound.setWorker (h : system.Sound kept) {index : Nat} {worker : Worker Fiber} {roster : Roster}
    (hawaits : Awaits (system.Awaited index) worker roster)
    (hparking : ∀ id fiber park address levels, worker.running = some (id, fiber) →
      fiber.phase = .parking park (some address) levels →
      ∃ token, park = .readiness token ∧ system.Awaited index address token)
    (hwaking : ∀ id fiber address, worker.running = some (id, fiber) →
      fiber.phase = .waking address →
      ∃ cell, system.cells address = some cell ∧ cell.state.settled = true) :
    (system.setWorker index worker).Sound kept where
  awaits other := by
    by_cases hother : other = index
    · subst hother
      refine ⟨roster, ?_⟩
      rw [show (system.setWorker other worker).workers other = worker from Function.update_self ..]
      exact hawaits
    · obtain ⟨otherRoster, hroster⟩ := h.awaits other
      refine ⟨otherRoster, ?_⟩
      rw [show (system.setWorker index worker).workers other = system.workers other from
        Function.update_of_ne hother ..]
      exact hroster
  parking other id fiber park address levels hrunning hphase := by
    rw [setWorker_running] at hrunning
    split at hrunning
    case isTrue hother => exact hother ▸ hparking id fiber park address levels hrunning hphase
    case isFalse => exact h.parking other id fiber park address levels hrunning hphase
  waking other id fiber address hrunning hphase := by
    rw [setWorker_running] at hrunning
    split at hrunning
    case isTrue => exact hwaking id fiber address hrunning hphase
    case isFalse => exact h.waking other id fiber address hrunning hphase
  spent := h.spent
  returned := h.returned
  kept := h.kept

/-- Another cell in the place of one: a settled state stays, and what was awaited still is. -/
theorem Sound.setCell (h : system.Sound kept) (address : Nat) (cell : Deferred Value)
    (hawaited : ∀ worker token, system.Awaited worker address token →
      (worker, token) ∈ cell.waiters ∨
        (cell.state.settled = true ∧ token ∈ system.completed worker))
    (hstate : ∀ old, system.cells address = some old → old.state.settled = true →
      cell.state = old.state)
    (hspent : cell.state.settled = true ↔ cell.producer = .spent) :
    (system.setCell address cell).Sound kept := by
  have hself : (system.setCell address cell).cells address = some cell := Function.update_self ..
  have hother : ∀ other, other ≠ address →
      (system.setCell address cell).cells other = system.cells other :=
    fun other hne => Function.update_of_ne hne ..
  have hmono : ∀ worker other token, system.Awaited worker other token →
      (system.setCell address cell).Awaited worker other token := by
    intro worker other token hawait
    by_cases hne : other = address
    · subst hne
      exact ⟨cell, hself, hawaited worker token hawait⟩
    · obtain ⟨old, hold, hawait⟩ := hawait
      exact ⟨old, (hother other hne).trans hold, hawait⟩
  refine ⟨?_, ?_, ?_, ?_, ?_, ?_⟩
  · intro index
    obtain ⟨roster, hroster⟩ := h.awaits index
    exact ⟨roster, hroster.mono (hmono index)⟩
  · intro index id fiber park other levels hrunning hphase
    obtain ⟨token, hpark, hawait⟩ := h.parking index id fiber park other levels hrunning hphase
    exact ⟨token, hpark, hmono index other token hawait⟩
  · intro index id fiber other hrunning hphase
    obtain ⟨old, hold, hsettled⟩ := h.waking index id fiber other hrunning hphase
    by_cases hne : other = address
    · subst hne
      exact ⟨cell, hself, by rw [hstate old hold hsettled, hsettled]⟩
    · exact ⟨old, (hother other hne).trans hold, hsettled⟩
  · intro other found hfound
    by_cases hne : other = address
    · subst hne
      rw [hself] at hfound
      cases hfound
      exact hspent
    · rw [hother other hne] at hfound
      exact h.spent other found hfound
  · rintro ⟨other, value⟩ hentry
    obtain ⟨old, hold, hvalue⟩ := h.returned _ hentry
    by_cases hne : other = address
    · subst hne
      refine ⟨cell, hself, ?_⟩
      rw [hstate old hold (by simp [hvalue, DeferredState.settled]), hvalue]
    · exact ⟨old, (hother other hne).trans hold, hvalue⟩
  · intro other state hkept
    obtain ⟨hsettled, old, hold, rfl⟩ := h.kept other state hkept
    refine ⟨hsettled, ?_⟩
    by_cases hne : other = address
    · subst hne
      exact ⟨cell, hself, hstate old hold hsettled⟩
    · exact ⟨old, (hother other hne).trans hold, rfl⟩

theorem Sound.setRunning (h : system.Sound kept) {index id : Nat} {old fiber : Fiber}
    (hold : system.running index = some (id, old))
    (hparking : ∀ park address levels, fiber.phase = .parking park (some address) levels →
      ∃ token, park = .readiness token ∧ system.Awaited index address token)
    (hwaking : ∀ address, fiber.phase = .waking address →
      ∃ cell, system.cells address = some cell ∧ cell.state.settled = true) :
    (system.setWorker index
      { system.workers index with running := some (id, fiber) }).Sound kept := by
  obtain ⟨roster, hroster⟩ := h.awaits index
  refine h.setWorker (hroster.rerun fiber hold) ?_ ?_
  · intro _ _ park address levels hrunning hphase
    cases hrunning
    exact hparking park address levels hphase
  · intro _ _ address hrunning hphase
    cases hrunning
    exact hwaking address hphase

theorem work_eq {index : Nat} {event : Event Fiber} (h : system.work index event = some system') :
    ∃ worker', Worker.step event (system.workers index) = some worker' ∧
      system' = system.setWorker index worker' := by
  obtain ⟨worker', hstep, rfl⟩ := Option.map_eq_some_iff.mp h
  exact ⟨worker', hstep, rfl⟩

/-- An event that leaves the running fiber alone, or ends its turn. -/
theorem Sound.work (h : system.Sound kept) {index : Nat} {event : Event Fiber}
    (hwork : system.work index event = some system')
    (hspawn : ∀ fiber, event = .spawn fiber → fiber.phase = .active)
    (hpark : ∀ park fiber, event = .park park fiber → ∃ id cell levels,
      system.running index = some (id, fiber) ∧ fiber.phase = .parking park cell levels)
    (hresume : event ≠ .resume) : system'.Sound kept := by
  obtain ⟨worker', hstep, rfl⟩ := work_eq hwork
  obtain ⟨roster, hroster⟩ := h.awaits index
  have hrunning : ∀ id fiber, worker'.running = some (id, fiber) →
      system.running index = some (id, fiber) := by
    intro id fiber hrunning
    cases Worker.steps_of_step hstep with
    | resume => exact absurd rfl hresume
    | park => cases hrunning
    | finish => cases hrunning
    | _ => exact hrunning
  have hkeep : ∀ address token, system.Awaited index address token →
      system.Awaited index address token ∨ (Park.readiness token).wokenBy event = true :=
    fun _ _ => .inl
  obtain ⟨roster', hroster'⟩ := hroster.step hstep hkeep hspawn (by
      intro park fiber hevent other cell levels hphase
      obtain ⟨id, _, _, hfiber, hphase'⟩ := hpark park fiber hevent
      rw [hphase'] at hphase
      cases hphase
      refine ⟨rfl, fun address haddress => ?_⟩
      subst haddress
      exact h.parking index id fiber park address levels hfiber hphase')
  refine h.setWorker hroster' ?_ ?_
  · intro id fiber park address levels hran hphase
    exact h.parking index id fiber park address levels (hrunning id fiber hran) hphase
  · intro id fiber address hran hphase
    exact h.waking index id fiber address (hrunning id fiber hran) hphase

/-- A check that finds the cell pending: the fiber is awaited before the lock is released. -/
theorem Sound.register (h : system.Sound kept) {index id address : Nat} {fiber : Fiber}
    {cell : Deferred Value} (hrunning : system.running index = some (id, fiber))
    (hcell : system.cells address = some cell)
    (hregister : system.register index id fiber address cell = some system') : system'.Sound kept := by
  obtain ⟨registered, hwork, rfl⟩ := Option.map_eq_some_iff.mp hregister
  have hregistered := h.work hwork (by simp) (by simp) (by simp)
  obtain ⟨worker', hstep, rfl⟩ := work_eq hwork
  have hran : (system.setWorker index worker').running index = some (id, fiber) := by
    rw [setWorker_running, if_pos rfl]
    cases Worker.steps_of_step hstep
    exact hrunning
  have hsame : (system.setWorker index worker').cells address = some cell := hcell
  generalize system.setWorker index worker' = registered at *
  have hadded := hregistered.setCell address
    { cell with waiters := cell.waiters ++ [(index, (system.workers index).nextToken)] }
    (by
      rintro other token ⟨old, hold, hawait⟩
      rw [hsame] at hold
      cases hold
      rcases hawait with hawait | hawait
      · exact .inl (List.mem_append_left _ hawait)
      · exact .inr hawait)
    (by
      intro old hold hsettled
      rw [hsame] at hold
      cases hold
      rfl)
    (hregistered.spent address cell hsame)
  refine hadded.setRunning hran ?_ ?_
  · intro park other levels hphase
    cases hphase
    exact ⟨_, rfl, _, Function.update_self .., .inl (by simp)⟩
  · intro other hphase
    cases hphase

/-- A cell whose state and producer stay, and whose waiters do. -/
theorem Sound.relock (h : system.Sound kept) {address : Nat} {cell : Deferred Value}
    (hcell : system.cells address = some cell) (locked : Bool) :
    (system.setCell address { cell with locked := locked }).Sound kept := by
  refine h.setCell address _ ?_ ?_ (h.spent address cell hcell)
  · rintro worker token ⟨old, hold, hawait⟩
    rw [hcell] at hold
    cases hold
    exact hawait
  · intro old hold _
    rw [hcell] at hold
    cases hold
    rfl

/-- The store: only the one closure of the cell comes here, so the cell is still pending. -/
theorem Sound.store (h : system.Sound kept) {index id address : Nat} {cell : Deferred Value}
    (hcell : system.cells address = some cell) (hproducer : cell.producer = .fiber index id)
    (outcome : Outcome Value) :
    (system.setCell address
      { cell with state := outcome.toState, locked := true, producer := .spent }).Sound kept := by
  have hpending : cell.state.settled ≠ true := by
    rw [ne_eq, h.spent address cell hcell, hproducer]
    simp
  have hsettled : outcome.toState.settled = true := by cases outcome <;> rfl
  refine h.setCell address _ ?_ ?_ (by simp [hsettled])
  · rintro worker token ⟨old, hold, hawait⟩
    rw [hcell] at hold
    cases hold
    exact hawait.imp_right fun hawait => absurd hawait.1 hpending
  · intro old hold hold'
    rw [hcell] at hold
    cases hold
    exact absurd hold' hpending

/-- One turn of `wake_all`: the token goes from the cell to the worker. -/
theorem Sound.complete (h : system.Sound kept) {address worker token : Nat} {cell : Deferred Value}
    {waiters : List (Nat × Nat)} (hcell : system.cells address = some cell)
    (hsettled : cell.state.settled = true) (hwaiters : cell.waiters = (worker, token) :: waiters) :
    System.Sound kept { system.setCell address { cell with waiters := waiters } with
      completed := Function.update system.completed worker (system.completed worker ++ [token]) } := by
  have hgrown : System.Sound kept { system with
      completed := Function.update system.completed worker
        (system.completed worker ++ [token]) } := by
    have hmono : ∀ other address' token', system.Awaited other address' token' →
        System.Awaited { system with
          completed := Function.update system.completed worker
            (system.completed worker ++ [token]) } other address' token' := by
      rintro other address' token' ⟨found, hfound, hawait⟩
      refine ⟨found, hfound, hawait.imp_right fun ⟨hfoundSettled, hmem⟩ => ⟨hfoundSettled, ?_⟩⟩
      show token' ∈ Function.update system.completed worker _ other
      rw [Function.update_apply]
      split
      case isTrue hother => exact List.mem_append_left _ (hother ▸ hmem)
      case isFalse => exact hmem
    refine ⟨?_, ?_, h.waking, h.spent, h.returned, h.kept⟩
    · intro index
      obtain ⟨roster, hroster⟩ := h.awaits index
      exact ⟨roster, hroster.mono (hmono index)⟩
    · intro index id fiber park other levels hrunning hphase
      obtain ⟨found, hpark, hawait⟩ := h.parking index id fiber park other levels hrunning hphase
      exact ⟨found, hpark, hmono index other found hawait⟩
  refine hgrown.setCell address { cell with waiters := waiters } ?_ ?_ (h.spent address cell hcell)
  · rintro other token' ⟨old, hold, hawait⟩
    obtain rfl : cell = old := Option.some.inj (hcell.symm.trans hold)
    rcases hawait with hawait | hawait
    · rw [hwaiters] at hawait
      rcases List.mem_cons.mp hawait with heq | hawait
      · cases heq
        refine .inr ⟨hsettled, ?_⟩
        simp
      · exact .inl hawait
    · exact .inr hawait
  · intro old hold _
    obtain rfl : cell = old := Option.some.inj (hcell.symm.trans hold)
    rfl

/-- The collection: a token that is taken is that of a fiber that is filed under it, or of nobody,
for the loop runs no fiber. -/
theorem Sound.collect (h : system.Sound kept) {index : Nat} {tokens : List Nat}
    (hnone : system.running index = none)
    (hwork : system.work index (.wake (system.completed index ++ tokens)) = some system') :
    System.Sound kept { system' with completed := Function.update system'.completed index [] } := by
  obtain ⟨worker', hstep, rfl⟩ := work_eq hwork
  generalize hdrained : System.mk (system.setWorker index worker').workers
    (Function.update system.completed index []) system.cells system.returned = drained
  have hself : drained.workers index = worker' := by
    rw [← hdrained]
    exact Function.update_self ..
  have hother : ∀ other, other ≠ index → drained.workers other = system.workers other := by
    intro other hne
    rw [← hdrained]
    exact Function.update_of_ne hne ..
  have hmono : ∀ other address token, other ≠ index → system.Awaited other address token →
      drained.Awaited other address token := by
    rintro other address token hne ⟨cell, hcell, hawait⟩
    rw [← hdrained]
    refine ⟨cell, hcell, hawait.imp_right fun ⟨hsettled, hmem⟩ => ⟨hsettled, ?_⟩⟩
    show token ∈ Function.update system.completed index [] other
    rw [Function.update_of_ne hne]
    exact hmem
  have hwoken : ∀ address token, system.Awaited index address token →
      drained.Awaited index address token ∨
        (Park.readiness token).wokenBy
          (.wake (system.completed index ++ tokens) : Event Fiber) = true := by
    rintro address token ⟨cell, hcell, hawait | ⟨-, hmem⟩⟩
    · rw [← hdrained]
      exact .inl ⟨cell, hcell, .inl hawait⟩
    · refine .inr ?_
      simp [Park.wokenBy, Park.token, hmem]
  have hran : drained.running index = none := by
    unfold running
    rw [hself]
    cases Worker.steps_of_step hstep
    exact hnone
  have hrunning : ∀ other, other ≠ index → drained.running other = system.running other := by
    intro other hne
    unfold running
    rw [hother other hne]
  rw [show System.mk (system.setWorker index worker').workers
    (Function.update (system.setWorker index worker').completed index [])
    (system.setWorker index worker').cells (system.setWorker index worker').returned = drained
    from hdrained]
  refine ⟨?_, ?_, ?_, ?_, ?_, ?_⟩
  · intro other
    by_cases hne : other = index
    · subst hne
      obtain ⟨roster, hroster⟩ := h.awaits other
      rw [hself]
      exact hroster.step hstep hwoken (by simp) (by simp)
    · obtain ⟨roster, hroster⟩ := h.awaits other
      rw [hother other hne]
      exact ⟨roster, hroster.mono fun address token => hmono other address token hne⟩
  · intro other id fiber park address levels hfiber hphase
    by_cases hne : other = index
    · subst hne
      rw [hran] at hfiber
      cases hfiber
    · rw [hrunning other hne] at hfiber
      obtain ⟨token, hpark, hawait⟩ := h.parking other id fiber park address levels hfiber hphase
      exact ⟨token, hpark, hmono other address token hne hawait⟩
  · intro other id fiber address hfiber hphase
    by_cases hne : other = index
    · subst hne
      rw [hran] at hfiber
      cases hfiber
    · rw [hrunning other hne] at hfiber
      rw [← hdrained]
      exact h.waking other id fiber address hfiber hphase
  · rw [← hdrained]
    exact h.spent
  · rw [← hdrained]
    exact h.returned
  · rw [← hdrained]
    exact h.kept

theorem setWorker_setWorker (index : Nat) (worker worker' : Worker Fiber) :
    (system.setWorker index worker).setWorker index worker' = system.setWorker index worker' := by
  unfold setWorker
  simp

theorem Sound.resume (h : system.Sound kept) {index : Nat}
    (hwork : system.work index .resume = some system') :
    ∃ id fiber, system'.running index = some (id, fiber) ∧
      (system'.setPhase index id fiber .active).Sound kept := by
  obtain ⟨worker', hstep, rfl⟩ := work_eq hwork
  obtain ⟨roster, hroster⟩ := h.awaits index
  have hkeep : ∀ address token, system.Awaited index address token →
      system.Awaited index address token ∨
        (Park.readiness token).wokenBy (.resume : Event Fiber) = true := fun _ _ => .inl
  obtain ⟨roster', hroster'⟩ := hroster.step hstep hkeep (by simp) (by simp)
  have hself : (system.setWorker index worker').workers index = worker' := Function.update_self ..
  obtain ⟨id, fiber, hrunning⟩ : ∃ id fiber, worker'.running = some (id, fiber) := by
    cases Worker.steps_of_step hstep
    exact ⟨_, _, rfl⟩
  refine ⟨id, fiber, by rw [setWorker_running, if_pos rfl, hrunning], ?_⟩
  unfold setPhase
  rw [setWorker_setWorker, hself]
  refine h.setWorker (hroster'.rerun _ hrunning) ?_ ?_
  · intro _ _ park address levels hran hphase
    cases hran
    cases hphase
  · intro _ _ address hran hphase
    cases hran
    cases hphase

theorem Sound.stepRunning (h : system.Sound kept) {index id : Nat} {fiber : Fiber} {act : Act Value}
    (hrunning : system.running index = some (id, fiber))
    (hstep : System.stepRunning index id fiber act system = some system') : system'.Sound kept := by
  unfold System.stepRunning at hstep
  split at hstep
  case h_1 event hactive =>
    -- source
    split at hstep
    case isTrue hsource =>
      exact h.work hstep (by rintro _ rfl; cases hsource) (by rintro _ _ rfl; cases hsource)
        (by rintro rfl; cases hsource)
    case isFalse => cases hstep
  case h_2 address target hactive =>
    -- launch
    split at hstep
    case h_1 hfresh =>
      cases hstep
      refine h.setCell address _ ?_ ?_ (by simp [DeferredState.settled])
      · rintro worker token ⟨old, hold, -⟩
        rw [hfresh] at hold
        cases hold
      · intro old hold
        rw [hfresh] at hold
        cases hold
    case h_2 => cases hstep
  case h_3 hactive =>
    -- enterGuard
    obtain ⟨reserved, hwork, rfl⟩ := Option.map_eq_some_iff.mp hstep
    have hreserved := h.work hwork (by simp) (by simp) (by simp)
    obtain ⟨worker', hworker, rfl⟩ := work_eq hwork
    have hran : (system.setWorker index worker').running index = some (id, fiber) := by
      rw [setWorker_running, if_pos rfl]
      cases Worker.steps_of_step hworker
      exact hrunning
    refine hreserved.setRunning hran ?_ ?_ <;> simp [hactive]
  case h_4 hactive =>
    -- leaveGuard
    split at hstep
    case h_1 guard guards hguards =>
      obtain ⟨released, hwork, rfl⟩ := Option.map_eq_some_iff.mp hstep
      have hreleased := h.work hwork (by simp) (by simp) (by simp)
      obtain ⟨worker', hworker, rfl⟩ := work_eq hwork
      have hran : (system.setWorker index worker').running index = some (id, fiber) := by
        rw [setWorker_running, if_pos rfl]
        cases Worker.steps_of_step hworker
        exact hrunning
      refine hreleased.setRunning hran ?_ ?_ <;> simp [hactive]
    case h_2 => cases hstep
  case h_5 park hactive =>
    -- park
    split at hstep
    case isTrue =>
      cases hstep
      exact h.setRunning hrunning (by simp) (by simp)
    case isFalse => cases hstep
  case h_6 address hactive =>
    -- force
    split at hstep
    case h_1 cell hcell =>
      split at hstep
      case isTrue => cases hstep
      case isFalse =>
        split at hstep
        case h_1 value hvalue =>
          cases hstep
          refine ⟨h.awaits, h.parking, h.waking, h.spent, ?_, h.kept⟩
          rintro entry hentry
          rcases List.mem_cons.mp hentry with rfl | hentry
          · exact ⟨cell, hcell, hvalue⟩
          · exact h.returned entry hentry
        case h_2 =>
          cases hstep
          exact h
        case h_3 => exact h.register hrunning hcell hstep
    case h_2 => cases hstep
  case h_7 address hactive =>
    -- settle
    split at hstep
    case h_1 cell hcell =>
      split at hstep
      case isTrue => cases hstep
      case isFalse =>
        split at hstep
        case h_3 => exact h.register hrunning hcell hstep
        all_goals
          cases hstep
          exact h
    case h_2 => cases hstep
  case h_8 park cell levels hphase =>
    -- forward
    cases hstep
    refine h.setRunning hrunning ?_ (by simp)
    intro other address levels' hother
    cases hother
    exact h.parking index id fiber park address _ hrunning hphase
  case h_9 park cell hphase =>
    -- file
    refine h.work hstep (by simp) ?_ (by simp)
    rintro _ _ hevent
    cases hevent
    exact ⟨id, cell, 0, hrunning, hphase⟩
  case h_10 address outcome hactive =>
    -- store
    split at hstep
    case h_1 cell hcell =>
      split at hstep
      case isTrue hproducer =>
        cases hstep
        have hstored := h.store hcell hproducer.2.1 outcome
        refine hstored.setRunning hrunning (by simp) ?_
        intro other hother
        cases hother
        refine ⟨_, Function.update_self .., ?_⟩
        cases outcome <;> rfl
      case isFalse => cases hstep
    case h_2 => cases hstep
  case h_11 address hphase =>
    -- complete
    split at hstep
    case h_1 cell hcell =>
      split at hstep
      case h_1 worker token waiters hwaiters =>
        cases hstep
        obtain ⟨found, hfound, hsettled⟩ := h.waking index id fiber address hrunning hphase
        rw [hcell] at hfound
        cases hfound
        exact h.complete hcell hsettled hwaiters
      case h_2 => cases hstep
    case h_2 => cases hstep
  case h_12 address hphase =>
    -- unlock
    split at hstep
    case h_1 cell hcell =>
      split at hstep
      case isTrue =>
        cases hstep
        exact (h.relock hcell false).setRunning hrunning (by simp) (by simp)
      case isFalse => cases hstep
    case h_2 => cases hstep
  case h_13 hactive =>
    -- finish
    split at hstep
    case isTrue => exact h.work hstep (by simp) (by simp) (by simp)
    case isFalse => cases hstep
  case h_14 => cases hstep

theorem Sound.stepLoop (h : system.Sound kept) {index : Nat} {act : Act Value}
    (hnone : system.running index = none) (hstep : System.stepLoop index act system = some system') :
    system'.Sound kept := by
  unfold System.stepLoop at hstep
  split at hstep
  case h_1 =>
    obtain ⟨resumed, hwork, rfl⟩ := Option.map_eq_some_iff.mp hstep
    obtain ⟨id, fiber, hrunning, hresumed⟩ := h.resume hwork
    rw [hrunning]
    exact hresumed
  case h_2 reported =>
    split at hstep
    case isTrue =>
      obtain ⟨woken, hwork, rfl⟩ := Option.map_eq_some_iff.mp hstep
      exact h.collect hnone hwork
    case isFalse => cases hstep
  case h_3 now => exact h.work hstep (by simp) (by simp) (by simp)
  case h_4 => cases hstep

theorem Sound.step (h : system.Sound kept) {move : Nat × Act Value}
    (hstep : System.step move system = some system') : system'.Sound kept := by
  unfold System.step at hstep
  split at hstep
  case h_1 => exact h.work hstep (by rintro _ ⟨⟩; rfl) (by simp) (by simp)
  case h_2 address =>
    split at hstep
    case h_1 cell hcell =>
      split at hstep
      case isTrue hproducer =>
        obtain ⟨spawned, hwork, rfl⟩ := Option.map_eq_some_iff.mp hstep
        have hspawned := h.work hwork (by rintro _ ⟨⟩; rfl) (by simp) (by simp)
        obtain ⟨worker', -, rfl⟩ := work_eq hwork
        refine hspawned.setCell address _ ?_ ?_ ?_
        · rintro worker token ⟨old, hold, hawait⟩
          obtain rfl : cell = old := Option.some.inj (hcell.symm.trans hold)
          exact hawait
        · intro old hold _
          obtain rfl : cell = old := Option.some.inj (hcell.symm.trans hold)
          rfl
        · have hspent := h.spent address cell hcell
          simpa [hproducer] using hspent
      case isFalse => cases hstep
    case h_2 => cases hstep
  case h_3 =>
    split at hstep
    case h_1 id fiber hrunning => exact h.stepRunning hrunning hstep
    case h_2 hnone => exact h.stepLoop hnone hstep


theorem sound_of_reaches (h : system.Reaches) : system.Sound fun _ _ => False := by
  have hstart : System.Sound (fun _ _ => False) (start : System Value) := by
    refine ⟨fun _ => ⟨fun _ => none, ?_, ?_⟩, ?_, ?_, ?_, ?_, ?_⟩
    · constructor <;> simp [start, Worker.start, Scheduler.new]
    all_goals simp [start, Worker.start, Scheduler.new, running]
  exact Run.invariant hstart (fun _ _ _ hs _ hstep => hs.step hstep) h

theorem Sound.run {later : System Value} (h : system.Sound kept)
    (hlater : Reachable System.step system later) : later.Sound kept :=
  Run.invariant h (fun _ _ _ hs _ hstep => hs.step hstep) hlater

end System

/-- A cell settles at most once and stays as it settled, a force returns what was stored, and a fiber
that waits for a settled cell is about to be woken. -/
theorem settles_once (h : system.Reaches) :
    (∀ later address cell, Reachable System.step system later →
      system.cells address = some cell → cell.state.settled = true →
      ∃ cell', later.cells address = some cell' ∧ cell'.state = cell.state) ∧
    (∀ address value, (address, value) ∈ system.returned →
      ∃ cell, system.cells address = some cell ∧ cell.state = .ready value) ∧
    (∀ (index id : Nat) (fiber : Fiber) (park : Park) (address levels : Nat) (cell : Deferred Value),
      (system.workers index).scheduler.fibers[id]? = some (some fiber) →
      fiber.phase = .parking park (some address) levels → system.cells address = some cell →
      cell.state.settled = true →
      id ∈ (system.workers index).scheduler.ready ∨ ∃ token, park = .readiness token ∧
        ((index, token) ∈ cell.waiters ∨ token ∈ system.completed index)) := by
  have hsound := System.sound_of_reaches h
  refine ⟨?_, fun address value hentry => hsound.returned _ hentry, ?_⟩
  · intro later address cell hlater hcell hsettled
    have hkept : system.Sound fun other state => other = address ∧ state = cell.state := by
      refine { hsound with kept := ?_ }
      rintro _ _ ⟨rfl, rfl⟩
      exact ⟨hsettled, cell, hcell, rfl⟩
    exact ((hkept.run hlater).kept address cell.state ⟨rfl, rfl⟩).2
  · intro index id fiber park address levels cell hid hphase hcell hsettled
    obtain ⟨roster, hroster⟩ := hsound.awaits index
    rcases hroster.filed id fiber park _ levels hid hphase with hready | ⟨-, hawait⟩
    · exact .inl ((hroster.represents.ready id).mpr hready)
    · obtain ⟨token, hpark, found, hfound, hawait⟩ := hawait address rfl
      obtain rfl : cell = found := Option.some.inj (hcell.symm.trans hfound)
      exact .inr ⟨token, hpark, hawait.imp_right And.right⟩

/-- A force on one worker, the store on another, and the wake between them. -/
theorem forced_across_workers :
    ∃ system : System Nat, follow System.step (fun _ _ => true)
        [(0, .spawn), (0, .resume), (0, .launch 7 1), (0, .force 7), (1, .install 7), (1, .resume),
          (1, .store 7 (.value 5)), (1, .complete), (0, .file), (1, .unlock), (0, .collect []),
          (0, .resume), (0, .force 7)] .start = some system ∧
      ∃ cell, system.cells 7 = some cell ∧ cell.state = .ready 5 := by
  obtain ⟨system, hsystem⟩ : ∃ system : System Nat, follow System.step (fun _ _ => true)
      [(0, .spawn), (0, .resume), (0, .launch 7 1), (0, .force 7), (1, .install 7), (1, .resume),
        (1, .store 7 (.value 5)), (1, .complete), (0, .file), (1, .unlock), (0, .collect []),
        (0, .resume), (0, .force 7)] .start = some system := ⟨_, rfl⟩
  have hsettles := settles_once (.of_follow (fun _ _ _ => trivial) .start hsystem)
  refine ⟨system, hsystem, hsettles.2.1 7 5 ?_⟩
  cases hsystem
  exact List.mem_cons_self

end Quilon.Runtime
