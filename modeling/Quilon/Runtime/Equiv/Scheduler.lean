import Quilon.Runtime.Scheduler
import Mathlib.Data.List.Nodup
import Mathlib.Data.List.Perm.Basic

/-!
# A worker neither loses nor duplicates a fiber

Seen from outside, a fiber is in one of a few conditions: it is ready, it runs, it is parked on
something, or its id belongs to a guard.  `Roster` is that view, and `Represents` says what the
containers of the scheduler make of it: each container holds exactly the ids in its condition, each
of them once.

Main results:

* `represents_of_reaches` — in every reachable state the containers represent a roster, and every
  step of the worker is a step of the roster;
* `fiber_in_one_place` — so every live fiber is in exactly one place.
-/

namespace Quilon.Runtime

/-! ### The abstract view -/

inductive Status where
  | reserved
  | ready
  | running
  | parked (park : Park)

/-- The condition of every id in use. -/
abbrev Roster := Nat → Option Status

/-- A park ends when its token is reported or its deadline has passed. -/
def Park.wokenBy {Coroutine : Type} (park : Park) : Event Coroutine → Bool
  | .wake tokens =>
    match park.token with
    | some token => tokens.contains token
    | none => false
  | .sweep now =>
    match park with
    | .sleep deadline | .readinessOrDeadline _ deadline => deadline ≤ now
    | _ => false
  | _ => false

/-- The fibers whose park has `fired` are made ready. -/
def Roster.fire (roster : Roster) (fired : Park → Bool) : Roster := fun id =>
  match roster id with
  | some (.parked park) => if fired park then some .ready else some (.parked park)
  | status => status

/-- What an event does to the fibers. -/
inductive RosterStep {Coroutine : Type} (roster : Roster) : Event Coroutine → Roster → Prop where
  | spawn {id : Nat} (coroutine : Coroutine) : roster id = none →
      RosterStep roster (.spawn coroutine) (Function.update roster id (some .ready))
  | resume {id : Nat} : roster id = some .ready →
      RosterStep roster .resume (Function.update roster id (some .running))
  | park {id : Nat} (park : Park) (coroutine : Coroutine) : roster id = some .running →
      RosterStep roster (.park park coroutine) (Function.update roster id (some (.parked park)))
  | finish {id : Nat} : roster id = some .running →
      RosterStep roster .finish (Function.update roster id none)
  | reserve {id : Nat} : roster id = none →
      RosterStep roster .reserve (Function.update roster id (some .reserved))
  | release {id : Nat} : roster id = some .reserved →
      RosterStep roster (.release id) (Function.update roster id none)
  | wakes {event : Event Coroutine} :
      (∃ tokens, event = .wake tokens) ∨ (∃ now, event = .sweep now) →
      RosterStep roster event (roster.fire (·.wokenBy event))
  | token {event : Event Coroutine} : event = .register ∨ (∃ token, event = .borrow token) ∨
      (∃ token, event = .unborrow token) → RosterStep roster event roster

variable {Coroutine : Type}

/-- The fibers of a worker, read off its containers. -/
def Worker.view (worker : Worker Coroutine) : Roster := fun id =>
  if worker.running.map (·.1) = some id then some .running
  else if id ∈ worker.reserved then some .reserved
  else if id ∈ worker.scheduler.ready then some .ready
  else
    match worker.scheduler.timers.find? (·.2 = id),
      worker.scheduler.readinessDeadlines.find? (·.2.2 = id),
      worker.scheduler.readinessWaiters.find? (·.2 = id) with
    | some (deadline, _), _, _ => some (.parked (.sleep deadline))
    | none, some (deadline, token, _), _ => some (.parked (.readinessOrDeadline token deadline))
    | none, none, some (token, _) => some (.parked (.readiness token))
    | none, none, none => none

/-- The containers hold what the roster says, each id once. -/
@[grind cases]
structure Represents (worker : Worker Coroutine) (roster : Roster) : Prop where
  inSlab : ∀ id status, roster id = some status → id < worker.scheduler.fibers.length
  free : ∀ id, id ∈ worker.scheduler.free ↔ id < worker.scheduler.fibers.length ∧ roster id = none
  freeOnce : worker.scheduler.free.Nodup
  occupied : ∀ id, (∃ coroutine, worker.scheduler.fibers[id]? = some (some coroutine)) ↔
    roster id = some .ready ∨ ∃ park, roster id = some (.parked park)
  ready : ∀ id, id ∈ worker.scheduler.ready ↔ roster id = some .ready
  readyOnce : worker.scheduler.ready.Nodup
  running : ∀ id, (∃ coroutine, worker.running = some (id, coroutine)) ↔ roster id = some .running
  reserved : ∀ id, id ∈ worker.reserved ↔ roster id = some .reserved
  reservedOnce : worker.reserved.Nodup
  timers : ∀ deadline id, (deadline, id) ∈ worker.scheduler.timers ↔
    roster id = some (.parked (.sleep deadline))
  timersOnce : (worker.scheduler.timers.map (·.2)).Nodup
  waiters : ∀ token id, (token, id) ∈ worker.scheduler.readinessWaiters ↔
    ∃ park, roster id = some (.parked park) ∧ park.token = some token
  waitersOnce : (worker.scheduler.readinessWaiters.map (·.1)).Nodup
  deadlines : ∀ deadline token id, (deadline, token, id) ∈ worker.scheduler.readinessDeadlines ↔
    roster id = some (.parked (.readinessOrDeadline token deadline))
  deadlinesOnce : (worker.scheduler.readinessDeadlines.map (·.2.2)).Nodup
  waits : ∀ id park, roster id = some (.parked park) → park.isMarker = false
  allocated : ∀ entry ∈ worker.holders, entry.1 < worker.nextToken
  held : ∀ id park token, roster id = some (.parked park) → park.token = some token →
    worker.holders.lookup token = some id

/-! ### The sweep -/

section Sweep

variable {α : Type}

theorem swapRemove_perm {entries : List α} {i : Nat} {entry : α} (h : entries[i]? = some entry) :
    (entry :: Scheduler.swapRemove entries i).Perm entries := by
  obtain ⟨hi, rfl⟩ := List.getElem?_eq_some_iff.mp h
  rcases List.eq_nil_or_concat entries with rfl | ⟨front, last, hentries⟩
  · simp at hi
  rw [List.concat_eq_append] at hentries
  subst hentries
  have hlast : (front ++ [last]).getLast? = some last := List.getLast?_concat
  unfold Scheduler.swapRemove
  rw [hlast]
  by_cases hfront : i < front.length
  · -- The last element takes the place of the removed one.
    have hset : ((front ++ [last]).set i last).dropLast = front.set i last := by
      rw [List.set_append_left _ _ hfront, List.dropLast_concat]
    have hget : (front ++ [last])[i] = front[i] := List.getElem_append_left hfront
    simp only [hset, hget]
    calc front[i] :: front.set i last
        _ |>.Perm (front[i] :: last :: front.eraseIdx i) :=
          (List.set_perm_cons_eraseIdx hfront last).cons _
        _ |>.Perm (last :: front[i] :: front.eraseIdx i) := List.Perm.swap _ _ _
        _ |>.Perm (last :: front) := (List.getElem_cons_eraseIdx_perm hfront).cons _
        _ |>.Perm (front ++ [last]) := (List.perm_append_singleton last front).symm
  · have hi' : i = front.length := by
      rw [List.length_append, List.length_singleton] at hi
      omega
    subst hi'
    simpa using (List.perm_append_singleton last front).symm

/-- The sweep takes exactly what is due. -/
theorem sweepLoop_spec (due : α → Bool) {fuel i : Nat} {entries : List α}
    (hfuel : entries.length ≤ fuel + i) (hdone : ∀ entry ∈ entries.take i, due entry = false) :
    let swept := Scheduler.sweepLoop due fuel i entries
    (swept.1 ++ swept.2).Perm entries ∧ (∀ entry ∈ swept.1, due entry = false) ∧
      ∀ entry ∈ swept.2, due entry = true := by
  induction fuel generalizing i entries with
  | zero =>
    rw [List.take_of_length_le (by omega)] at hdone
    simpa [Scheduler.sweepLoop] using hdone
  | succ fuel ih =>
    rw [Scheduler.sweepLoop]
    cases hentry : entries[i]? with
    | none =>
      rw [List.take_of_length_le (List.getElem?_eq_none_iff.mp hentry)] at hdone
      simpa using hdone
    | some entry =>
      have hperm := swapRemove_perm hentry
      have hlength := hperm.length_eq
      rw [List.length_cons] at hlength
      obtain ⟨hi, hget⟩ := List.getElem?_eq_some_iff.mp hentry
      dsimp only
      split
      case isTrue hdue =>
        have htake : (Scheduler.swapRemove entries i).take i = entries.take i := by
          unfold Scheduler.swapRemove
          split
          · rw [List.dropLast_eq_take, List.take_take, List.length_set,
              Nat.min_eq_left (by omega), List.take_set_of_le (Nat.le_refl i)]
          · rfl
        rw [← htake] at hdone
        obtain ⟨hswept, hkept, hremoved⟩ := ih (by omega) hdone
        refine ⟨?_, hkept, List.forall_mem_cons.mpr ⟨hdue, hremoved⟩⟩
        exact (List.perm_middle.trans (hswept.cons entry)).trans hperm
      case isFalse hdue =>
        refine ih (by omega) fun other hother => ?_
        rw [List.take_add_one, hentry] at hother
        rcases List.mem_append.mp hother with hother | hother
        · exact hdone other hother
        · rw [List.mem_singleton.mp hother]
          simpa using hdue

/-- What is kept and what is removed, for entries whose keys differ. -/
theorem sweep_spec (due : α → Bool) (entries : List α) {β : Type} (key : α → β)
    (hnodup : (entries.map key).Nodup) :
    let swept := Scheduler.sweepLoop due entries.length 0 entries
    (∀ entry, entry ∈ swept.1 ↔ entry ∈ entries ∧ due entry = false) ∧
      (∀ entry, entry ∈ swept.2 ↔ entry ∈ entries ∧ due entry = true) ∧
      (swept.1.map key).Nodup ∧ (swept.2.map key).Nodup := by
  intro swept
  have hfuel : entries.length ≤ entries.length + 0 := Nat.le_refl _
  obtain ⟨hperm, hkept, hremoved⟩ := sweepLoop_spec due hfuel (by simp)
  have hmem : ∀ entry, entry ∈ entries ↔ entry ∈ swept.1 ∨ entry ∈ swept.2 := by
    intro entry
    rw [← hperm.mem_iff, List.mem_append]
  have hkeys : ((swept.1 ++ swept.2).map key).Nodup := (hperm.map key).nodup_iff.mpr hnodup
  rw [List.map_append, List.nodup_append] at hkeys
  refine ⟨fun entry => ⟨fun h => ⟨(hmem entry).mpr (.inl h), hkept entry h⟩, fun h => ?_⟩,
    fun entry => ⟨fun h => ⟨(hmem entry).mpr (.inr h), hremoved entry h⟩, fun h => ?_⟩,
    hkeys.1, hkeys.2.1⟩
  · rcases (hmem entry).mp h.1 with hentry | hentry
    · exact hentry
    · rw [hremoved entry hentry] at h
      cases h.2
  · rcases (hmem entry).mp h.1 with hentry | hentry
    · rw [hkept entry hentry] at h
      cases h.2
    · exact hentry

end Sweep

/-! ### Waking fibers -/

namespace Roster

variable {roster : Roster} {fired : Park → Bool} {id : Nat}

theorem fire_eq_parked {park : Park} :
    roster.fire fired id = some (.parked park) ↔
      roster id = some (.parked park) ∧ fired park = false := by
  unfold fire
  split
  case h_1 other hother =>
    simp only [hother, Option.some.injEq, Status.parked.injEq]
    split
    case isTrue hfired =>
      simp only [Option.some.injEq, reduceCtorEq, false_iff, not_and]
      rintro rfl
      simp [hfired]
    case isFalse hfired =>
      simp only [Option.some.injEq, Status.parked.injEq, iff_self_and]
      rintro rfl
      simpa using hfired
  case h_2 hother => simp_all

theorem fire_eq_ready :
    roster.fire fired id = some .ready ↔
      roster id = some .ready ∨ ∃ park, roster id = some (.parked park) ∧ fired park = true := by
  unfold fire
  split
  · split <;> simp_all
  · simp_all

theorem fire_eq_none : roster.fire fired id = none ↔ roster id = none := by
  unfold fire
  split
  · split <;> simp_all
  · simp_all

theorem fire_eq_running : roster.fire fired id = some .running ↔ roster id = some .running := by
  unfold fire
  split
  · split <;> simp_all
  · simp_all

theorem fire_eq_reserved :
    roster.fire fired id = some .reserved ↔ roster id = some .reserved := by
  unfold fire
  split
  · split <;> simp_all
  · simp_all

theorem fire_fire (later : Park → Bool) :
    (roster.fire fired).fire later = roster.fire fun park => fired park || later park := by
  funext id
  unfold fire
  cases roster id with
  | none => rfl
  | some status =>
    cases status with
    | parked park => cases hfired : fired park <;> simp [hfired]
    | _ => rfl

end Roster

theorem Represents.slab {worker : Worker Coroutine} {roster : Roster} (h : Represents worker roster)
    {id : Nat} {status : Status} (hid : roster id = some status) :
    id < worker.scheduler.fibers.length :=
  h.inSlab id status hid

/-- A wake moves the fibers of `woken` to the end of the ready queue and takes them out of the
containers they waited in. -/
theorem Represents.fire {worker : Worker Coroutine} {roster : Roster}
    (h : Represents worker roster) {fired : Park → Bool} {woken : List Nat}
    {scheduler : Scheduler Coroutine} (hnodup : woken.Nodup)
    (hwoken : ∀ id, id ∈ woken ↔ ∃ park, roster id = some (.parked park) ∧ fired park = true)
    (hfibers : scheduler.fibers = worker.scheduler.fibers)
    (hfree : scheduler.free = worker.scheduler.free)
    (hready : scheduler.ready = worker.scheduler.ready ++ woken)
    (htimers : ∀ entry, entry ∈ scheduler.timers ↔
      entry ∈ worker.scheduler.timers ∧ entry.2 ∉ woken)
    (htimersOnce : (scheduler.timers.map (·.2)).Nodup)
    (hwaiters : ∀ entry, entry ∈ scheduler.readinessWaiters ↔
      entry ∈ worker.scheduler.readinessWaiters ∧ entry.2 ∉ woken)
    (hwaitersOnce : (scheduler.readinessWaiters.map (·.1)).Nodup)
    (hdeadlines : ∀ entry, entry ∈ scheduler.readinessDeadlines ↔
      entry ∈ worker.scheduler.readinessDeadlines ∧ entry.2.2 ∉ woken)
    (hdeadlinesOnce : (scheduler.readinessDeadlines.map (·.2.2)).Nodup) :
    Represents { worker with scheduler := scheduler } (roster.fire fired) where
  inSlab id status hid := by
    show id < scheduler.fibers.length
    rw [hfibers]
    cases hroster : roster id with
    | none => rw [Roster.fire_eq_none.mpr hroster] at hid; cases hid
    | some _ => exact h.slab hroster
  free id := by
    show id ∈ scheduler.free ↔ id < scheduler.fibers.length ∧ _
    rw [hfree, hfibers, Roster.fire_eq_none]
    exact h.free id
  freeOnce := by
    show scheduler.free.Nodup
    exact hfree ▸ h.freeOnce
  occupied id := by
    show (∃ coroutine, scheduler.fibers[id]? = some (some coroutine)) ↔ _
    rw [hfibers, h.occupied id]
    simp only [Roster.fire_eq_ready, Roster.fire_eq_parked]
    constructor
    · rintro (hid | ⟨park, hid⟩)
      · exact .inl (.inl hid)
      · cases hfired : fired park with
        | true => exact .inl (.inr ⟨park, hid, hfired⟩)
        | false => exact .inr ⟨park, hid, hfired⟩
    · rintro ((hid | ⟨park, hid, -⟩) | ⟨park, hid, -⟩)
      · exact .inl hid
      · exact .inr ⟨park, hid⟩
      · exact .inr ⟨park, hid⟩
  ready id := by
    show id ∈ scheduler.ready ↔ _
    rw [hready, List.mem_append, h.ready, hwoken, Roster.fire_eq_ready]
  readyOnce := by
    show scheduler.ready.Nodup
    rw [hready, List.nodup_append]
    refine ⟨h.readyOnce, hnodup, ?_⟩
    rintro id hid _ hother rfl
    obtain ⟨park, hpark, -⟩ := (hwoken id).mp hother
    rw [(h.ready id).mp hid] at hpark
    cases hpark
  running id := (h.running id).trans Roster.fire_eq_running.symm
  reserved id := (h.reserved id).trans Roster.fire_eq_reserved.symm
  reservedOnce := h.reservedOnce
  timers deadline id := by
    show _ ∈ scheduler.timers ↔ _
    rw [htimers, h.timers, Roster.fire_eq_parked, hwoken]
    refine and_congr_right fun hid => ?_
    simp [hid]
  timersOnce := htimersOnce
  waiters token id := by
    show _ ∈ scheduler.readinessWaiters ↔ _
    rw [hwaiters, h.waiters, hwoken]
    simp only [Roster.fire_eq_parked]
    constructor
    · rintro ⟨⟨park, hid, htoken⟩, hnot⟩
      refine ⟨park, ⟨hid, ?_⟩, htoken⟩
      by_contra hfired
      exact hnot ⟨park, hid, by simpa using hfired⟩
    · rintro ⟨park, ⟨hid, hfired⟩, htoken⟩
      refine ⟨⟨park, hid, htoken⟩, ?_⟩
      rintro ⟨other, hother, hotherFired⟩
      rw [hid] at hother
      cases hother
      rw [hfired] at hotherFired
      cases hotherFired
  waitersOnce := hwaitersOnce
  deadlines deadline token id := by
    show _ ∈ scheduler.readinessDeadlines ↔ _
    rw [hdeadlines, h.deadlines, Roster.fire_eq_parked, hwoken]
    refine and_congr_right fun hid => ?_
    simp [hid]
  deadlinesOnce := hdeadlinesOnce
  waits id park hid := h.waits id park (Roster.fire_eq_parked.mp hid).1
  allocated := h.allocated
  held id park token hid htoken := h.held id park token (Roster.fire_eq_parked.mp hid).1 htoken

variable {worker : Worker Coroutine} {roster : Roster}

/-- A token has one waiter. -/
theorem Represents.token_unique (h : Represents worker roster) {token id other : Nat}
    {park otherPark : Park} (hid : roster id = some (.parked park))
    (hother : roster other = some (.parked otherPark)) (htoken : park.token = some token)
    (hotherToken : otherPark.token = some token) : id = other := by
  have hheld := h.held id park token hid htoken
  rw [h.held other otherPark token hother hotherToken] at hheld
  exact (Option.some.inj hheld).symm

theorem Represents.wakeToken (h : Represents worker roster) (token : Nat) :
    Represents { worker with scheduler := worker.scheduler.wakeToken token }
      (roster.fire fun park => park.token == some token) := by
  unfold Scheduler.wakeToken
  split
  case h_1 id hlookup =>
    have hmem : (token, id) ∈ worker.scheduler.readinessWaiters := by
      obtain ⟨front, back, hsplit, -⟩ := List.lookup_eq_some_iff.mp hlookup
      simp [hsplit]
    obtain ⟨park, hid, htoken⟩ := (h.waiters token id).mp hmem
    refine h.fire (List.nodup_singleton id) ?_ rfl rfl rfl ?_ h.timersOnce ?_ ?_ ?_ ?_
    · intro other
      simp only [List.mem_singleton, beq_iff_eq]
      constructor
      · rintro rfl
        exact ⟨park, hid, htoken⟩
      · rintro ⟨otherPark, hother, hotherToken⟩
        exact h.token_unique hother hid hotherToken htoken
    · rintro ⟨deadline, other⟩
      refine (and_iff_left_of_imp fun hother hsame => ?_).symm
      have hsleep := (h.timers deadline other).mp hother
      rw [show other = id from List.mem_singleton.mp hsame, hid] at hsleep
      cases hsleep
      cases htoken
    · rintro ⟨otherToken, other⟩
      rw [List.mem_filter]
      refine and_congr_right fun hother => ?_
      obtain ⟨otherPark, hotherId, hotherToken⟩ := (h.waiters otherToken other).mp hother
      simp only [decide_eq_true_eq, List.mem_singleton]
      refine not_congr ⟨?_, ?_⟩
      · rintro rfl
        exact h.token_unique hotherId hid hotherToken htoken
      · rintro rfl
        rw [hid] at hotherId
        cases hotherId
        rw [htoken] at hotherToken
        exact (Option.some.inj hotherToken).symm
    · exact (List.filter_sublist.map _).nodup h.waitersOnce
    · rintro entry
      rw [List.mem_filter]
      simp
    · exact (List.filter_sublist.map _).nodup h.deadlinesOnce
  case h_2 hlookup =>
    have hnone : ∀ id, ¬∃ park, roster id = some (.parked park) ∧ park.token = some token := by
      intro id hid
      have hmem := (h.waiters token id).mpr hid
      have hne := List.lookup_eq_none_iff.mp hlookup _ hmem
      simp at hne
    refine h.fire List.nodup_nil ?_ rfl rfl (List.append_nil _).symm ?_ h.timersOnce ?_
      h.waitersOnce ?_ h.deadlinesOnce
    · intro id
      simpa using hnone id
    all_goals simp

theorem Represents.wake (h : Represents worker roster) (tokens : List Nat) :
    Represents { worker with scheduler := worker.scheduler.wake tokens }
      (roster.fire (·.wokenBy (.wake tokens : Event Coroutine))) := by
  induction tokens generalizing worker roster with
  | nil =>
    have hsame : roster.fire (·.wokenBy (.wake [] : Event Coroutine)) = roster := by
      funext id
      unfold Roster.fire
      split
      case h_1 park hid => cases hpark : park.token <;> simp [Park.wokenBy, hpark, hid]
      case h_2 => rfl
    rw [hsame]
    exact h
  | cons token tokens ih =>
    have hwoken := ih (h.wakeToken token)
    rw [Roster.fire_fire] at hwoken
    have hfired : (fun park : Park => park.wokenBy (.wake (token :: tokens) : Event Coroutine)) =
        fun park => (park.token == some token) || park.wokenBy (.wake tokens : Event Coroutine) := by
      funext park
      rw [Bool.eq_iff_iff]
      cases hpark : park.token <;> simp [Park.wokenBy, hpark]
    rw [hfired]
    exact hwoken

def Park.timerDue (now : Nat) : Park → Bool
  | .sleep deadline => deadline ≤ now
  | _ => false

def Park.deadlineDue (now : Nat) : Park → Bool
  | .readinessOrDeadline _ deadline => deadline ≤ now
  | _ => false

theorem Represents.sweepTimers (h : Represents worker roster) (now : Nat) :
    Represents { worker with scheduler := worker.scheduler.sweepTimers now }
      (roster.fire (Park.timerDue now)) := by
  obtain ⟨hkept, hdue, hkeptOnce, hdueOnce⟩ :=
    sweep_spec (fun entry => entry.1 ≤ now) worker.scheduler.timers (·.2) h.timersOnce
  have hwoken : ∀ id, id ∈ (Scheduler.sweepLoop (fun entry => entry.1 ≤ now)
      worker.scheduler.timers.length 0 worker.scheduler.timers).2.map (·.2) ↔
      ∃ park, roster id = some (.parked park) ∧ park.timerDue now = true := by
    intro id
    rw [List.mem_map]
    constructor
    · rintro ⟨⟨deadline, other⟩, hentry, rfl⟩
      obtain ⟨hentry, hnow⟩ := (hdue _).mp hentry
      exact ⟨.sleep deadline, (h.timers deadline other).mp hentry, hnow⟩
    · rintro ⟨park, hid, hnow⟩
      cases park with
      | sleep deadline => exact ⟨(deadline, id), (hdue _).mpr ⟨(h.timers _ _).mpr hid, hnow⟩, rfl⟩
      | _ => cases hnow
  refine h.fire hdueOnce hwoken rfl rfl rfl ?_ hkeptOnce ?_ h.waitersOnce ?_ h.deadlinesOnce
  · rintro ⟨deadline, id⟩
    refine (hkept _).trans (and_congr_right fun hentry => ?_)
    rw [hwoken, (h.timers deadline id).mp hentry]
    simp [Park.timerDue]
  · rintro ⟨token, id⟩
    refine (and_iff_left_of_imp fun hentry hid => ?_).symm
    obtain ⟨park, hpark, htoken⟩ := (h.waiters token id).mp hentry
    obtain ⟨other, hother, hnow⟩ := (hwoken id).mp hid
    rw [hpark] at hother
    cases hother
    cases park <;> simp [Park.token, Park.timerDue] at htoken hnow
  · rintro ⟨deadline, token, id⟩
    refine (and_iff_left_of_imp fun hentry hid => ?_).symm
    obtain ⟨other, hother, hnow⟩ := (hwoken id).mp hid
    rw [(h.deadlines deadline token id).mp hentry] at hother
    cases hother
    cases hnow

theorem Represents.sweepDeadlines (h : Represents worker roster) (now : Nat) :
    Represents { worker with scheduler := worker.scheduler.sweepDeadlines now }
      (roster.fire (Park.deadlineDue now)) := by
  obtain ⟨hkept, hdue, hkeptOnce, hdueOnce⟩ :=
    sweep_spec (fun entry => entry.1 ≤ now) worker.scheduler.readinessDeadlines (·.2.2)
      h.deadlinesOnce
  have hwoken : ∀ id, id ∈ (Scheduler.sweepLoop (fun entry => entry.1 ≤ now)
      worker.scheduler.readinessDeadlines.length 0 worker.scheduler.readinessDeadlines).2.map
        (·.2.2) ↔ ∃ park, roster id = some (.parked park) ∧ park.deadlineDue now = true := by
    intro id
    rw [List.mem_map]
    constructor
    · rintro ⟨⟨deadline, token, other⟩, hentry, rfl⟩
      obtain ⟨hentry, hnow⟩ := (hdue _).mp hentry
      exact ⟨.readinessOrDeadline token deadline, (h.deadlines deadline token other).mp hentry, hnow⟩
    · rintro ⟨park, hid, hnow⟩
      cases park with
      | readinessOrDeadline token deadline =>
        exact ⟨(deadline, token, id), (hdue _).mpr ⟨(h.deadlines _ _ _).mpr hid, hnow⟩, rfl⟩
      | _ => cases hnow
  refine h.fire hdueOnce hwoken rfl rfl rfl ?_ h.timersOnce ?_ ?_ ?_ hkeptOnce
  · rintro ⟨deadline, id⟩
    refine (and_iff_left_of_imp fun hentry hid => ?_).symm
    obtain ⟨other, hother, hnow⟩ := (hwoken id).mp hid
    rw [(h.timers deadline id).mp hentry] at hother
    cases hother
    cases hnow
  · -- The tokens that are removed are those of the fibers that are woken.
    rintro ⟨token, id⟩
    refine List.mem_filter.trans (and_congr_right fun hentry => ?_)
    obtain ⟨park, hid, htoken⟩ := (h.waiters token id).mp hentry
    simp only [Bool.not_eq_true', ← Bool.not_eq_true, List.contains_iff_mem]
    refine not_congr ⟨fun hmem => ?_, fun hmem => ?_⟩
    · obtain ⟨⟨deadline, _, other⟩, hother, rfl⟩ := List.mem_map.mp hmem
      have hparked := (h.deadlines _ _ _).mp ((hdue _).mp hother).1
      rw [h.token_unique hid hparked htoken rfl]
      exact List.mem_map_of_mem hother
    · obtain ⟨⟨deadline, otherToken, _⟩, hother, rfl⟩ := List.mem_map.mp hmem
      have hparked := (h.deadlines _ _ _).mp ((hdue _).mp hother).1
      rw [hid] at hparked
      cases hparked
      cases htoken
      exact List.mem_map_of_mem hother
  · exact (List.filter_sublist.map _).nodup h.waitersOnce
  · rintro ⟨deadline, token, id⟩
    refine (hkept _).trans (and_congr_right fun hentry => ?_)
    rw [hwoken, (h.deadlines deadline token id).mp hentry]
    simp [Park.deadlineDue]

theorem Represents.sweepDue (h : Represents worker roster) (now : Nat) :
    Represents { worker with scheduler := worker.scheduler.sweepDue now }
      (roster.fire (·.wokenBy (.sweep now : Event Coroutine))) := by
  have hswept := (h.sweepTimers now).sweepDeadlines now
  rw [Roster.fire_fire] at hswept
  have hfired : (fun park : Park => park.wokenBy (.sweep now : Event Coroutine)) =
      fun park => park.timerDue now || park.deadlineDue now := by
    funext park
    cases park <;> simp [Park.wokenBy, Park.timerDue, Park.deadlineDue]
  rw [hfired]
  exact hswept

/-! ### The other events -/

/-- What a reservation changes. -/
@[grind cases]
structure Reserves (scheduler reserved : Scheduler Coroutine) (id : Nat) : Prop where
  slab : ∀ other, other < reserved.fibers.length ↔ other < scheduler.fibers.length ∨ other = id
  fibers : ∀ (other : Nat) (coroutine : Coroutine), reserved.fibers[other]? = some (some coroutine) ↔
    scheduler.fibers[other]? = some (some coroutine)
  free : ∀ other, other ∈ reserved.free ↔ other ∈ scheduler.free ∧ other ≠ id
  freeOnce : reserved.free.Nodup
  ready : reserved.ready = scheduler.ready
  timers : reserved.timers = scheduler.timers
  waiters : reserved.readinessWaiters = scheduler.readinessWaiters
  deadlines : reserved.readinessDeadlines = scheduler.readinessDeadlines

theorem Represents.reserveId (h : Represents worker roster) :
    roster worker.scheduler.reserveId.1 = none ∧
      Reserves worker.scheduler worker.scheduler.reserveId.2 worker.scheduler.reserveId.1 := by
  have hfree := h.free
  have honce := h.freeOnce
  unfold Scheduler.reserveId
  split
  case h_1 id free heq =>
    rw [heq] at hfree honce
    obtain ⟨hslab, hnone⟩ := (hfree id).mp List.mem_cons_self
    obtain ⟨hnot, honce⟩ := List.nodup_cons.mp honce
    refine ⟨hnone, ?_, fun _ _ => Iff.rfl, ?_, honce, rfl, rfl, rfl, rfl⟩
    · intro other
      refine (or_iff_left_of_imp ?_).symm
      rintro rfl
      exact hslab
    · intro other
      rw [heq, List.mem_cons]
      constructor
      · intro hother
        refine ⟨.inr hother, ?_⟩
        rintro rfl
        exact hnot hother
      · rintro ⟨hother | hother, hne⟩
        · exact absurd hother hne
        · exact hother
  case h_2 heq =>
    have hnone : roster worker.scheduler.fibers.length = none := by
      by_contra hsome
      obtain ⟨status, hstatus⟩ := Option.ne_none_iff_exists'.mp hsome
      exact absurd (h.slab hstatus) (Nat.lt_irrefl _)
    refine ⟨hnone, ?_, ?_, ?_, honce, rfl, rfl, rfl, rfl⟩
    · intro other
      simp only [List.length_append, List.length_singleton]
      omega
    · intro other coroutine
      simp only [List.getElem?_append]
      split
      · exact Iff.rfl
      · rename_i hother
        rw [List.getElem?_eq_none (Nat.not_lt.mp hother)]
        cases hsub : other - worker.scheduler.fibers.length <;> simp
    · intro other
      simp [heq]

theorem Represents.reserve (h : Represents worker roster) :
    Represents
      { worker with
          scheduler := worker.scheduler.reserveId.2
          reserved := worker.scheduler.reserveId.1 :: worker.reserved }
      (Function.update roster worker.scheduler.reserveId.1 (some .reserved)) := by
  obtain ⟨hnone, hreserves⟩ := h.reserveId
  generalize worker.scheduler.reserveId.1 = id, worker.scheduler.reserveId.2 = reserved at *
  constructor <;> simp only [Function.update_apply] <;> grind

theorem Represents.installFiber (h : Represents worker roster) (coroutine : Coroutine) :
    Represents { worker with scheduler := worker.scheduler.installFiber coroutine }
      (Function.update roster worker.scheduler.reserveId.1 (some .ready)) := by
  obtain ⟨hnone, hreserves⟩ := h.reserveId
  have heq : worker.scheduler.installFiber coroutine =
      { worker.scheduler.reserveId.2 with
          fibers := worker.scheduler.reserveId.2.fibers.set worker.scheduler.reserveId.1
            (some coroutine)
          ready := worker.scheduler.reserveId.2.ready ++ [worker.scheduler.reserveId.1] } := rfl
  rw [heq]
  generalize worker.scheduler.reserveId.1 = id, worker.scheduler.reserveId.2 = reserved at *
  constructor <;> simp only [Function.update_apply] <;> grind

/-- A fiber leaves the worker, or a guard ends: the slot is free again. -/
theorem Represents.finish (h : Represents worker roster) {id : Nat} {coroutine : Coroutine}
    (hid : worker.running = some (id, coroutine)) :
    Represents { worker with scheduler := worker.scheduler.releaseId id, running := none }
      (Function.update roster id none) := by
  have hrunning := (h.running id).mp ⟨coroutine, hid⟩
  unfold Scheduler.releaseId
  constructor <;> simp only [Function.update_apply] <;> grind

theorem Represents.release (h : Represents worker roster) {id : Nat} (hid : id ∈ worker.reserved) :
    Represents { worker with
        scheduler := worker.scheduler.releaseId id
        reserved := worker.reserved.erase id }
      (Function.update roster id none) := by
  have hreserved := (h.reserved id).mp hid
  unfold Scheduler.releaseId
  constructor <;> simp only [Function.update_apply] <;> grind [List.Nodup.mem_erase_iff, List.Nodup.erase]

theorem Represents.resume (h : Represents worker roster) {id : Nat} {ready : List Nat}
    {coroutine : Coroutine} (hready : worker.scheduler.ready = id :: ready)
    (hnone : worker.running = none) :
    Represents { worker with
        scheduler := { worker.scheduler with
          fibers := worker.scheduler.fibers.set id none
          ready := ready }
        running := some (id, coroutine) }
      (Function.update roster id (some .running)) := by
  have hid := (h.ready id).mp (hready ▸ List.mem_cons_self)
  have hmoved : ∀ other, (∃ moved, some (id, coroutine) = some (other, moved)) ↔ other = id := by
    intro other
    simp [eq_comm]
  constructor <;> simp only [Function.update_apply, hmoved] <;> grind

/-- The token of a park that the fiber `id` reaches is nobody else's. -/
theorem Represents.insertWaiter (h : Represents worker roster) {id token : Nat} {park : Park}
    (hid : roster id = some .running) (htoken : park.token = some token)
    (hmay : worker.mayPark id park = true) :
    worker.holders.lookup token = some id ∧
      Scheduler.insertWaiter worker.scheduler.readinessWaiters token id =
        (token, id) :: worker.scheduler.readinessWaiters ∧
      token ∉ worker.scheduler.readinessWaiters.map (·.1) := by
  have hheld : worker.holders.lookup token = some id := by
    simpa [Worker.mayPark, htoken] using hmay
  have hfresh : ∀ entry ∈ worker.scheduler.readinessWaiters, entry.1 ≠ token := by
    rintro ⟨_, other⟩ hentry rfl
    obtain ⟨otherPark, hother, hotherToken⟩ := (h.waiters _ _).mp hentry
    have hsame := h.held other otherPark _ hother hotherToken
    rw [hheld] at hsame
    cases hsame
    rw [hid] at hother
    cases hother
  refine ⟨hheld, ?_, ?_⟩
  · unfold Scheduler.insertWaiter
    rw [List.filter_eq_self.mpr]
    intro entry hentry
    simpa using hfresh entry hentry
  · intro hmem
    obtain ⟨entry, hentry, heq⟩ := List.mem_map.mp hmem
    exact hfresh entry hentry heq

theorem Represents.filePark (h : Represents worker roster) {id : Nat} {old coroutine : Coroutine}
    {park : Park} {scheduler : Scheduler Coroutine} (hold : worker.running = some (id, old))
    (hmay : worker.mayPark id park = true)
    (hfile : worker.scheduler.filePark id coroutine park = some scheduler) :
    Represents { worker with scheduler := scheduler, running := none }
      (Function.update roster id (some (.parked park))) := by
  have hid := (h.running id).mp ⟨old, hold⟩
  have hslab := h.slab hid
  have hfiled : ∀ other, (∃ filed, (worker.scheduler.fibers.set id (some coroutine))[other]? =
      some (some filed)) ↔ other = id ∨ ∃ filed, worker.scheduler.fibers[other]? = some (some filed) := by
    intro other
    by_cases hother : id = other
    · subst hother
      simp [hslab]
    · simp [List.getElem?_set_ne hother, Ne.symm hother]
  have hparked : ∀ (park : Park) (other : Nat), (∃ filed, (if other = id then some (.parked park)
      else roster other) = some (.parked filed)) ↔
        other = id ∨ ∃ filed, roster other = some (.parked filed) := by
    intro park other
    by_cases hother : other = id <;> simp [hother]
  have hwaiting : ∀ (park : Park) (other token : Nat),
      (∃ filed, (if other = id then some (.parked park) else roster other) =
        some (.parked filed) ∧ filed.token = some token) ↔
      (other = id ∧ park.token = some token) ∨ (other ≠ id ∧ ∃ filed, roster other =
        some (.parked filed) ∧ filed.token = some token) := by
    intro park other token
    by_cases hother : other = id <;> simp [hother]
  cases park with
  | sleep deadline =>
    cases hfile
    constructor <;> simp only [Function.update_apply, hfiled, hparked, hwaiting] <;>
       grind [Park.token, Park.isMarker]
  | readiness token =>
    obtain ⟨hheld, hinsert, hfresh⟩ := h.insertWaiter hid rfl hmay
    simp only [Scheduler.filePark, hinsert, Option.some.injEq] at hfile
    subst hfile
    constructor <;> simp only [Function.update_apply, hfiled, hparked, hwaiting] <;>
       grind [Park.token, Park.isMarker]
  | readinessOrDeadline token deadline =>
    obtain ⟨hheld, hinsert, hfresh⟩ := h.insertWaiter hid rfl hmay
    simp only [Scheduler.filePark, hinsert, Option.some.injEq] at hfile
    subst hfile
    constructor <;> simp only [Function.update_apply, hfiled, hparked, hwaiting] <;>
       grind [Park.token, Park.isMarker]
  | caseAborted => cases hfile
  | abortTrapped report => cases hfile

/-! ### Whole runs -/

theorem lookup_filter_ne (entries : List (Nat × Nat)) {key other : Nat} (hne : other ≠ key) :
    (entries.filter (·.1 ≠ key)).lookup other = entries.lookup other := by
  induction entries with
  | nil => rfl
  | cons entry entries ih =>
    obtain ⟨first, value⟩ := entry
    by_cases hfirst : first = key
    · subst hfirst
      rw [List.filter_cons_of_neg (by simp), List.lookup_cons, beq_false_of_ne hne, ih]
    · rw [List.filter_cons_of_pos (by simpa using hfirst), List.lookup_cons, List.lookup_cons, ih]

theorem Represents.tokens (h : Represents worker roster) {nextToken : Nat}
    {holders : List (Nat × Nat)}
    (hallocated : ∀ entry ∈ holders, entry.1 < nextToken)
    (hheld : ∀ id park token, roster id = some (.parked park) → park.token = some token →
      holders.lookup token = some id) :
    Represents { worker with nextToken := nextToken, holders := holders } roster where
  __ := h
  allocated := hallocated
  held := hheld

/-- What the events do, each with what it needs. -/
inductive Worker.Steps (worker : Worker Coroutine) : Event Coroutine → Worker Coroutine → Prop where
  | spawn (coroutine : Coroutine) :
      Steps worker (.spawn coroutine)
        { worker with scheduler := worker.scheduler.installFiber coroutine }
  | resume {id : Nat} {ready : List Nat} {coroutine : Coroutine} : worker.running = none →
      worker.scheduler.ready = id :: ready → worker.scheduler.fibers[id]? = some (some coroutine) →
      Steps worker .resume { worker with
        scheduler := { worker.scheduler with
          fibers := worker.scheduler.fibers.set id none
          ready := ready }
        running := some (id, coroutine) }
  | park {id : Nat} {old coroutine : Coroutine} {park : Park} {scheduler : Scheduler Coroutine} :
      worker.running = some (id, old) → worker.mayPark id park = true →
      worker.scheduler.filePark id coroutine park = some scheduler →
      Steps worker (.park park coroutine) { worker with scheduler := scheduler, running := none }
  | finish {id : Nat} {coroutine : Coroutine} : worker.running = some (id, coroutine) →
      Steps worker .finish
        { worker with scheduler := worker.scheduler.releaseId id, running := none }
  | reserve : worker.running.isSome = true →
      Steps worker .reserve { worker with
        scheduler := worker.scheduler.reserveId.2
        reserved := worker.scheduler.reserveId.1 :: worker.reserved }
  | release {id : Nat} : worker.running.isSome = true → id ∈ worker.reserved →
      Steps worker (.release id) { worker with
        scheduler := worker.scheduler.releaseId id
        reserved := worker.reserved.erase id }
  | register {id : Nat} {coroutine : Coroutine} : worker.running = some (id, coroutine) →
      Steps worker .register { worker with
        nextToken := worker.nextToken + 1
        holders := (worker.nextToken, id) :: worker.holders }
  | borrow {id token : Nat} {coroutine : Coroutine} : worker.running = some (id, coroutine) →
      token < worker.nextToken → worker.holders.lookup token = none →
      Steps worker (.borrow token) { worker with holders := (token, id) :: worker.holders }
  | unborrow {id token : Nat} {coroutine : Coroutine} : worker.running = some (id, coroutine) →
      worker.holders.lookup token = some id →
      Steps worker (.unborrow token)
        { worker with holders := worker.holders.filter (·.1 ≠ token) }
  | wake (tokens : List Nat) : worker.running = none →
      Steps worker (.wake tokens) { worker with scheduler := worker.scheduler.wake tokens }
  | sweep (now : Nat) : worker.running = none →
      Steps worker (.sweep now) { worker with scheduler := worker.scheduler.sweepDue now }

theorem Worker.steps_of_step {worker' : Worker Coroutine} {event : Event Coroutine}
    (hstep : Worker.step event worker = some worker') : Steps worker event worker' := by
  unfold Worker.step at hstep
  split at hstep
  case h_1 coroutine =>
    cases hstep
    exact .spawn coroutine
  case h_2 =>
    split at hstep
    case h_1 id coroutine scheduler hnone hpop =>
      cases hstep
      unfold Scheduler.popReady at hpop
      split at hpop
      · cases hpop
      · rename_i head ready hready
        simp only [Option.some.injEq, Prod.mk.injEq] at hpop
        obtain ⟨rfl, hslot, rfl⟩ := hpop
        exact .resume hnone hready (Option.join_eq_some_iff.mp hslot)
    case h_2 => cases hstep
  case h_3 park coroutine =>
    split at hstep
    case h_1 id old hrunning =>
      split at hstep
      case isTrue hmay =>
        obtain ⟨scheduler, hfile, rfl⟩ := Option.map_eq_some_iff.mp hstep
        exact .park hrunning hmay hfile
      case isFalse => cases hstep
    case h_2 => cases hstep
  case h_4 =>
    split at hstep
    case h_1 id coroutine hrunning =>
      cases hstep
      exact .finish hrunning
    case h_2 => cases hstep
  case h_5 =>
    split at hstep
    case isTrue hrunning =>
      cases hstep
      exact .reserve hrunning
    case isFalse => cases hstep
  case h_6 id =>
    split at hstep
    case isTrue hid =>
      cases hstep
      obtain ⟨hrunning, hid⟩ := Bool.and_eq_true_iff.mp hid
      exact .release hrunning (List.contains_iff_mem.mp hid)
    case isFalse => cases hstep
  case h_7 =>
    split at hstep
    case h_1 id coroutine hrunning =>
      cases hstep
      exact .register hrunning
    case h_2 => cases hstep
  case h_8 token =>
    split at hstep
    case h_1 id coroutine hrunning =>
      split at hstep
      case isTrue hfree =>
        cases hstep
        obtain ⟨hlt, hfree⟩ : token < worker.nextToken ∧ worker.holders.lookup token = none := by
          simpa using hfree
        exact .borrow hrunning hlt hfree
      case isFalse => cases hstep
    case h_2 => cases hstep
  case h_9 token =>
    split at hstep
    case h_1 id coroutine hrunning =>
      split at hstep
      case isTrue hholder =>
        cases hstep
        exact .unborrow hrunning hholder
      case isFalse => cases hstep
    case h_2 => cases hstep
  case h_10 tokens =>
    split at hstep
    case isTrue hnone =>
      cases hstep
      exact .wake tokens (Option.isNone_iff_eq_none.mp hnone)
    case isFalse => cases hstep
  case h_11 now =>
    split at hstep
    case isTrue hnone =>
      cases hstep
      exact .sweep now (Option.isNone_iff_eq_none.mp hnone)
    case isFalse => cases hstep

/-- Every step of a worker is a step of the fibers it represents. -/
theorem Represents.step {worker' : Worker Coroutine} {event : Event Coroutine}
    (h : Represents worker roster) (hstep : Worker.step event worker = some worker') :
    ∃ roster', RosterStep roster event roster' ∧ Represents worker' roster' := by
  cases Worker.steps_of_step hstep with
  | spawn coroutine => exact ⟨_, .spawn coroutine h.reserveId.1, h.installFiber coroutine⟩
  | resume hnone hready hslot =>
    have hid := (h.ready _).mp (hready ▸ List.mem_cons_self)
    exact ⟨_, .resume hid, h.resume hready hnone⟩
  | park hrunning hmay hfile =>
    exact ⟨_, .park _ _ ((h.running _).mp ⟨_, hrunning⟩), h.filePark hrunning hmay hfile⟩
  | finish hrunning => exact ⟨_, .finish ((h.running _).mp ⟨_, hrunning⟩), h.finish hrunning⟩
  | reserve => exact ⟨_, .reserve h.reserveId.1, h.reserve⟩
  | release _ hid => exact ⟨_, .release ((h.reserved _).mp hid), h.release hid⟩
  | register hrunning =>
    refine ⟨_, .token (.inl rfl), h.tokens ?_ ?_⟩
    · rintro entry hentry
      rcases List.mem_cons.mp hentry with rfl | hentry
      · exact Nat.lt_succ_self _
      · exact Nat.lt_succ_of_lt (h.allocated entry hentry)
    · intro other park token hother htoken
      have hheld := h.held other park token hother htoken
      obtain ⟨front, back, hsplit, -⟩ := List.lookup_eq_some_iff.mp hheld
      have hlt := h.allocated (token, other) (by simp [hsplit])
      rw [List.lookup_cons, beq_false_of_ne (Nat.ne_of_lt hlt)]
      exact hheld
  | borrow hrunning hlt hfree =>
    refine ⟨_, .token (.inr (.inl ⟨_, rfl⟩)), h.tokens ?_ ?_⟩
    · rintro entry hentry
      rcases List.mem_cons.mp hentry with rfl | hentry
      · exact hlt
      · exact h.allocated entry hentry
    · intro other park token hother htoken
      have hheld := h.held other park token hother htoken
      rw [List.lookup_cons, beq_false_of_ne, hheld]
      rintro rfl
      rw [hfree] at hheld
      cases hheld
  | unborrow hrunning hholder =>
    refine ⟨_, .token (.inr (.inr ⟨_, rfl⟩)), h.tokens ?_ ?_⟩
    · intro entry hentry
      exact h.allocated entry (List.mem_of_mem_filter hentry)
    · -- The holder runs, so no parked fiber waits on the token it lets go.
      intro other park token hother htoken
      have hheld := h.held other park token hother htoken
      rw [lookup_filter_ne, hheld]
      rintro rfl
      rw [hholder] at hheld
      cases hheld
      rw [(h.running _).mp ⟨_, hrunning⟩] at hother
      cases hother
  | wake tokens => exact ⟨_, .wakes (.inl ⟨tokens, rfl⟩), h.wake tokens⟩
  | sweep now => exact ⟨_, .wakes (.inr ⟨now, rfl⟩), h.sweepDue now⟩

theorem Represents.view_eq (h : Represents worker roster) : worker.view = roster := by
  funext id
  unfold Worker.view
  split_ifs with hrunning hreserved hready
  · obtain ⟨⟨_, coroutine⟩, hsome, rfl⟩ := Option.map_eq_some_iff.mp hrunning
    exact ((h.running _).mp ⟨coroutine, hsome⟩).symm
  · exact ((h.reserved id).mp hreserved).symm
  · exact ((h.ready id).mp hready).symm
  · split
    case h_1 deadline other hfind =>
      obtain rfl : other = id := by simpa using List.find?_some hfind
      exact ((h.timers _ _).mp (List.mem_of_find?_eq_some hfind)).symm
    case h_2 deadline token other _ hfind =>
      obtain rfl : other = id := by simpa using List.find?_some hfind
      exact ((h.deadlines _ _ _).mp (List.mem_of_find?_eq_some hfind)).symm
    case h_3 token other _ hdeadline hfind =>
      obtain rfl : other = id := by simpa using List.find?_some hfind
      obtain ⟨park, hpark, htoken⟩ := (h.waiters _ _).mp (List.mem_of_find?_eq_some hfind)
      cases park with
      | readiness token => cases htoken; exact hpark.symm
      | readinessOrDeadline token deadline =>
        have hnot := List.find?_eq_none.mp hdeadline _ ((h.deadlines _ _ _).mpr hpark)
        simp at hnot
      | _ => cases htoken
    case h_4 htimer hdeadline hwaiter =>
      cases hid : roster id with
      | none => rfl
      | some status =>
        cases status with
        | reserved => exact absurd ((h.reserved id).mpr hid) hreserved
        | ready => exact absurd ((h.ready id).mpr hid) hready
        | running =>
          obtain ⟨coroutine, hsome⟩ := (h.running id).mpr hid
          simp [hsome] at hrunning
        | parked park =>
          cases park with
          | sleep deadline =>
            have hnot := List.find?_eq_none.mp htimer _ ((h.timers _ _).mpr hid)
            simp at hnot
          | readiness token =>
            have hnot := List.find?_eq_none.mp hwaiter _ ((h.waiters _ _).mpr ⟨_, hid, rfl⟩)
            simp at hnot
          | readinessOrDeadline token deadline =>
            have hnot := List.find?_eq_none.mp hdeadline _ ((h.deadlines _ _ _).mpr hid)
            simp at hnot
          | caseAborted => exact absurd (h.waits id _ hid) (by simp [Park.isMarker])
          | abortTrapped report => exact absurd (h.waits id _ hid) (by simp [Park.isMarker])

theorem represents_of_reaches (h : worker.Reaches) : Represents worker worker.view := by
  have hempty : Represents (Worker.start : Worker Coroutine) fun _ => none := by
    constructor <;> simp [Worker.start, Scheduler.new]
  induction h with
  | start => exact hempty.view_eq ▸ hempty
  | next event _ _ hstep ih =>
    obtain ⟨roster', -, hroster'⟩ := ih.step hstep
    exact hroster'.view_eq ▸ hroster'

/-- A fiber's id is live from its spawn to its finish. -/
def Worker.Live (worker : Worker Coroutine) (id : Nat) : Prop :=
  id < worker.scheduler.fibers.length ∧ id ∉ worker.scheduler.free ∧ id ∉ worker.reserved

/-- How often an id is running, ready, in the timers, and waiting on a token. -/
def Worker.places (worker : Worker Coroutine) (id : Nat) : Nat :=
  (worker.running.map (·.1)).toList.count id + worker.scheduler.ready.count id +
    (worker.scheduler.timers.map (·.2)).count id +
    (worker.scheduler.readinessWaiters.map (·.2)).count id

theorem Represents.live_iff (h : Represents worker roster) (id : Nat) :
    worker.Live id ↔ roster id = some .running ∨ roster id = some .ready ∨
      ∃ park, roster id = some (.parked park) := by
  unfold Worker.Live
  rw [h.free, h.reserved]
  constructor
  · rintro ⟨hslab, hfree, hreserved⟩
    cases hid : roster id with
    | none => exact absurd ⟨hslab, hid⟩ hfree
    | some status =>
      cases status with
      | reserved => exact absurd hid hreserved
      | ready => exact .inr (.inl rfl)
      | running => exact .inl rfl
      | parked park => exact .inr (.inr ⟨park, rfl⟩)
  · rintro (hid | hid | ⟨park, hid⟩) <;> exact ⟨h.slab hid, by simp [hid], by simp [hid]⟩

theorem Represents.waiterIdsOnce (h : Represents worker roster) :
    (worker.scheduler.readinessWaiters.map (·.2)).Nodup := by
  refine List.Nodup.map_on ?_ h.waitersOnce.of_map
  rintro ⟨token, id⟩ hentry ⟨otherToken, _⟩ hother rfl
  obtain ⟨park, hid, htoken⟩ := (h.waiters _ _).mp hentry
  obtain ⟨otherPark, hotherId, hotherToken⟩ := (h.waiters _ _).mp hother
  rw [hid] at hotherId
  cases hotherId
  rw [htoken] at hotherToken
  cases hotherToken
  rfl

theorem Represents.mem_running (h : Represents worker roster) {id : Nat} :
    id ∈ (worker.running.map (·.1)).toList ↔ roster id = some .running := by
  rw [← h.running]
  simp

theorem Represents.mem_timers (h : Represents worker roster) {id : Nat} :
    id ∈ worker.scheduler.timers.map (·.2) ↔
      ∃ deadline, roster id = some (.parked (.sleep deadline)) := by
  simp [← h.timers]

theorem Represents.mem_waiters (h : Represents worker roster) {id : Nat} :
    id ∈ worker.scheduler.readinessWaiters.map (·.2) ↔
      ∃ token park, roster id = some (.parked park) ∧ park.token = some token := by
  simp [← h.waiters]

theorem Represents.places_eq (h : Represents worker roster) (id : Nat) :
    worker.places id =
      (if id ∈ (worker.running.map (·.1)).toList then 1 else 0) +
      (if id ∈ worker.scheduler.ready then 1 else 0) +
      (if id ∈ worker.scheduler.timers.map (·.2) then 1 else 0) +
      (if id ∈ worker.scheduler.readinessWaiters.map (·.2) then 1 else 0) := by
  have hrunning : (worker.running.map (·.1)).toList.Nodup := by cases worker.running <;> simp
  unfold Worker.places
  rw [hrunning.count, h.readyOnce.count, h.timersOnce.count, h.waiterIdsOnce.count]

theorem Represents.places_of_live (h : Represents worker roster) {id : Nat}
    (hlive : worker.Live id) : worker.places id = 1 := by
  rw [h.places_eq]
  rcases (h.live_iff id).mp hlive with hid | hid | ⟨park, hid⟩
  · simp [h.mem_running, h.ready, h.mem_timers, h.mem_waiters, hid]
  · simp [h.mem_running, h.ready, h.mem_timers, h.mem_waiters, hid]
  · have hwaits := h.waits id park hid
    cases park <;> simp [h.mem_running, h.ready, h.mem_timers, h.mem_waiters, hid, Park.token,
      Park.isMarker] at hwaits ⊢

theorem Represents.places_of_not_live (h : Represents worker roster) {id : Nat}
    (hlive : ¬worker.Live id) : worker.places id = 0 := by
  rw [h.live_iff] at hlive
  push Not at hlive
  obtain ⟨hrunning, hready, hparked⟩ := hlive
  rw [h.places_eq]
  simp [h.mem_running, h.ready, h.mem_timers, h.mem_waiters, hrunning, hready, hparked]

/-- A worker keeps every live fiber in exactly one place, moves each only as its own events say, and
finds what it pops. -/
theorem fiber_in_one_place (h : worker.Reaches) :
    (∀ id, worker.Live id → worker.places id = 1) ∧
    (∀ id, ¬worker.Live id → worker.places id = 0) ∧
    (∀ deadline token id, (worker.scheduler.readinessDeadlines.count (deadline, token, id) = 1 ↔
      worker.view id = some (.parked (.readinessOrDeadline token deadline))) ∧
      (worker.scheduler.readinessDeadlines.map (·.2.2)).count id ≤ 1) ∧
    (∀ id other park otherPark token, worker.view id = some (.parked park) →
      worker.view other = some (.parked otherPark) → park.token = some token →
      otherPark.token = some token → id = other) ∧
    (∀ id slot scheduler, worker.scheduler.popReady = some (id, slot, scheduler) →
      slot.isSome = true) ∧
    ∀ event worker', Worker.step event worker = some worker' →
      RosterStep worker.view event worker'.view := by
  have hview := represents_of_reaches h
  refine ⟨fun id => hview.places_of_live, fun id => hview.places_of_not_live, ?_, ?_, ?_, ?_⟩
  · intro deadline token id
    rw [hview.deadlinesOnce.of_map.count, ← hview.deadlines]
    exact ⟨by simp, List.nodup_iff_count_le_one.mp hview.deadlinesOnce id⟩
  · intro id other park otherPark token hid hother htoken hotherToken
    exact hview.token_unique hid hother htoken hotherToken
  · intro id slot scheduler hpop
    unfold Scheduler.popReady at hpop
    split at hpop
    · cases hpop
    · rename_i head ready hready
      simp only [Option.some.injEq, Prod.mk.injEq] at hpop
      obtain ⟨rfl, rfl, -⟩ := hpop
      have hhead := (hview.ready head).mp (hready ▸ List.mem_cons_self)
      obtain ⟨coroutine, hfiber⟩ := (hview.occupied head).mpr (.inl hhead)
      simp [hfiber]
  · intro event worker' hstep
    obtain ⟨roster', hroster, hview'⟩ := hview.step hstep
    rw [hview'.view_eq]
    exact hroster

/-- A fiber that parks with a deadline, and whose token comes after the deadline has passed. -/
theorem timed_out_fiber_in_one_place :
    ∃ worker : Worker Unit, follow Worker.step (fun _ _ => true)
        [.spawn (), .resume, .register, .park (.readinessOrDeadline 0 5) (), .sweep 7, .wake [0]]
        .start = some worker ∧
      worker.places 0 = 1 ∧ worker.scheduler.ready = [0] := by
  obtain ⟨worker, hworker⟩ : ∃ worker : Worker Unit, follow Worker.step (fun _ _ => true)
      [.spawn (), .resume, .register, .park (.readinessOrDeadline 0 5) (), .sweep 7, .wake [0]]
      .start = some worker := ⟨_, rfl⟩
  have hplaces := (fiber_in_one_place (.of_follow (fun _ _ _ => trivial) .start hworker)).1 0
  refine ⟨worker, hworker, hplaces ?_, ?_⟩ <;> cases hworker
  · exact ⟨by decide, by decide, by decide⟩
  · rfl

end Quilon.Runtime
