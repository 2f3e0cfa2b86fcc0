import Quilon.Runtime.Placement
import Mathlib.Algebra.BigOperators.Group.Finset.Basic
import Mathlib.Algebra.Order.BigOperators.Group.Finset
import Mathlib.Data.List.Nodup

/-!
# What a thread can do to the registry

Main results:

* `shortestQueue_spec` — a placement chooses the first of the shortest queues it read;
* `Started.of_moves` — the helpers are published before a placement looks at them, and the first
  placement waits for all of them;
* `moves_of_step` — so a step never looks into an empty slot, and is one of `Moves`.
-/

namespace Quilon.Runtime.Placement

variable {Coroutine : Type}

/-! ### The shortest queue -/

theorem mem_of_minPair {pairs : List (Nat × Nat)} {least : Nat × Nat}
    (h : minPair pairs = some least) : least ∈ pairs := by
  induction pairs generalizing least with
  | nil => cases h
  | cons pair pairs ih =>
    rw [minPair] at h
    split at h
    next found hfound =>
      split_ifs at h with hless
      · obtain rfl := Option.some.inj h
        exact List.mem_cons_of_mem _ (ih hfound)
      · obtain rfl := Option.some.inj h
        exact List.mem_cons_self
    next => exact Option.some.inj h ▸ List.mem_cons_self

theorem minPair_le {pairs : List (Nat × Nat)} {least : Nat × Nat}
    (h : minPair pairs = some least) :
    ∀ pair ∈ pairs, least.1 < pair.1 ∨ (least.1 = pair.1 ∧ least.2 ≤ pair.2) := by
  induction pairs generalizing least with
  | nil => cases h
  | cons pair pairs ih =>
    rw [minPair] at h
    intro other hother
    split at h
    next found hfound =>
      have hle := ih hfound
      split_ifs at h with hless
      · obtain rfl := Option.some.inj h
        obtain rfl | hmem := List.mem_cons.mp hother
        · omega
        · exact hle other hmem
      · obtain rfl := Option.some.inj h
        obtain rfl | hmem := List.mem_cons.mp hother
        · omega
        · have := hle other hmem
          omega
    next hnone =>
      obtain rfl := Option.some.inj h
      obtain rfl | hmem := List.mem_cons.mp hother
      · omega
      · cases pairs with
        | nil => cases hmem
        | cons second pairs =>
          rw [minPair] at hnone
          split at hnone <;> [split_ifs at hnone; cases hnone]

theorem minPair_isSome {pairs : List (Nat × Nat)} (h : pairs ≠ []) : (minPair pairs).isSome := by
  cases pairs with
  | nil => exact absurd rfl h
  | cons pair pairs =>
    rw [minPair]
    split
    · split_ifs <;> rfl
    · rfl

/-- The index of a least length, and the first one. -/
theorem shortestQueue_spec {lens : List Nat} {target : Nat} (h : shortestQueue lens = some target) :
    ∃ len, lens[target]? = some len ∧ ∀ (index other : Nat), lens[index]? = some other →
      len ≤ other ∧ (index < target → len < other) := by
  rw [shortestQueue, Option.map_eq_some_iff] at h
  obtain ⟨⟨len, index⟩, hmin, rfl⟩ := h
  have hmem := List.mem_zipIdx_iff_getElem?.mp (mem_of_minPair hmin)
  refine ⟨len, hmem, fun other lenOther hother => ?_⟩
  have hle := minPair_le hmin (lenOther, other) (List.mem_zipIdx_iff_getElem?.mpr hother)
  constructor
  · omega
  · intro hlt
    omega

theorem shortestQueue_isSome {lens : List Nat} (h : lens ≠ []) : (shortestQueue lens).isSome := by
  rw [shortestQueue, Option.isSome_map]
  apply minPair_isSome
  intro hnil
  exact h (List.zipIdx_eq_nil_iff.mp hnil)

/-! ### What a step can do -/

namespace Stage

def isStarted : Stage Coroutine → Bool
  | .unstarted => false
  | _ => true

def panics : Stage Coroutine → Bool
  | .panicked => true
  | _ => false

/-- Whether the slot of a worker is published in this stage. -/
def hasPublished : Stage Coroutine → Bool
  | .unstarted | .starting => false
  | _ => true

def hasArrived : Stage Coroutine → Bool
  | .unstarted | .starting | .published => false
  | _ => true

/-- Past the start of its own thread. -/
def isPast : Stage Coroutine → Bool
  | .unstarted | .starting | .published | .arrived => false
  | _ => true

/-- Whether the thread is past the start of the helpers, in a placement. -/
def inPlacement : Stage Coroutine → Bool
  | .choosing .. | .placing .. | .counted .. | .queued _ => true
  | _ => false

/-- At the barrier, with the helpers on their way. -/
def isLaunching : Stage Coroutine → Bool
  | .launching _ => true
  | _ => false

/-- Past every barrier. -/
def isFree (stage : Stage Coroutine) : Bool :=
  stage.hasArrived && !stage.isLaunching

/-- Past every barrier, and not in a placement. -/
def isPlain (stage : Stage Coroutine) : Bool :=
  stage.isPast && !stage.isLaunching && !stage.inPlacement && !stage.panics

/-- The worker a placement has chosen. -/
def target : Stage Coroutine → Option Nat
  | .placing _ target | .counted _ target | .queued target => some target
  | _ => none

/-- The job of a placement that is not in an inbox yet. -/
def inHand : Stage Coroutine → List (Job Coroutine)
  | .ensuring job | .launching job | .choosing job _ _ | .placing job _ | .counted job _ => [job]
  | _ => []

/-- The jobs out of the inbox and not installed yet. -/
def taken : Stage Coroutine → List (Job Coroutine)
  | .drained jobs | .installing jobs => jobs
  | _ => []

/-- The jobs out of the inbox that its length still counts. -/
def uncounted : Stage Coroutine → Nat
  | .drained jobs => jobs.length
  | _ => 0

/-- The inbox whose length counts a job that is not in it yet. -/
def onWayTo : Stage Coroutine → Option Nat
  | .counted _ target => some target
  | _ => none

/-- What the thread holds of an inbox and of its length. -/
def cargo (stage : Stage Coroutine) : List (Job Coroutine) × Nat × Option Nat :=
  (stage.taken, stage.uncounted, stage.onWayTo)

/-- Whether the thread drains its inbox before it waits. -/
def willDrain : Stage Coroutine → Bool
  | .published | .arrived | .draining | .polled _ | .sweeping => true
  | _ => false

end Stage

/-- A thread that changes nothing but where it is. -/
inductive Turns (count : Nat) (pool : Pool Coroutine) (worker : Nat) : Stage Coroutine → Prop where
  | enter : pool.stages worker = .arrived → count ≤ pool.arrivals →
      Turns count pool worker .draining
  | installed : pool.stages worker = .installing [] → Turns count pool worker .resuming
  | ensured {job : Job Coroutine} : pool.stages worker = .ensuring job →
      count ≤ 1 ∨ pool.helpersStarted = .set → Turns count pool worker (.choosing job [] none)
  | readReady {job : Job Coroutine} {lens : List Nat} (readyLen : Nat) :
      pool.stages worker = .choosing job lens none → lens.length < count →
      Turns count pool worker (.choosing job lens (some readyLen))
  | readInbox {job : Job Coroutine} {lens : List Nat} {readyLen : Nat} (inboxLen : Nat) :
      pool.stages worker = .choosing job lens (some readyLen) →
      Turns count pool worker (.choosing job (lens ++ [readyLen + inboxLen]) none)
  | chosen {job : Job Coroutine} {lens : List Nat} {target : Nat} :
      pool.stages worker = .choosing job lens none → count ≤ lens.length →
      shortestQueue lens = some target → Turns count pool worker (.placing job target)
  | planned : pool.stages worker = .resuming → (pool.workers worker).running = none →
      Turns count pool worker (pool.planned worker)
  | passed {next : Nat} : pool.stages worker = .shuttingDown next → pool.slots next = none →
      Turns count pool worker (.shuttingDown (next + 1))
  | finished {next : Nat} : pool.stages worker = .shuttingDown next → count ≤ next →
      Turns count pool worker .stopped

/-- The scheduler of a worker moves: a fiber at work, the tokens of a poll, the deadlines. -/
inductive Drives (pool : Pool Coroutine) (worker : Nat) :
    Event Coroutine → Stage Coroutine → Prop where
  | work {event : Event Coroutine} : pool.stages worker = .resuming →
      Drives pool worker event .resuming
  | wake {tokens : List Nat} : pool.stages worker = .polled tokens →
      Drives pool worker (.wake tokens) .sweeping
  | sweep {now : Nat} : pool.stages worker = .sweeping → Drives pool worker (.sweep now) .draining

/-- A worker's scheduler has moved, and its length is published. -/
def Pool.moved (pool : Pool Coroutine) (index : Nat) (handle : WorkerHandle Coroutine)
    (worker : Worker Coroutine) (stage : Stage Coroutine) : Pool Coroutine :=
  ((pool.setWorker index worker).setHandle index
    { handle with readyLen := worker.scheduler.ready.length }).setStage index stage

/-- A step, as long as every slot it looks into is published. -/
inductive Moves (count : Nat) (pool : Pool Coroutine) : Pool Coroutine → Prop where
  | turn {worker : Nat} {stage : Stage Coroutine} : Turns count pool worker stage →
      Moves count pool (pool.setStage worker stage)
  | drive {worker : Nat} {event : Event Coroutine} {stage : Stage Coroutine}
      {handle : WorkerHandle Coroutine} {later : Worker Coroutine} :
      Drives pool worker event stage → pool.slots worker = some handle →
      (pool.workers worker).step event = some later →
      Moves count pool (pool.moved worker handle later stage)
  | markBackground {worker : Nat} (tokens : List Nat) : Moves count pool { pool with
      backgroundTokens := Function.update pool.backgroundTokens worker tokens }
  | publish {worker : Nat} : pool.stages worker = .starting → pool.slots worker = none →
      Moves count pool (((pool.setHandle worker .new).setWorker worker .start).setStage worker
        .published)
  | arrive {worker : Nat} : pool.stages worker = .published →
      Moves count pool ({ pool with arrivals := pool.arrivals + 1 }.setStage worker .arrived)
  | startHelpers {worker : Nat} {job : Job Coroutine} : pool.stages worker = .ensuring job →
      1 < count → pool.helpersStarted = .unset →
      Moves count pool (pool.startHelpers count worker job)
  | launched {worker : Nat} {job : Job Coroutine} : pool.stages worker = .launching job →
      count ≤ pool.arrivals →
      Moves count pool ({ pool with helpersStarted := .set }.setStage worker
        (.choosing job [] none))
  | spawnPlaced {worker : Nat} (coroutine : Coroutine) : pool.stages worker = .resuming →
      Moves count pool ({ pool with tickets := pool.tickets + 1 }.setStage worker
        (.ensuring ⟨pool.tickets, coroutine⟩))
  | take {worker : Nat} {handle : WorkerHandle Coroutine} : pool.stages worker = .draining →
      pool.slots worker = some handle →
      Moves count pool ((pool.setHandle worker { handle with inbox := [] }).setStage worker
        (.drained handle.inbox))
  | subtract {worker : Nat} {handle : WorkerHandle Coroutine} {jobs : List (Job Coroutine)} :
      pool.stages worker = .drained jobs → pool.slots worker = some handle →
      Moves count pool ((pool.setHandle worker
        { handle with inboxLen := handle.inboxLen - jobs.length }).setStage worker
          (.installing jobs))
  | install {worker : Nat} {handle : WorkerHandle Coroutine} {job : Job Coroutine}
      {jobs : List (Job Coroutine)} {later : Worker Coroutine} :
      pool.stages worker = .installing (job :: jobs) → pool.slots worker = some handle →
      (pool.workers worker).step (.spawn job.coroutine) = some later →
      Moves count pool ({ pool with
        installedOn := Function.update pool.installedOn worker
          (pool.installedOn worker ++ [job]) }.moved worker handle later (.installing jobs))
  | place {worker target : Nat} {handle : WorkerHandle Coroutine} {job : Job Coroutine} :
      pool.stages worker = .placing job target → pool.slots target = some handle →
      Moves count pool ((pool.setHandle target
        { handle with inboxLen := handle.inboxLen + 1 }).setStage worker (.counted job target))
  | push {worker target : Nat} {handle : WorkerHandle Coroutine} {job : Job Coroutine} :
      pool.stages worker = .counted job target → pool.slots target = some handle →
      Moves count pool (({ pool with
        queuedOn := Function.update pool.queuedOn target (pool.queuedOn target ++ [job]) }.setHandle
          target { handle with inbox := handle.inbox ++ [job] }).setStage worker (.queued target))
  | wake {worker target : Nat} {handle : WorkerHandle Coroutine} :
      pool.stages worker = .queued target → pool.slots target = some handle →
      Moves count pool ((pool.setHandle target { handle with woken := true }).setStage worker
        .resuming)
  | poll {worker : Nat} {handle : WorkerHandle Coroutine} {plan : Option (Option Nat)}
      (tokens : List Nat) : pool.stages worker = .waiting plan → pool.slots worker = some handle →
      Moves count pool ((pool.setHandle worker { handle with woken := false }).setStage worker
        (.polled tokens))
  | shutdown {worker : Nat} : pool.stages worker = .leaving →
      Moves count pool ({ pool with shutdown := true }.setStage worker (.shuttingDown 0))
  | wakeHelper {worker next : Nat} {handle : WorkerHandle Coroutine} :
      pool.stages worker = .shuttingDown next → pool.slots next = some handle →
      Moves count pool ((pool.setHandle next { handle with woken := true }).setStage worker
        (.shuttingDown (next + 1)))

/-- What the start of the helpers promises. -/
structure Started (count : Nat) (pool : Pool Coroutine) : Prop where
  beyond (worker : Nat) : count ≤ worker → pool.stages worker = .unstarted
  published (worker : Nat) : (pool.slots worker).isSome = (pool.stages worker).hasPublished
  leader : (pool.stages 0).isPast = true
  unset : pool.helpersStarted = .unset → ∀ worker, 0 < worker → pool.stages worker = .unstarted
  arrivals : pool.helpersStarted ≠ .unset →
    pool.arrivals = ∑ worker ∈ Finset.range count, (pool.stages worker).hasArrived.toNat
  unarrived : pool.helpersStarted = .unset → pool.arrivals = 0
  set : pool.helpersStarted = .set → count ≤ pool.arrivals
  chosen (worker : Nat) : (pool.stages worker).inPlacement = true →
    count ≤ 1 ∨ pool.helpersStarted = .set
  lens (worker : Nat) (job : Job Coroutine) (lens : List Nat) (readyLen : Option Nat) :
    pool.stages worker = .choosing job lens readyLen →
      lens.length ≤ count ∧ (readyLen.isSome → lens.length < count)
  target (worker index : Nat) : (pool.stages worker).target = some index → index < count
  running (worker : Nat) : (pool.stages worker).panics = false
  spawned : pool.helpersStarted ≠ .unset → ∀ worker < count,
    (pool.stages worker).isStarted = true
  launcher : pool.helpersStarted = .running → (pool.stages 0).isLaunching = true
  launching (worker : Nat) : (pool.stages worker).isLaunching = true →
    worker = 0 ∧ pool.helpersStarted = .running

variable {count : Nat} {pool pool' : Pool Coroutine}

namespace Started

/-- A thread finds its own slot published once it is past its start. -/
theorem own (h : Started count pool) (worker : Nat)
    (hpublished : (pool.stages worker).hasPublished = true) :
    ∃ handle, pool.slots worker = some handle :=
  Option.isSome_iff_exists.mp ((h.published worker).trans hpublished)

end Started

theorem Stage.hasPublished_of_hasArrived {stage : Stage Coroutine} (h : stage.hasArrived = true) :
    stage.hasPublished = true := by
  cases stage <;> first | rfl | exact h

theorem Stage.hasArrived_of_isPast {stage : Stage Coroutine} (h : stage.isPast = true) :
    stage.hasArrived = true := by
  cases stage <;> first | rfl | exact h

namespace Started

/-- Once as many have come to the barrier as there are workers, all of them have. -/
theorem hasArrived_of_le (h : Started count pool) (hset : pool.helpersStarted ≠ .unset)
    (hle : count ≤ pool.arrivals) {index : Nat} (hindex : index < count) :
    (pool.stages index).hasArrived = true := by
  by_contra hnot
  have hlt : ∑ worker ∈ Finset.range count, (pool.stages worker).hasArrived.toNat <
      ∑ _worker ∈ Finset.range count, 1 := by
    apply Finset.sum_lt_sum
    · intro worker _
      exact Bool.toNat_le _
    · refine ⟨index, Finset.mem_range.mpr hindex, ?_⟩
      rw [Bool.eq_false_iff.mpr hnot]
      exact Nat.zero_lt_one
  rw [← h.arrivals hset, ← Finset.card_eq_sum_ones, Finset.card_range] at hlt
  omega

/-- A placement finds every slot published. -/
theorem slot (h : Started count pool) (worker : Nat) {index : Nat}
    (hplacing : (pool.stages worker).inPlacement = true) (hindex : index < count) :
    ∃ handle, pool.slots index = some handle := by
  refine h.own index (Stage.hasPublished_of_hasArrived ?_)
  obtain hone | hset := h.chosen worker hplacing
  · obtain rfl : index = 0 := by omega
    exact Stage.hasArrived_of_isPast h.leader
  · exact h.hasArrived_of_le (by rw [hset]; exact Once.noConfusion) (h.set hset) hindex

end Started

theorem withHandle_eq {worker index : Nat} {handle : WorkerHandle Coroutine}
    (h : pool.slots index = some handle) (access : WorkerHandle Coroutine → Pool Coroutine) :
    pool.withHandle worker index access = access handle := by
  rw [Pool.withHandle, h]

theorem moveTo_eq {worker : Nat} {handle : WorkerHandle Coroutine}
    (h : pool.slots worker = some handle) (later : Worker Coroutine) (stage : Stage Coroutine) :
    pool.moveTo worker later stage = pool.moved worker handle later stage :=
  withHandle_eq h _

/-- What a thread without a choice does. -/
theorem moves_of_advance (h : Started count pool) {worker : Nat}
    (hstep : pool.advance count worker = some pool') : Moves count pool pool' := by
  have hpublished := h.published worker
  rw [Pool.advance] at hstep
  split at hstep
  case h_1 hstage =>
    have hnone : pool.slots worker = none := by
      rw [hstage] at hpublished
      exact Option.isSome_eq_false_iff.mp hpublished |> Option.isNone_iff_eq_none.mp
    obtain rfl := Option.some.inj hstep
    rw [Pool.publish, hnone]
    exact .publish hstage hnone
  case h_2 hstage =>
    obtain rfl := Option.some.inj hstep
    exact .arrive hstage
  case h_3 hstage =>
    obtain ⟨hle, hstep⟩ := Option.ite_none_right_eq_some.mp hstep
    obtain rfl := Option.some.inj hstep
    exact .turn (.enter hstage hle)
  case h_4 hstage =>
    obtain ⟨handle, hhandle⟩ := h.own worker (by rw [hstage]; rfl)
    obtain rfl := Option.some.inj hstep
    rw [withHandle_eq hhandle]
    exact .take hstage hhandle
  case h_5 jobs hstage =>
    obtain ⟨handle, hhandle⟩ := h.own worker (by rw [hstage]; rfl)
    obtain rfl := Option.some.inj hstep
    rw [withHandle_eq hhandle]
    exact .subtract hstage hhandle
  case h_6 hstage =>
    obtain rfl := Option.some.inj hstep
    exact .turn (.installed hstage)
  case h_7 job jobs hstage =>
    obtain ⟨handle, hhandle⟩ := h.own worker (by rw [hstage]; rfl)
    obtain ⟨later, hlater, rfl⟩ := Option.map_eq_some_iff.mp hstep
    simp only [Pool.moveTo, Pool.withHandle, hhandle]
    exact .install hstage hhandle hlater
  case h_8 job hstage =>
    split_ifs at hstep with hone
    · obtain rfl := Option.some.inj hstep
      exact .turn (.ensured hstage (.inl hone))
    · split at hstep
      next hunset =>
        obtain rfl := Option.some.inj hstep
        exact .startHelpers hstage (by omega) hunset
      next => cases hstep
      next hset =>
        obtain rfl := Option.some.inj hstep
        exact .turn (.ensured hstage (.inr hset))
  case h_9 job hstage =>
    obtain ⟨hle, hstep⟩ := Option.ite_none_right_eq_some.mp hstep
    obtain rfl := Option.some.inj hstep
    exact .launched hstage hle
  case h_10 job lens hstage =>
    split_ifs at hstep with hlt
    · obtain ⟨handle, hhandle⟩ := h.slot worker (by rw [hstage]; rfl) hlt
      obtain rfl := Option.some.inj hstep
      rw [withHandle_eq hhandle]
      exact .turn (.readReady _ hstage hlt)
    · obtain ⟨target, htarget, rfl⟩ := Option.map_eq_some_iff.mp hstep
      exact .turn (.chosen hstage (by omega) htarget)
  case h_11 job lens readyLen hstage =>
    obtain ⟨handle, hhandle⟩ := h.slot worker (by rw [hstage]; rfl)
      ((h.lens worker job lens _ hstage).2 rfl)
    obtain rfl := Option.some.inj hstep
    rw [withHandle_eq hhandle]
    exact .turn (.readInbox _ hstage)
  case h_12 job target hstage =>
    obtain ⟨handle, hhandle⟩ := h.slot worker (by rw [hstage]; rfl)
      (h.target worker target (by rw [hstage]; rfl))
    obtain rfl := Option.some.inj hstep
    rw [withHandle_eq hhandle]
    exact .place hstage hhandle
  case h_13 job target hstage =>
    obtain ⟨handle, hhandle⟩ := h.slot worker (by rw [hstage]; rfl)
      (h.target worker target (by rw [hstage]; rfl))
    obtain rfl := Option.some.inj hstep
    rw [withHandle_eq hhandle]
    exact .push hstage hhandle
  case h_14 target hstage =>
    obtain ⟨handle, hhandle⟩ := h.slot worker (by rw [hstage]; rfl)
      (h.target worker target (by rw [hstage]; rfl))
    obtain rfl := Option.some.inj hstep
    rw [withHandle_eq hhandle]
    exact .wake hstage hhandle
  case h_15 tokens hstage =>
    obtain ⟨handle, hhandle⟩ := h.own worker (by rw [hstage]; rfl)
    obtain ⟨later, hlater, rfl⟩ := Option.map_eq_some_iff.mp hstep
    rw [moveTo_eq hhandle]
    exact .drive (.wake hstage) hhandle hlater
  case h_16 hstage =>
    obtain rfl := Option.some.inj hstep
    exact .shutdown hstage
  case h_17 next hstage =>
    split_ifs at hstep with hlt
    · split at hstep
      next handle hhandle =>
        obtain rfl := Option.some.inj hstep
        exact .wakeHelper hstage hhandle
      next hnone =>
        obtain rfl := Option.some.inj hstep
        exact .turn (.passed hstage hnone)
    · obtain rfl := Option.some.inj hstep
      exact .turn (.finished hstage (by omega))
  all_goals cases hstep

theorem moves_of_step (h : Started count pool) {action : Action Coroutine}
    (hstep : pool.step count action = some pool') : Moves count pool pool' := by
  cases action with
  | advance worker => exact moves_of_advance h hstep
  | work worker event =>
    rw [Pool.step] at hstep
    split at hstep
    next hstage =>
      obtain ⟨hwork, hstep⟩ := Option.ite_none_right_eq_some.mp hstep
      obtain ⟨later, hlater, rfl⟩ := Option.map_eq_some_iff.mp hstep
      obtain ⟨handle, hhandle⟩ := h.own worker (by rw [hstage]; rfl)
      rw [moveTo_eq hhandle]
      exact .drive (.work hstage) hhandle hlater
    next => cases hstep
  | markBackground worker token =>
    rw [Pool.step] at hstep
    split at hstep
    next =>
      obtain ⟨-, hstep⟩ := Option.ite_none_right_eq_some.mp hstep
      obtain rfl := Option.some.inj hstep
      exact .markBackground _
    next => cases hstep
  | spawnPlaced worker coroutine =>
    rw [Pool.step] at hstep
    split at hstep
    next hstage =>
      obtain ⟨-, hstep⟩ := Option.ite_none_right_eq_some.mp hstep
      obtain rfl := Option.some.inj hstep
      exact .spawnPlaced coroutine hstage
    next => cases hstep
  | plan worker =>
    rw [Pool.step] at hstep
    split at hstep
    next hstage =>
      obtain ⟨hidle, hstep⟩ := Option.ite_none_right_eq_some.mp hstep
      obtain rfl := Option.some.inj hstep
      rw [Bool.and_eq_true, Option.isNone_iff_eq_none] at hidle
      exact .turn (.planned hstage hidle.1)
    next => cases hstep
  | poll worker tokens =>
    rw [Pool.step] at hstep
    split at hstep
    next plan hstage =>
      obtain ⟨handle, hhandle⟩ := h.own worker (by rw [hstage]; rfl)
      obtain rfl := Option.some.inj hstep
      rw [withHandle_eq hhandle]
      exact .poll tokens hstage hhandle
    next => cases hstep
  | sweep worker now =>
    rw [Pool.step] at hstep
    split at hstep
    next hstage =>
      obtain ⟨later, hlater, rfl⟩ := Option.map_eq_some_iff.mp hstep
      obtain ⟨handle, hhandle⟩ := h.own worker (by rw [hstage]; rfl)
      rw [moveTo_eq hhandle]
      exact .drive (.sweep hstage) hhandle hlater
    next => cases hstep

/-! ### The start of the helpers -/

/-- What the entries of a table give together, when one is replaced. -/
theorem sum_update_add {α : Type*} (f : α → Nat) (table : Nat → α) {index : Nat}
    (hindex : index < count) (entry : α) :
    ∑ other ∈ Finset.range count, f (Function.update table index entry other) + f (table index) =
      ∑ other ∈ Finset.range count, f (table other) + f entry := by
  have hmem : index ∈ Finset.range count := Finset.mem_range.mpr hindex
  have hrest : ∑ other ∈ (Finset.range count).erase index,
      f (Function.update table index entry other) =
        ∑ other ∈ (Finset.range count).erase index, f (table other) := by
    apply Finset.sum_congr rfl
    intro other hother
    rw [Function.update_of_ne (Finset.ne_of_mem_erase hother)]
  rw [← Finset.add_sum_erase _ _ hmem, ← Finset.add_sum_erase _ (fun other => f (table other)) hmem,
    Function.update_self, hrest]
  omega

namespace Started

theorem lt_count (h : Started count pool) (worker : Nat)
    (hstage : (pool.stages worker).isStarted = true) : worker < count := by
  by_contra hle
  rw [h.beyond worker (Nat.le_of_not_lt hle)] at hstage
  cases hstage

theorem setHandle (h : Started count pool) {index : Nat} {old : WorkerHandle Coroutine}
    (hold : pool.slots index = some old) (handle : WorkerHandle Coroutine) :
    Started count (pool.setHandle index handle) := by
  refine { h with published := fun worker => ?_ }
  show (Function.update pool.slots index (some handle) worker).isSome =
    (pool.stages worker).hasPublished
  rw [← h.published worker]
  obtain rfl | hne := eq_or_ne worker index
  · rw [Function.update_self, hold]
    rfl
  · rw [Function.update_of_ne hne]

theorem setWorker (h : Started count pool) (index : Nat) (worker : Worker Coroutine) :
    Started count (pool.setWorker index worker) := { h with }

/-- One thread goes on. -/
theorem update (h : Started count pool) (worker : Nat) (stage : Stage Coroutine)
    (hstages : pool'.stages = Function.update pool.stages worker stage)
    (hhelpers : pool'.helpersStarted = pool.helpersStarted)
    (hstarted : (pool.stages worker).isStarted = true) (hnew : stage.isStarted = true)
    (hlaunching : (pool.stages worker).isLaunching = false) (hnot : stage.isLaunching = false)
    (hpast : (pool.stages worker).isPast = true → stage.isPast = true)
    (hmono : (pool.stages worker).hasArrived = true → stage.hasArrived = true)
    (hpublished : ∀ other, (pool'.slots other).isSome = (pool'.stages other).hasPublished)
    (harrivals : pool'.arrivals + (pool.stages worker).hasArrived.toNat =
      pool.arrivals + stage.hasArrived.toNat)
    (hchosen : stage.inPlacement = true → count ≤ 1 ∨ pool.helpersStarted = .set)
    (hlens : ∀ job lens readyLen, stage = .choosing job lens readyLen →
      lens.length ≤ count ∧ (readyLen.isSome → lens.length < count))
    (htarget : ∀ index, stage.target = some index → index < count)
    (hrunning : stage.panics = false) : Started count pool' := by
  have hat : ∀ other, pool'.stages other = if other = worker then stage else pool.stages other :=
    fun other => by rw [hstages, Function.update_apply]
  have hlt := h.lt_count worker hstarted
  have hle : pool.arrivals ≤ pool'.arrivals := by
    cases hold : (pool.stages worker).hasArrived with
    | false => rw [hold] at harrivals; simp only [Bool.toNat_false] at harrivals; omega
    | true => rw [hold, hmono hold] at harrivals; omega
  refine ⟨fun other hother => ?_, hpublished, ?_, fun hunset other hother => ?_, fun hset => ?_,
    fun hunset => ?_, fun hset => ?_, fun other => ?_, fun other => ?_, fun other => ?_,
    fun other => ?_, fun hset other hother => ?_, fun hrunning => ?_, fun other => ?_⟩
  · rw [hat, if_neg (by omega)]
    exact h.beyond other hother
  · rw [hat]
    split_ifs with heq
    · exact hpast (heq ▸ h.leader)
    · exact h.leader
  · rw [hat, if_neg]
    · exact h.unset (hhelpers ▸ hunset) other hother
    · rintro rfl
      rw [h.unset (hhelpers ▸ hunset) other hother] at hstarted
      cases hstarted
  · have hsum := sum_update_add (fun stage => (Stage.hasArrived stage).toNat) pool.stages hlt stage
    have hold := h.arrivals (hhelpers ▸ hset)
    rw [hstages]
    omega
  · -- Before the helpers start nobody but the leader goes on, and it has nothing to wait for.
    have hzero : worker = 0 := by
      by_contra hne
      rw [h.unset (hhelpers ▸ hunset) worker (Nat.pos_of_ne_zero hne)] at hstarted
      cases hstarted
    have hleader : (pool.stages worker).hasArrived = true :=
      Stage.hasArrived_of_isPast (hzero ▸ h.leader)
    rw [hleader, hmono hleader, h.unarrived (hhelpers ▸ hunset)] at harrivals
    omega
  · exact (h.set (hhelpers ▸ hset)).trans hle
  · rw [hat, hhelpers]
    split_ifs
    · exact hchosen
    · exact h.chosen other
  · rw [hat]
    split_ifs
    · exact hlens
    · exact h.lens other
  · rw [hat]
    split_ifs
    · exact htarget
    · exact h.target other
  · rw [hat]
    split_ifs
    · exact hrunning
    · exact h.running other
  · rw [hat]
    split_ifs
    · exact hnew
    · exact h.spawned (hhelpers ▸ hset) other hother
  · have hleader := h.launcher (hhelpers ▸ hrunning)
    rw [hat, if_neg]
    · exact hleader
    · rintro rfl
      rw [hlaunching] at hleader
      cases hleader
  · rw [hat, hhelpers]
    split_ifs
    · exact fun hnever => by rw [hnot] at hnever; cases hnever
    · exact h.launching other

/-- A thread goes on where neither the slots nor the barrier are concerned. -/
theorem setStage (h : Started count pool) {worker : Nat} {stage : Stage Coroutine}
    (hstarted : (pool.stages worker).isStarted = true) (hnew : stage.isStarted = true)
    (hlaunching : (pool.stages worker).isLaunching = false) (hnot : stage.isLaunching = false)
    (hpast : (pool.stages worker).isPast = true → stage.isPast = true)
    (hpublished : stage.hasPublished = (pool.stages worker).hasPublished)
    (harrived : stage.hasArrived = (pool.stages worker).hasArrived)
    (hchosen : stage.inPlacement = true → count ≤ 1 ∨ pool.helpersStarted = .set)
    (hlens : ∀ job lens readyLen, stage = .choosing job lens readyLen →
      lens.length ≤ count ∧ (readyLen.isSome → lens.length < count))
    (htarget : ∀ index, stage.target = some index → index < count)
    (hrunning : stage.panics = false) : Started count (pool.setStage worker stage) := by
  refine h.update worker stage rfl rfl hstarted hnew hlaunching hnot hpast
    (fun hold => harrived.trans hold) (fun other => ?_) (by rw [harrived]; rfl) hchosen hlens
    htarget hrunning
  show (pool.slots other).isSome = (Function.update pool.stages worker stage other).hasPublished
  rw [Function.update_apply]
  split_ifs with heq
  · rw [heq, hpublished]
    exact h.published worker
  · exact h.published other

/-- A thread goes on outside of barriers and placements. -/
theorem setStage_plain (h : Started count pool) {worker : Nat} {stage : Stage Coroutine}
    (hfree : (pool.stages worker).isFree = true) (hplain : stage.isPlain = true) :
    Started count (pool.setStage worker stage) := by
  obtain ⟨harrived, hlaunching⟩ := Bool.and_eq_true_iff.mp hfree
  have hnot : (pool.stages worker).isLaunching = false := by simpa using hlaunching
  have hstarted : (pool.stages worker).isStarted = true := by
    cases hstage : pool.stages worker <;> first | rfl | (rw [hstage] at harrived; cases harrived)
  have hpublished := Stage.hasPublished_of_hasArrived harrived
  cases stage <;> first
    | exact absurd hplain Bool.false_ne_true
    | exact h.setStage hstarted rfl hnot rfl (fun _ => rfl) hpublished.symm harrived.symm
        (fun hplacing => by cases hplacing) (fun _ _ _ heq => by cases heq)
        (fun _ htarget => by cases htarget) rfl

theorem isPlain_planned (pool : Pool Coroutine) (worker : Nat) :
    (pool.planned worker).isPlain = true := by
  rw [Pool.planned]
  split
  · rfl
  · split_ifs <;> rfl

theorem turn (h : Started count pool) {worker : Nat} {stage : Stage Coroutine}
    (hturn : Turns count pool worker stage) : Started count (pool.setStage worker stage) := by
  cases hturn with
  | enter hstage =>
    exact h.setStage_plain (by rw [hstage]; rfl) rfl
  | installed hstage =>
    exact h.setStage_plain (by rw [hstage]; rfl) rfl
  | @ensured job hstage hready =>
    refine h.setStage (by rw [hstage]; rfl) rfl (by rw [hstage]; rfl) rfl (fun _ => rfl)
      (by rw [hstage]; rfl) (by rw [hstage]; rfl) (fun _ => hready) ?_
      (fun _ htarget => by cases htarget) rfl
    intro job' lens readyLen heq
    obtain ⟨-, rfl, rfl⟩ := Stage.choosing.inj heq
    exact ⟨Nat.zero_le _, fun hsome => by cases hsome⟩
  | @readReady job lens readyLen hstage hlt =>
    have hplacing : (pool.stages worker).inPlacement = true := by rw [hstage]; rfl
    refine h.setStage (by rw [hstage]; rfl) rfl (by rw [hstage]; rfl) rfl (fun _ => rfl)
      (by rw [hstage]; rfl) (by rw [hstage]; rfl) (fun _ => h.chosen worker hplacing) ?_
      (fun _ htarget => by cases htarget) rfl
    intro job' lens' readyLen' heq
    obtain ⟨-, rfl, rfl⟩ := Stage.choosing.inj heq
    exact ⟨hlt.le, fun _ => hlt⟩
  | @readInbox job lens readyLen inboxLen hstage =>
    have hplacing : (pool.stages worker).inPlacement = true := by rw [hstage]; rfl
    have hlt := (h.lens worker job lens _ hstage).2 rfl
    refine h.setStage (by rw [hstage]; rfl) rfl (by rw [hstage]; rfl) rfl (fun _ => rfl)
      (by rw [hstage]; rfl) (by rw [hstage]; rfl) (fun _ => h.chosen worker hplacing) ?_
      (fun _ htarget => by cases htarget) rfl
    intro job' lens' readyLen' heq
    obtain ⟨-, rfl, rfl⟩ := Stage.choosing.inj heq
    rw [List.length_append, List.length_singleton]
    exact ⟨hlt, fun hsome => by cases hsome⟩
  | @chosen job lens target hstage hle htarget =>
    have hplacing : (pool.stages worker).inPlacement = true := by rw [hstage]; rfl
    have hlens := (h.lens worker job lens _ hstage).1
    refine h.setStage (by rw [hstage]; rfl) rfl (by rw [hstage]; rfl) rfl (fun _ => rfl)
      (by rw [hstage]; rfl) (by rw [hstage]; rfl) (fun _ => h.chosen worker hplacing)
      (fun _ _ _ heq => by cases heq) ?_ rfl
    intro index hindex
    obtain rfl := Option.some.inj hindex
    obtain ⟨len, hlen, -⟩ := shortestQueue_spec htarget
    obtain ⟨hlt, -⟩ := List.getElem?_eq_some_iff.mp hlen
    omega
  | planned hstage =>
    exact h.setStage_plain (by rw [hstage]; rfl) (isPlain_planned pool worker)
  | passed hstage =>
    exact h.setStage_plain (by rw [hstage]; rfl) rfl
  | finished hstage =>
    exact h.setStage_plain (by rw [hstage]; rfl) rfl

theorem moved (h : Started count pool) {worker : Nat} {handle : WorkerHandle Coroutine}
    {later : Worker Coroutine} {stage : Stage Coroutine} (hhandle : pool.slots worker = some handle)
    (hfree : (pool.stages worker).isFree = true) (hplain : stage.isPlain = true) :
    Started count (pool.moved worker handle later stage) :=
  ((h.setWorker worker later).setHandle hhandle _).setStage_plain hfree hplain

/-- The first placement starts the helpers; it is the leader's. -/
theorem startHelpers (h : Started count pool) {worker : Nat} {job : Job Coroutine}
    (hstage : pool.stages worker = .ensuring job) (hlt : 1 < count)
    (hunset : pool.helpersStarted = .unset) :
    Started count (pool.startHelpers count worker job) := by
  have hzero : worker = 0 := by
    by_contra hne
    rw [h.unset hunset worker (Nat.pos_of_ne_zero hne)] at hstage
    cases hstage
  subst hzero
  have hat : ∀ other, (pool.startHelpers count 0 job).stages other =
      if other = 0 then .launching job
      else if other < count then .starting
      else .unstarted := by
    intro other
    show Function.update (fun index => if 0 < index ∧ index < count then Stage.starting
      else pool.stages index) 0 (.launching job) other = _
    rw [Function.update_apply]
    split_ifs with hother hbound hless hless
    · rfl
    · rfl
    · exact absurd hbound.2 hless
    · exact absurd ⟨Nat.pos_of_ne_zero hother, hless⟩ hbound
    · exact h.beyond other (Nat.le_of_not_lt hless)
  refine ⟨fun other hother => ?_, fun other => ?_, ?_, Once.noConfusion, fun _ => ?_,
    Once.noConfusion, Once.noConfusion, fun other => ?_, fun other job lens readyLen => ?_,
    fun other index => ?_, fun other => ?_, fun _ other hother => ?_, fun _ => ?_, fun other => ?_⟩
  · rw [hat, if_neg (by omega), if_neg (by omega)]
  · show (pool.slots other).isSome = _
    rw [h.published other, hat]
    split_ifs with hother
    · rw [hother, hstage]
      rfl
    · rw [h.unset hunset other (Nat.pos_of_ne_zero hother)]
      rfl
    · rw [h.unset hunset other (Nat.pos_of_ne_zero hother)]
  · rw [hat]
    rfl
  · show pool.arrivals + 1 = _
    rw [h.unarrived hunset, Finset.sum_eq_single_of_mem 0 (Finset.mem_range.mpr (by omega))]
    · rw [hat]
      rfl
    · intro other hother hne
      rw [hat, if_neg hne, if_pos (Finset.mem_range.mp hother)]
      rfl
  · rw [hat]
    split_ifs <;> exact fun hplacing => by cases hplacing
  · rw [hat]
    split_ifs <;> exact fun heq => by cases heq
  · rw [hat]
    split_ifs <;> exact fun htarget => by cases htarget
  · rw [hat]
    split_ifs <;> rfl
  · rw [hat]
    split_ifs <;> rfl
  · rw [hat]
    rfl
  · rw [hat]
    split_ifs with hother
    · exact fun _ => ⟨hother, rfl⟩
    · exact fun hnever => by cases hnever
    · exact fun hnever => by cases hnever

/-- All have come to the barrier: the slots are there to be read. -/
theorem launched (h : Started count pool) {worker : Nat} {job : Job Coroutine}
    (hstage : pool.stages worker = .launching job) (hle : count ≤ pool.arrivals) :
    Started count ({ pool with helpersStarted := .set }.setStage worker
      (.choosing job [] none)) := by
  obtain ⟨rfl, hrunning⟩ := h.launching worker (by rw [hstage]; rfl)
  have hset : pool.helpersStarted ≠ .unset := by rw [hrunning]; exact Once.noConfusion
  have hlt := h.lt_count 0 (by rw [hstage]; rfl)
  have hat : ∀ other, ({ pool with helpersStarted := .set }.setStage 0
      (.choosing job [] none)).stages other =
        if other = 0 then .choosing job [] none else pool.stages other := fun other =>
    Function.update_apply _ _ _ other
  refine ⟨fun other hother => ?_, fun other => ?_, ?_, Once.noConfusion, fun _ => ?_,
    Once.noConfusion, fun _ => hle, fun _ _ => .inr rfl, fun other => ?_, fun other => ?_,
    fun other => ?_, fun _ other hother => ?_, Once.noConfusion, fun other hlaunching => ?_⟩
  · rw [hat, if_neg (by omega)]
    exact h.beyond other hother
  · rw [hat]
    split_ifs with hother
    · rw [hother]
      exact (h.published 0).trans (by rw [hstage]; rfl)
    · exact h.published other
  · rw [hat]
    rfl
  · have hsum := sum_update_add (fun stage => (Stage.hasArrived stage).toNat) pool.stages hlt
      (.choosing job [] none)
    have hold := h.arrivals hset
    rw [hstage] at hsum
    exact hold.trans (Nat.add_right_cancel hsum).symm
  · rw [hat]
    split_ifs
    · intro job' lens readyLen heq
      obtain ⟨-, rfl, rfl⟩ := Stage.choosing.inj heq
      exact ⟨Nat.zero_le _, fun hsome => by cases hsome⟩
    · exact h.lens other
  · rw [hat]
    split_ifs
    · exact fun _ htarget => by cases htarget
    · exact h.target other
  · rw [hat]
    split_ifs
    · rfl
    · exact h.running other
  · rw [hat]
    split_ifs
    · rfl
    · exact h.spawned hset other hother
  · -- Nobody but the leader launches.
    rw [hat] at hlaunching
    split_ifs at hlaunching with hother
    · cases hlaunching
    · exact absurd (h.launching other hlaunching).1 hother

/-- A thread past its start is neither one that waits to be started nor at the first barrier. -/
theorem of_moves (h : Started count pool) (hmoves : Moves count pool pool') :
    Started count pool' := by
  cases hmoves with
  | turn hturn => exact h.turn hturn
  | drive hdrives hhandle =>
    refine h.moved hhandle ?_ ?_
    · cases hdrives with
      | work hstage | wake hstage | sweep hstage => exact congrArg Stage.isFree hstage
    · cases hdrives <;> rfl
  | markBackground => exact { h with }
  | @publish worker hstage hnone =>
    refine h.update worker .published rfl rfl (by rw [hstage]; rfl) rfl (by rw [hstage]; rfl) rfl
      (fun hold => by rw [hstage] at hold; cases hold)
      (fun hold => by rw [hstage] at hold; cases hold) (fun other => ?_)
      (by rw [hstage]; rfl) (fun hplacing => by cases hplacing) (fun _ _ _ heq => by cases heq)
      (fun _ htarget => by cases htarget) rfl
    show (Function.update pool.slots worker (some .new) other).isSome =
      (Function.update pool.stages worker .published other).hasPublished
    rw [Function.update_apply, Function.update_apply]
    split_ifs
    · rfl
    · exact h.published other
  | @arrive worker hstage =>
    refine h.update worker .arrived rfl rfl (by rw [hstage]; rfl) rfl (by rw [hstage]; rfl) rfl
      (fun hold => by rw [hstage] at hold; cases hold)
      (fun hold => by rw [hstage] at hold; cases hold) (fun other => ?_)
      (by rw [hstage]; rfl) (fun hplacing => by cases hplacing) (fun _ _ _ heq => by cases heq)
      (fun _ htarget => by cases htarget) rfl
    show (pool.slots other).isSome =
      (Function.update pool.stages worker .arrived other).hasPublished
    rw [Function.update_apply, h.published other]
    split_ifs with heq
    · rw [heq, hstage]
      rfl
    · rfl
  | startHelpers hstage hlt hunset => exact h.startHelpers hstage hlt hunset
  | launched hstage hle => exact h.launched hstage hle
  | spawnPlaced coroutine hstage =>
    have hsame : Started count { pool with tickets := pool.tickets + 1 } := { h with }
    exact hsame.setStage_plain (congrArg Stage.isFree hstage) rfl
  | take hstage hhandle =>
    exact (h.setHandle hhandle _).setStage_plain (congrArg Stage.isFree hstage) rfl
  | subtract hstage hhandle =>
    exact (h.setHandle hhandle _).setStage_plain (congrArg Stage.isFree hstage) rfl
  | install hstage hhandle =>
    refine Started.moved ?_ hhandle (congrArg Stage.isFree hstage) rfl
    exact { h with }
  | @place worker target handle job hstage hhandle =>
    have hplacing : (pool.stages worker).inPlacement = true := by rw [hstage]; rfl
    refine (h.setHandle hhandle _).setStage (congrArg Stage.isStarted hstage) rfl
      (congrArg Stage.isLaunching hstage) rfl (fun _ => rfl)
      (congrArg Stage.hasPublished hstage).symm (congrArg Stage.hasArrived hstage).symm
      (fun _ => h.chosen worker hplacing) (fun _ _ _ heq => by cases heq) ?_ rfl
    exact fun index htarget => h.target worker index (hstage ▸ htarget)
  | @push worker target handle job hstage hhandle =>
    have hplacing : (pool.stages worker).inPlacement = true := by rw [hstage]; rfl
    have hsame : Started count { pool with
        queuedOn := Function.update pool.queuedOn target (pool.queuedOn target ++ [job]) } :=
      { h with }
    refine (hsame.setHandle hhandle _).setStage (congrArg Stage.isStarted hstage) rfl
      (congrArg Stage.isLaunching hstage) rfl (fun _ => rfl)
      (congrArg Stage.hasPublished hstage).symm (congrArg Stage.hasArrived hstage).symm
      (fun _ => h.chosen worker hplacing) (fun _ _ _ heq => by cases heq) ?_ rfl
    exact fun index htarget => h.target worker index (hstage ▸ htarget)
  | wake hstage hhandle =>
    exact (h.setHandle hhandle _).setStage_plain (congrArg Stage.isFree hstage) rfl
  | poll tokens hstage hhandle =>
    exact (h.setHandle hhandle _).setStage_plain (congrArg Stage.isFree hstage) rfl
  | shutdown hstage =>
    have hsame : Started count { pool with shutdown := true } := { h with }
    exact hsame.setStage_plain (congrArg Stage.isFree hstage) rfl
  | wakeHelper hstage hhandle =>
    exact (h.setHandle hhandle _).setStage_plain (congrArg Stage.isFree hstage) rfl

end Started

end Quilon.Runtime.Placement
