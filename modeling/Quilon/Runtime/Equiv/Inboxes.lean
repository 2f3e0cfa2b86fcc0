import Quilon.Runtime.Equiv.Placement
import Quilon.Runtime.Equiv.Scheduler

/-!
# Placed fibers are neither lost nor installed twice

The invariants of a whole run: `Delivered` for the inboxes and their lengths, `Ticketed` for the
placements, `Alert` for the wakes, `Leaving` for the end of the run, `Owned` for the schedulers.

Main results:

* `placed_once` — every placement is in one place, and each worker installs what was queued on it in
  that order;
* `canMove_of_busy` — a thread is blocked in its poll only;
* `no_wake_lost` — when only a poll that nobody woke could end, every placed fiber is installed, but
  for those on a worker that has stopped.
-/

namespace Quilon.Runtime.Placement

variable {Coroutine : Type} {count : Nat} {pool pool' : Pool Coroutine}

/-! ### What is placed is installed -/

/-- Each worker installs what was queued on it, in that order, and the length of its inbox counts
what is in there, what it drained and has not subtracted, and what is on its way. -/
structure Delivered (count : Nat) (pool : Pool Coroutine) : Prop where
  fifo (worker : Nat) (handle : WorkerHandle Coroutine) : pool.slots worker = some handle →
    pool.queuedOn worker =
      pool.installedOn worker ++ (pool.stages worker).taken ++ handle.inbox
  unpublished (worker : Nat) : pool.slots worker = none →
    pool.queuedOn worker = [] ∧ pool.installedOn worker = []
  inboxLen (worker : Nat) (handle : WorkerHandle Coroutine) : pool.slots worker = some handle →
    handle.inboxLen = handle.inbox.length + (pool.stages worker).uncounted +
      ∑ other ∈ Finset.range count, if (pool.stages other).onWayTo = some worker then 1 else 0

namespace Delivered

theorem of_cargo (h : Delivered count pool) (hslots : pool'.slots = pool.slots)
    (hcargo : ∀ worker, (pool'.stages worker).cargo = (pool.stages worker).cargo)
    (hqueued : pool'.queuedOn = pool.queuedOn) (hinstalled : pool'.installedOn = pool.installedOn) :
    Delivered count pool' := by
  have htaken : ∀ worker, (pool'.stages worker).taken = (pool.stages worker).taken :=
    fun worker => congrArg Prod.fst (hcargo worker)
  have huncounted : ∀ worker, (pool'.stages worker).uncounted = (pool.stages worker).uncounted :=
    fun worker => congrArg (·.2.1) (hcargo worker)
  have honWay : ∀ worker, (pool'.stages worker).onWayTo = (pool.stages worker).onWayTo :=
    fun worker => congrArg (·.2.2) (hcargo worker)
  refine ⟨fun worker handle hhandle => ?_, fun worker hnone => ?_,
    fun worker handle hhandle => ?_⟩
  · rw [hqueued, hinstalled, htaken]
    exact h.fifo worker handle (hslots ▸ hhandle)
  · rw [hqueued, hinstalled]
    exact h.unpublished worker (hslots ▸ hnone)
  · simp only [honWay, huncounted]
    exact h.inboxLen worker handle (hslots ▸ hhandle)

theorem setStage (h : Delivered count pool) {worker : Nat} {stage : Stage Coroutine}
    (hcargo : stage.cargo = (pool.stages worker).cargo) :
    Delivered count (pool.setStage worker stage) := by
  refine h.of_cargo rfl (fun other => ?_) rfl rfl
  show (Function.update pool.stages worker stage other).cargo = _
  rw [Function.update_apply]
  split_ifs with heq
  · rw [heq, hcargo]
  · rfl

theorem setHandle (h : Delivered count pool) {index : Nat} {old handle : WorkerHandle Coroutine}
    (hold : pool.slots index = some old) (hinbox : handle.inbox = old.inbox)
    (hlen : handle.inboxLen = old.inboxLen) : Delivered count (pool.setHandle index handle) := by
  have hat : ∀ other, (pool.setHandle index handle).slots other =
      if other = index then some handle else pool.slots other := fun other =>
    Function.update_apply _ _ _ other
  refine ⟨fun other found hfound => ?_, fun other hnone => ?_, fun other found hfound => ?_⟩
  · rw [hat] at hfound
    split_ifs at hfound with heq
    · obtain rfl := Option.some.inj hfound
      rw [hinbox, heq]
      exact h.fifo index old hold
    · exact h.fifo other found hfound
  · rw [hat] at hnone
    split_ifs at hnone
    exact h.unpublished other hnone
  · rw [hat] at hfound
    split_ifs at hfound with heq
    · obtain rfl := Option.some.inj hfound
      rw [hinbox, hlen, heq]
      exact h.inboxLen index old hold
    · exact h.inboxLen other found hfound

theorem turn (h : Delivered count pool) {worker : Nat} {stage : Stage Coroutine}
    (hturn : Turns count pool worker stage) : Delivered count (pool.setStage worker stage) := by
  cases hturn with
  | planned hstage =>
    refine h.setStage ?_
    rw [hstage, Pool.planned]
    split
    · rfl
    · split_ifs <;> rfl
  | enter hstage | installed hstage | ensured hstage | readReady _ hstage | readInbox _ hstage
  | chosen hstage | passed hstage | finished hstage =>
    exact h.setStage (congrArg Stage.cargo hstage).symm

/-- A worker is published with nothing in its inbox, and nobody has chosen it before. -/
theorem publish (h : Delivered count pool) (hstarted : Started count pool) {worker : Nat}
    (hstage : pool.stages worker = .starting) (hnone : pool.slots worker = none) :
    Delivered count (((pool.setHandle worker .new).setWorker worker .start).setStage worker
      .published) := by
  have hlt := hstarted.lt_count worker (by rw [hstage]; rfl)
  obtain ⟨hqueued, hinstalled⟩ := h.unpublished worker hnone
  have hnobody : ∀ other, (pool.stages other).onWayTo ≠ some worker := by
    intro other honWay
    have hplacing : (pool.stages other).inPlacement = true := by
      cases hother : pool.stages other <;> rw [hother] at honWay <;> first | rfl | cases honWay
    obtain ⟨handle, hhandle⟩ := hstarted.slot other hplacing hlt
    rw [hnone] at hhandle
    cases hhandle
  have hnew : Delivered count (pool.setHandle worker .new) := by
    have hat : ∀ other, (pool.setHandle worker .new).slots other =
        if other = worker then some .new else pool.slots other := fun other =>
      Function.update_apply _ _ _ other
    refine ⟨fun other found hfound => ?_, fun other hempty => ?_, fun other found hfound => ?_⟩
    · rw [hat] at hfound
      split_ifs at hfound with heq
      · obtain rfl := Option.some.inj hfound
        show pool.queuedOn other = pool.installedOn other ++ (pool.stages other).taken ++ []
        rw [heq, hqueued, hinstalled, hstage]
        rfl
      · exact h.fifo other found hfound
    · rw [hat] at hempty
      split_ifs at hempty
      exact h.unpublished other hempty
    · rw [hat] at hfound
      split_ifs at hfound with heq
      · obtain rfl := Option.some.inj hfound
        show 0 = 0 + (pool.stages other).uncounted +
          ∑ third ∈ Finset.range count, if (pool.stages third).onWayTo = some other then 1 else 0
        rw [heq, hstage, Finset.sum_eq_zero fun third _ => if_neg (hnobody third)]
        rfl
      · exact h.inboxLen other found hfound
  have hset : Delivered count ((pool.setHandle worker .new).setWorker worker .start) :=
    { hnew with }
  exact hset.setStage (congrArg Stage.cargo hstage).symm

/-- A worker moves jobs from its inbox to its queue. -/
theorem own (h : Delivered count pool) {worker : Nat} {old handle : WorkerHandle Coroutine}
    {stage : Stage Coroutine} (installed : List (Job Coroutine))
    (hold : pool.slots worker = some old)
    (hslots : pool'.slots = Function.update pool.slots worker (some handle))
    (hstages : pool'.stages = Function.update pool.stages worker stage)
    (hqueued : pool'.queuedOn = pool.queuedOn)
    (hinstalled : pool'.installedOn = Function.update pool.installedOn worker installed)
    (honWay : stage.onWayTo = (pool.stages worker).onWayTo)
    (hfifo : pool.installedOn worker ++ (pool.stages worker).taken ++ old.inbox =
      installed ++ stage.taken ++ handle.inbox)
    (hlen : old.inboxLen + (handle.inbox.length + stage.uncounted) =
      handle.inboxLen + (old.inbox.length + (pool.stages worker).uncounted)) :
    Delivered count pool' := by
  have hways : ∀ other, (pool'.stages other).onWayTo = (pool.stages other).onWayTo := by
    intro other
    rw [hstages, Function.update_apply]
    split_ifs with heq
    · rw [heq, honWay]
    · rfl
  refine ⟨fun other found hfound => ?_, fun other hnone => ?_, fun other found hfound => ?_⟩
  · rw [hslots, Function.update_apply] at hfound
    rw [hqueued, hinstalled, hstages, Function.update_apply, Function.update_apply]
    split_ifs at hfound ⊢ with heq
    · obtain rfl := Option.some.inj hfound
      rw [← hfifo, heq]
      exact h.fifo worker old hold
    · exact h.fifo other found hfound
  · rw [hslots, Function.update_apply] at hnone
    rw [hqueued, hinstalled, Function.update_apply]
    split_ifs at hnone ⊢
    exact h.unpublished other hnone
  · rw [hslots, Function.update_apply] at hfound
    simp only [hways]
    rw [hstages, Function.update_apply]
    split_ifs at hfound ⊢ with heq
    · obtain rfl := Option.some.inj hfound
      have hbefore := h.inboxLen worker old hold
      rw [heq]
      omega
    · exact h.inboxLen other found hfound

/-- A placement comes nearer to the inbox of its target. -/
theorem aim (h : Delivered count pool) {worker target : Nat} {old handle : WorkerHandle Coroutine}
    {stage : Stage Coroutine} (more : List (Job Coroutine)) (hlt : worker < count)
    (hold : pool.slots target = some old)
    (hslots : pool'.slots = Function.update pool.slots target (some handle))
    (hstages : pool'.stages = Function.update pool.stages worker stage)
    (hqueued : pool'.queuedOn =
      Function.update pool.queuedOn target (pool.queuedOn target ++ more))
    (hinstalled : pool'.installedOn = pool.installedOn)
    (htaken : stage.taken = (pool.stages worker).taken)
    (huncounted : stage.uncounted = (pool.stages worker).uncounted)
    (hother : ∀ other, other ≠ target →
      (stage.onWayTo = some other ↔ (pool.stages worker).onWayTo = some other))
    (hinbox : handle.inbox = old.inbox ++ more)
    (hlen : handle.inboxLen + (if (pool.stages worker).onWayTo = some target then 1 else 0) =
      old.inboxLen + more.length + if stage.onWayTo = some target then 1 else 0) :
    Delivered count pool' := by
  have htakens : ∀ other, (pool'.stages other).taken = (pool.stages other).taken := by
    intro other
    rw [hstages, Function.update_apply]
    split_ifs with heq
    · rw [heq, htaken]
    · rfl
  have huncounteds : ∀ other, (pool'.stages other).uncounted = (pool.stages other).uncounted := by
    intro other
    rw [hstages, Function.update_apply]
    split_ifs with heq
    · rw [heq, huncounted]
    · rfl
  refine ⟨fun other found hfound => ?_, fun other hnone => ?_, fun other found hfound => ?_⟩
  · rw [hslots, Function.update_apply] at hfound
    rw [hqueued, hinstalled, htakens, Function.update_apply]
    split_ifs at hfound ⊢ with heq
    · obtain rfl := Option.some.inj hfound
      rw [hinbox, heq, h.fifo target old hold, List.append_assoc]
    · exact h.fifo other found hfound
  · rw [hslots, Function.update_apply] at hnone
    rw [hqueued, hinstalled, Function.update_apply]
    split_ifs at hnone ⊢
    exact h.unpublished other hnone
  · rw [hslots, Function.update_apply] at hfound
    rw [huncounteds]
    have hsum := sum_update_add (fun stage => if Stage.onWayTo stage = some other then 1 else 0)
      pool.stages hlt stage
    rw [← hstages] at hsum
    split_ifs at hfound with heq
    · obtain rfl := Option.some.inj hfound
      subst heq
      have hbefore := h.inboxLen other old hold
      have hmore : handle.inbox.length = old.inbox.length + more.length := by
        rw [hinbox, List.length_append]
      omega
    · have hbefore := h.inboxLen other found hfound
      simp only [hother other heq] at hsum
      omega

theorem of_moves (h : Delivered count pool) (hstarted : Started count pool)
    (hmoves : Moves count pool pool') : Delivered count pool' := by
  cases hmoves with
  | turn hturn => exact h.turn hturn
  | @drive worker event stage handle later hdrives hhandle hstep =>
    have hset : Delivered count (pool.setWorker worker later) := { h with }
    refine (hset.setHandle hhandle (by rfl) (by rfl)).setStage ?_
    cases hdrives with
    | work hstage | wake hstage | sweep hstage => exact (congrArg Stage.cargo hstage).symm
  | markBackground => exact { h with }
  | publish hstage hnone => exact h.publish hstarted hstage hnone
  | @arrive worker hstage =>
    have hset : Delivered count { pool with arrivals := pool.arrivals + 1 } := { h with }
    exact hset.setStage (congrArg Stage.cargo hstage).symm
  | @startHelpers worker job hstage hlt hunset =>
    refine h.of_cargo rfl (fun other => ?_) rfl rfl
    show (Function.update (fun index => if 0 < index ∧ index < count then Stage.starting
      else pool.stages index) worker (.launching job) other).cargo = _
    rw [Function.update_apply]
    split_ifs with heq hhelper
    · rw [heq, hstage]
      rfl
    · rw [hstarted.unset hunset other hhelper.1]
      rfl
    · rfl
  | @launched worker job hstage =>
    have hset : Delivered count { pool with helpersStarted := .set } := { h with }
    exact hset.setStage (congrArg Stage.cargo hstage).symm
  | @spawnPlaced worker coroutine hstage =>
    have hset : Delivered count { pool with tickets := pool.tickets + 1 } := { h with }
    exact hset.setStage (congrArg Stage.cargo hstage).symm
  | @take worker handle hstage hhandle =>
    refine h.own _ hhandle rfl rfl rfl (Function.update_eq_self worker _).symm ?_ ?_ ?_
    · exact (congrArg Stage.onWayTo hstage).symm
    · rw [hstage]
      show pool.installedOn worker ++ [] ++ handle.inbox =
        pool.installedOn worker ++ handle.inbox ++ []
      simp
    · rw [hstage]
      simp [Stage.uncounted]
  | @subtract worker handle jobs hstage hhandle =>
    have hlen := h.inboxLen worker handle hhandle
    rw [hstage] at hlen
    refine h.own _ hhandle rfl rfl rfl (Function.update_eq_self worker _).symm ?_ ?_ ?_
    · exact (congrArg Stage.onWayTo hstage).symm
    · rw [hstage]
      rfl
    · rw [hstage]
      simp only [Stage.uncounted] at hlen ⊢
      omega
  | @install worker handle job jobs later hstage hhandle hstep =>
    refine h.own _ hhandle rfl rfl rfl rfl ?_ ?_ ?_
    · exact (congrArg Stage.onWayTo hstage).symm
    · rw [hstage]
      simp [Stage.taken]
    · rw [hstage]
      rfl
  | @place worker target handle job hstage hhandle =>
    have hlt := hstarted.lt_count worker (by rw [hstage]; rfl)
    refine h.aim [] hlt hhandle rfl rfl ?_ rfl ?_ ?_ (fun other hne => ?_) ?_ ?_
    · rw [List.append_nil, Function.update_eq_self]
      rfl
    · exact (congrArg Stage.taken hstage).symm
    · exact (congrArg Stage.uncounted hstage).symm
    · rw [hstage]
      simp [Stage.onWayTo, hne.symm]
    · exact (List.append_nil _).symm
    · rw [hstage]
      simp [Stage.onWayTo]
  | @push worker target handle job hstage hhandle =>
    have hlt := hstarted.lt_count worker (by rw [hstage]; rfl)
    refine h.aim [job] hlt hhandle rfl rfl rfl rfl ?_ ?_ (fun other hne => ?_) rfl ?_
    · exact (congrArg Stage.taken hstage).symm
    · exact (congrArg Stage.uncounted hstage).symm
    · rw [hstage]
      simp [Stage.onWayTo, hne.symm]
    · rw [hstage]
      simp [Stage.onWayTo]
  | wake hstage hhandle =>
    exact (h.setHandle hhandle (by rfl) (by rfl)).setStage (congrArg Stage.cargo hstage).symm
  | poll tokens hstage hhandle =>
    exact (h.setHandle hhandle (by rfl) (by rfl)).setStage (congrArg Stage.cargo hstage).symm
  | @shutdown worker hstage =>
    have hset : Delivered count { pool with shutdown := true } := { h with }
    exact hset.setStage (congrArg Stage.cargo hstage).symm
  | wakeHelper hstage hhandle =>
    exact (h.setHandle hhandle (by rfl) (by rfl)).setStage (congrArg Stage.cargo hstage).symm

end Delivered

/-! ### Every ticket once -/

/-- How often a ticket occurs. -/
def occurrences (ticket : Nat) (jobs : List (Job Coroutine)) : Nat :=
  jobs.countP fun job => job.ticket == ticket

theorem occurrences_append (ticket : Nat) (jobs later : List (Job Coroutine)) :
    occurrences ticket (jobs ++ later) = occurrences ticket jobs + occurrences ticket later :=
  List.countP_append

theorem occurrences_singleton (ticket : Nat) (job : Job Coroutine) :
    occurrences ticket [job] = if job.ticket = ticket then 1 else 0 := by
  rw [occurrences, List.countP_singleton]
  simp only [beq_iff_eq]

/-- A ticket that was given out is in the hand of one placement, or queued on one worker, once. -/
def Ticketed (count : Nat) (pool : Pool Coroutine) : Prop :=
  ∀ ticket, ∑ worker ∈ Finset.range count, occurrences ticket (pool.stages worker).inHand +
    ∑ worker ∈ Finset.range count, occurrences ticket (pool.queuedOn worker) =
    if ticket < pool.tickets then 1 else 0

namespace Ticketed

theorem keep (h : Ticketed count pool) (worker : Nat) {stage : Stage Coroutine}
    (hstages : pool'.stages = Function.update pool.stages worker stage)
    (hhand : stage.inHand = (pool.stages worker).inHand)
    (hqueued : pool'.queuedOn = pool.queuedOn) (htickets : pool'.tickets = pool.tickets) :
    Ticketed count pool' := by
  have hhands : ∀ other, (pool'.stages other).inHand = (pool.stages other).inHand := by
    intro other
    rw [hstages, Function.update_apply]
    split_ifs with heq
    · rw [heq, hhand]
    · rfl
  intro ticket
  simp only [hhands, hqueued, htickets]
  exact h ticket

theorem of_moves (h : Ticketed count pool) (hstarted : Started count pool)
    (hmoves : Moves count pool pool') : Ticketed count pool' := by
  cases hmoves with
  | @turn worker stage hturn =>
    refine h.keep worker rfl ?_ rfl rfl
    cases hturn with
    | planned hstage =>
      rw [hstage, Pool.planned]
      split
      · rfl
      · split_ifs <;> rfl
    | enter hstage | installed hstage | ensured hstage | readReady _ hstage | readInbox _ hstage
    | chosen hstage | passed hstage | finished hstage => exact (congrArg Stage.inHand hstage).symm
  | @drive worker event stage handle later hdrives =>
    refine h.keep worker rfl ?_ rfl rfl
    cases hdrives with
    | work hstage | wake hstage | sweep hstage => exact (congrArg Stage.inHand hstage).symm
  | markBackground => exact h
  | @startHelpers worker job hstage hlt hunset =>
    intro ticket
    have hhands : ∀ other, ((pool.startHelpers count worker job).stages other).inHand =
        (pool.stages other).inHand := by
      intro other
      show (Function.update (fun index => if 0 < index ∧ index < count then Stage.starting
        else pool.stages index) worker (.launching job) other).inHand = _
      rw [Function.update_apply]
      split_ifs with heq hhelper
      · rw [heq, hstage]
        rfl
      · rw [hstarted.unset hunset other hhelper.1]
        rfl
      · rfl
    simp only [hhands]
    exact h ticket
  | @spawnPlaced worker coroutine hstage =>
    have hlt := hstarted.lt_count worker (by rw [hstage]; rfl)
    intro ticket
    have hold : occurrences ticket (pool.stages worker).inHand = 0 := by rw [hstage]; rfl
    have hnew : occurrences ticket [(⟨pool.tickets, coroutine⟩ : Job Coroutine)] =
        if pool.tickets = ticket then 1 else 0 := occurrences_singleton ticket _
    have hsum : ∑ other ∈ Finset.range count, occurrences ticket (Function.update pool.stages worker
        (.ensuring ⟨pool.tickets, coroutine⟩) other).inHand +
          occurrences ticket (pool.stages worker).inHand =
        ∑ other ∈ Finset.range count, occurrences ticket (pool.stages other).inHand +
          occurrences ticket [⟨pool.tickets, coroutine⟩] :=
      sum_update_add (fun stage => occurrences ticket (Stage.inHand stage)) pool.stages hlt _
    have hbefore := h ticket
    show ∑ other ∈ Finset.range count, occurrences ticket (Function.update pool.stages worker
      (.ensuring ⟨pool.tickets, coroutine⟩) other).inHand +
        ∑ other ∈ Finset.range count, occurrences ticket (pool.queuedOn other) =
          if ticket < pool.tickets + 1 then 1 else 0
    rw [hnew] at hsum
    split_ifs at hsum hbefore ⊢ <;> omega
  | @push worker target handle job hstage hhandle =>
    have hlt := hstarted.lt_count worker (by rw [hstage]; rfl)
    have htarget := hstarted.target worker target (by rw [hstage]; rfl)
    intro ticket
    have hhands : ∑ other ∈ Finset.range count, occurrences ticket (Function.update pool.stages
        worker (.queued target) other).inHand +
          occurrences ticket (pool.stages worker).inHand =
        ∑ other ∈ Finset.range count, occurrences ticket (pool.stages other).inHand + 0 :=
      sum_update_add (fun stage => occurrences ticket (Stage.inHand stage)) pool.stages hlt _
    have hqueued := sum_update_add (occurrences ticket) pool.queuedOn htarget
      (pool.queuedOn target ++ [job])
    have hjob : occurrences ticket (pool.stages worker).inHand = occurrences ticket [job] := by
      rw [hstage]
      rfl
    have hbefore := h ticket
    rw [occurrences_append] at hqueued
    show ∑ other ∈ Finset.range count, occurrences ticket (Function.update pool.stages worker
      (.queued target) other).inHand +
        ∑ other ∈ Finset.range count, occurrences ticket (Function.update pool.queuedOn target
          (pool.queuedOn target ++ [job]) other) =
            if ticket < pool.tickets then 1 else 0
    omega
  | publish hstage | arrive hstage | launched hstage | take hstage | subtract hstage
  | install hstage | place hstage | wake hstage | poll _ hstage | shutdown hstage
  | wakeHelper hstage => exact h.keep _ rfl (congrArg Stage.inHand hstage).symm rfl rfl

end Ticketed

/-! ### No wake is lost -/

/-- A worker with jobs in its inbox has a wake, or one is coming, or it looks before it waits. -/
def Alert (pool : Pool Coroutine) : Prop :=
  ∀ worker handle, pool.slots worker = some handle → handle.inbox ≠ [] →
    handle.woken = true ∨ (∃ other, pool.stages other = .queued worker) ∨
      (pool.stages worker).willDrain = true

theorem Alert.of_moves (h : Alert pool) (hstarted : Started count pool)
    (hmoves : Moves count pool pool') : Alert pool' := by
  intro target found hfound hne
  cases hmoves with
  | turn hturn =>
    simp only [Pool.setStage, Function.update_apply] at hfound ⊢
    cases hturn <;> grind [Stage.willDrain, Alert]
  | drive hdrives hhandle hstep =>
    simp only [Pool.moved, Pool.setStage, Pool.setHandle, Pool.setWorker,
      Function.update_apply] at hfound ⊢
    cases hdrives <;> grind [Stage.willDrain, Alert]
  | markBackground => exact h target found hfound hne
  | publish hstage hnone =>
    simp only [Pool.setStage, Pool.setHandle, Pool.setWorker, Function.update_apply] at hfound ⊢
    grind [Stage.willDrain, Alert, WorkerHandle.new]
  | startHelpers hstage hlt hunset =>
    simp only [Pool.startHelpers, Function.update_apply] at hfound ⊢
    have := hstarted.unset hunset
    grind [Stage.willDrain, Alert]
  | install hstage hhandle hstep =>
    simp only [Pool.moved, Pool.setStage, Pool.setHandle, Pool.setWorker,
      Function.update_apply] at hfound ⊢
    grind [Stage.willDrain, Alert]
  | arrive hstage | launched hstage | spawnPlaced _ hstage | take hstage hhandle
  | subtract hstage hhandle | place hstage hhandle | push hstage hhandle | wake hstage hhandle
  | poll _ hstage hhandle | shutdown hstage | wakeHelper hstage hhandle =>
    simp only [Pool.setStage, Pool.setHandle, Function.update_apply] at hfound ⊢
    grind [Stage.willDrain, Alert]

/-! ### Leaving -/

/-- Once the leader has asked them to stop, the helpers that have nothing to do are woken. -/
structure Leaving (pool : Pool Coroutine) : Prop where
  asked : pool.shutdown = true ↔
    (∃ next, pool.stages 0 = .shuttingDown next) ∨ pool.stages 0 = .stopped
  leader (worker next : Nat) : pool.stages worker = .leaving ∨
    pool.stages worker = .shuttingDown next → worker = 0
  helpers (worker : Nat) : 0 < worker → pool.stages worker = .stopped → pool.shutdown = true
  awake (worker : Nat) (handle : WorkerHandle Coroutine) : pool.shutdown = true →
    pool.stages worker = .waiting none → pool.slots worker = some handle →
      handle.woken = true ∨ ∃ next ≤ worker, pool.stages 0 = .shuttingDown next

theorem planned_cases (pool : Pool Coroutine) (worker : Nat) :
    (∃ timeout, pool.planned worker = .waiting (some timeout)) ∨
      (worker = 0 ∧ pool.planned worker = .leaving) ∨
      (0 < worker ∧ pool.shutdown = true ∧ pool.planned worker = .stopped) ∨
      (0 < worker ∧ pool.shutdown = false ∧ pool.planned worker = .waiting none) := by
  rw [Pool.planned]
  split
  · exact .inl ⟨_, rfl⟩
  · split_ifs with hzero hshutdown
    · exact .inr (.inl ⟨hzero, rfl⟩)
    · exact .inr (.inr (.inl ⟨Nat.pos_of_ne_zero hzero, hshutdown, rfl⟩))
    · exact .inr (.inr (.inr ⟨Nat.pos_of_ne_zero hzero, Bool.eq_false_iff.mpr hshutdown, rfl⟩))

/-- The leader past its loop, or a worker that stopped. -/
def Stage.hasLeft : Stage Coroutine → Bool
  | .leaving | .shuttingDown _ | .stopped => true
  | _ => false

/-- A helper in a poll that only a wake ends. -/
def Stage.isAsleep : Stage Coroutine → Bool
  | .waiting none => true
  | _ => false

namespace Leaving

/-- A thread goes on before the end, and no other worker is less awake. -/
theorem keep (h : Leaving pool) (worker : Nat) {stage : Stage Coroutine}
    (hstages : pool'.stages = Function.update pool.stages worker stage)
    (hshutdown : pool'.shutdown = pool.shutdown)
    (hold : (pool.stages worker).hasLeft = false) (hstage : stage.hasLeft = false)
    (hwaits : stage.isAsleep = false)
    (hwoken : ∀ other handle, other ≠ worker → pool'.slots other = some handle →
      handle.woken = true ∨ ∃ old, pool.slots other = some old ∧ old.woken = handle.woken) :
    Leaving pool' := by
  have hat : ∀ other, pool'.stages other = if other = worker then stage else pool.stages other :=
    fun other => by rw [hstages, Function.update_apply]
  have hleft : ∀ other left, left.hasLeft = true →
      (pool'.stages other = left ↔ pool.stages other = left) := by
    intro other left hhas
    rw [hat]
    split_ifs with heq
    · subst heq
      constructor
      · rintro rfl
        rw [hstage] at hhas
        cases hhas
      · rintro rfl
        rw [hold] at hhas
        cases hhas
    · rfl
  refine ⟨?_, fun other next => ?_, fun other hpos => ?_, fun other handle hset hother hfound => ?_⟩
  · simp only [hshutdown, h.asked, hleft 0 (.shuttingDown _) rfl, hleft 0 .stopped rfl]
  · rw [hleft other .leaving rfl, hleft other (.shuttingDown next) rfl]
    exact h.leader other next
  · rw [hleft other .stopped rfl, hshutdown]
    exact h.helpers other hpos
  · simp only [hleft 0 (.shuttingDown _) rfl]
    rw [hat] at hother
    split_ifs at hother with heq
    · rw [hother] at hwaits
      cases hwaits
    · obtain hwake | ⟨old, hslot, hsame⟩ := hwoken other handle heq hfound
      · exact .inl hwake
      · rw [← hsame]
        exact h.awake other old (hshutdown ▸ hset) hother hslot

theorem setStage (h : Leaving pool) {worker : Nat} {stage : Stage Coroutine}
    (hold : (pool.stages worker).hasLeft = false) (hstage : stage.hasLeft = false)
    (hwaits : stage.isAsleep = false) : Leaving (pool.setStage worker stage) :=
  h.keep worker rfl rfl hold hstage hwaits fun _ handle _ hhandle => .inr ⟨handle, hhandle, rfl⟩

/-- A wake, or what does not concern it. -/
theorem setHandle (h : Leaving pool) {worker index : Nat} {stage : Stage Coroutine}
    {old handle : WorkerHandle Coroutine} (hslot : pool.slots index = some old)
    (hwoken : index = worker ∨ handle.woken = true ∨ handle.woken = old.woken)
    (hold : (pool.stages worker).hasLeft = false) (hstage : stage.hasLeft = false)
    (hwaits : stage.isAsleep = false) :
    Leaving ((pool.setHandle index handle).setStage worker stage) := by
  refine h.keep worker rfl rfl hold hstage hwaits fun other found hne hfound => ?_
  replace hfound : Function.update pool.slots index (some handle) other = some found := hfound
  rw [Function.update_apply] at hfound
  split_ifs at hfound with heq
  · obtain rfl := Option.some.inj hfound
    obtain hown | hwake | hsame := hwoken
    · exact absurd (heq.trans hown) hne
    · exact .inl hwake
    · exact .inr ⟨old, heq ▸ hslot, hsame.symm⟩
  · exact .inr ⟨found, hfound, rfl⟩

/-- What a worker plans: only a helper that is not asked to stop goes to sleep. -/
theorem planned (h : Leaving pool) {worker : Nat} (hstage : pool.stages worker = .resuming) :
    Leaving (pool.setStage worker (pool.planned worker)) := by
  obtain ⟨hasked, hleader, hhelpers, hawake⟩ := h
  obtain ⟨timeout, hplanned⟩ | ⟨hzero, hplanned⟩ | ⟨hpos, hshutdown, hplanned⟩ |
    ⟨hpos, hshutdown, hplanned⟩ := planned_cases pool worker
  all_goals
    rw [hplanned]
    constructor <;> simp only [Pool.setStage, Function.update_apply] <;> grind

theorem turn (h : Leaving pool) (hstarted : Started count pool) {worker : Nat}
    {stage : Stage Coroutine} (hturn : Turns count pool worker stage) :
    Leaving (pool.setStage worker stage) := by
  cases hturn with
  | planned hstage => exact h.planned hstage
  | passed hstage hnone | finished hstage hle =>
    obtain ⟨hasked, hleader, hhelpers, hawake⟩ := h
    have hbeyond := hstarted.beyond
    obtain rfl := hleader worker _ (.inr hstage)
    constructor <;> simp only [Pool.setStage, Function.update_apply] <;> grind
  | enter hstage | installed hstage | ensured hstage | readReady _ hstage | readInbox _ hstage
  | chosen hstage => exact h.setStage (congrArg Stage.hasLeft hstage) rfl rfl

theorem of_moves (h : Leaving pool) (hstarted : Started count pool)
    (hmoves : Moves count pool pool') : Leaving pool' := by
  cases hmoves with
  | turn hturn => exact h.turn hstarted hturn
  | @drive worker event stage handle later hdrives hhandle =>
    have hset : Leaving (pool.setWorker worker later) := { h with }
    refine hset.setHandle hhandle (.inl rfl) ?_ ?_ ?_
    · cases hdrives with
      | work hstage | wake hstage | sweep hstage => exact congrArg Stage.hasLeft hstage
    · cases hdrives <;> rfl
    · cases hdrives <;> rfl
  | markBackground => exact { h with }
  | @publish worker hstage hnone =>
    refine h.keep worker rfl rfl (congrArg Stage.hasLeft hstage) rfl rfl ?_
    intro other handle hne hhandle
    replace hhandle : Function.update pool.slots worker (some .new) other = some handle := hhandle
    rw [Function.update_of_ne hne] at hhandle
    exact .inr ⟨handle, hhandle, rfl⟩
  | @startHelpers worker job hstage hlt hunset =>
    obtain ⟨hasked, hleader, hhelpers, hawake⟩ := h
    have hothers := hstarted.unset hunset
    constructor <;> simp only [Pool.startHelpers, Function.update_apply] <;> grind
  | @shutdown worker hstage =>
    obtain ⟨hasked, hleader, hhelpers, hawake⟩ := h
    obtain rfl := hleader worker 0 (.inl hstage)
    constructor <;> simp only [Pool.setStage, Function.update_apply] <;> grind
  | @wakeHelper worker next handle hstage hhandle =>
    obtain ⟨hasked, hleader, hhelpers, hawake⟩ := h
    obtain rfl := hleader worker next (.inr hstage)
    constructor <;> simp only [Pool.setStage, Pool.setHandle, Function.update_apply] <;> grind
  | @install worker handle job jobs later hstage hhandle =>
    have hset : Leaving ({ pool with
        installedOn := Function.update pool.installedOn worker
          (pool.installedOn worker ++ [job]) }.setWorker worker later) := { h with }
    exact hset.setHandle hhandle (.inl rfl) (congrArg Stage.hasLeft hstage) rfl rfl
  | @push worker target handle job hstage hhandle =>
    have hset : Leaving { pool with
        queuedOn := Function.update pool.queuedOn target (pool.queuedOn target ++ [job]) } :=
      { h with }
    exact hset.setHandle hhandle (.inr (.inr rfl)) (congrArg Stage.hasLeft hstage) rfl rfl
  | arrive hstage =>
    have hset : Leaving { pool with arrivals := pool.arrivals + 1 } := { h with }
    exact hset.setStage (congrArg Stage.hasLeft hstage) rfl rfl
  | launched hstage =>
    have hset : Leaving { pool with helpersStarted := .set } := { h with }
    exact hset.setStage (congrArg Stage.hasLeft hstage) rfl rfl
  | spawnPlaced coroutine hstage =>
    have hset : Leaving { pool with tickets := pool.tickets + 1 } := { h with }
    exact hset.setStage (congrArg Stage.hasLeft hstage) rfl rfl
  | take hstage hhandle | subtract hstage hhandle | poll _ hstage hhandle =>
    exact h.setHandle hhandle (.inl rfl) (congrArg Stage.hasLeft hstage) rfl rfl
  | place hstage hhandle =>
    exact h.setHandle hhandle (.inr (.inr rfl)) (congrArg Stage.hasLeft hstage) rfl rfl
  | wake hstage hhandle =>
    exact h.setHandle hhandle (.inr (.inl rfl)) (congrArg Stage.hasLeft hstage) rfl rfl

end Leaving

/-! ### Schedulers of their own -/

namespace Stage

/-- Between two turns, with no fiber at work. -/
def isIdle : Stage Coroutine → Bool
  | .waiting _ | .polled _ | .sweeping => true
  | _ => false

/-- Neither without a thread nor out of its loop nor in a poll. -/
def isBusy : Stage Coroutine → Bool
  | .unstarted | .waiting _ | .stopped | .panicked => false
  | _ => true

end Stage

/-- Every worker's scheduler runs as if it were alone, and publishes the length of its queue. -/
structure Owned (pool : Pool Coroutine) : Prop where
  reaches (worker : Nat) : (pool.workers worker).Reaches
  readyLen (worker : Nat) (handle : WorkerHandle Coroutine) : pool.slots worker = some handle →
    handle.readyLen = (pool.workers worker).scheduler.ready.length
  idle (worker : Nat) : (pool.stages worker).isIdle = true →
    (pool.workers worker).running = none

namespace Owned

theorem setStage (h : Owned pool) {worker : Nat} {stage : Stage Coroutine}
    (hidle : stage.isIdle = true →
      (pool.stages worker).isIdle = true ∨ (pool.workers worker).running = none) :
    Owned (pool.setStage worker stage) := by
  refine { h with idle := fun other hother => ?_ }
  replace hother : (Function.update pool.stages worker stage other).isIdle = true := hother
  rw [Function.update_apply] at hother
  split_ifs at hother with heq
  · rw [heq]
    exact (hidle hother).elim (h.idle worker) id
  · exact h.idle other hother

theorem setHandle (h : Owned pool) {index : Nat} {old handle : WorkerHandle Coroutine}
    (hold : pool.slots index = some old) (hlen : handle.readyLen = old.readyLen) :
    Owned (pool.setHandle index handle) := by
  refine { h with readyLen := fun other found hfound => ?_ }
  replace hfound : Function.update pool.slots index (some handle) other = some found := hfound
  rw [Function.update_apply] at hfound
  split_ifs at hfound with heq
  · obtain rfl := Option.some.inj hfound
    rw [heq, hlen]
    exact h.readyLen index old hold
  · exact h.readyLen other found hfound

theorem moved (h : Owned pool) {worker : Nat} {event : Event Coroutine}
    {handle : WorkerHandle Coroutine} {later : Worker Coroutine} {stage : Stage Coroutine}
    (hstep : (pool.workers worker).step event = some later)
    (hidle : stage.isIdle = true → later.running = none) :
    Owned (pool.moved worker handle later stage) := by
  refine ⟨fun other => ?_, fun other found hfound => ?_, fun other hother => ?_⟩
  · show (Function.update pool.workers worker later other).Reaches
    rw [Function.update_apply]
    split_ifs
    · exact (h.reaches worker).next event trivial hstep
    · exact h.reaches other
  · replace hfound : Function.update pool.slots worker
      (some { handle with readyLen := later.scheduler.ready.length }) other = some found := hfound
    show found.readyLen = (Function.update pool.workers worker later other).scheduler.ready.length
    rw [Function.update_apply] at hfound ⊢
    split_ifs at hfound ⊢
    · exact (Option.some.inj hfound) ▸ rfl
    · exact h.readyLen other found hfound
  · replace hother : (Function.update pool.stages worker stage other).isIdle = true := hother
    show (Function.update pool.workers worker later other).running = none
    rw [Function.update_apply] at hother ⊢
    split_ifs at hother ⊢
    · exact hidle hother
    · exact h.idle other hother

theorem of_moves (h : Owned pool)
    (hmoves : Moves count pool pool') : Owned pool' := by
  cases hmoves with
  | @drive worker event stage handle later hdrives hhandle hstep =>
    refine h.moved hstep fun hidle => ?_
    cases hdrives with
    | work hstage => cases hidle
    | wake hstage =>
      have hrunning := h.idle worker (by rw [hstage]; rfl)
      rw [Worker.step, if_pos (by rw [hrunning]; rfl)] at hstep
      exact (Option.some.inj hstep) ▸ hrunning
    | sweep hstage => cases hidle
  | install hstage hhandle hstep =>
    refine Owned.moved ?_ hstep fun hidle => Bool.noConfusion hidle
    exact { h with }
  | markBackground => exact { h with }
  | @publish worker hstage hnone =>
    refine ⟨fun other => ?_, fun other found hfound => ?_, fun other hother => ?_⟩
    · show (Function.update pool.workers worker .start other).Reaches
      rw [Function.update_apply]
      split_ifs
      · exact .start
      · exact h.reaches other
    · replace hfound : Function.update pool.slots worker (some .new) other = some found := hfound
      show found.readyLen =
        (Function.update pool.workers worker .start other).scheduler.ready.length
      rw [Function.update_apply] at hfound ⊢
      split_ifs at hfound ⊢
      · exact (Option.some.inj hfound) ▸ rfl
      · exact h.readyLen other found hfound
    · replace hother : (Function.update pool.stages worker .published other).isIdle = true := hother
      show (Function.update pool.workers worker .start other).running = none
      rw [Function.update_apply] at hother ⊢
      split_ifs at hother ⊢
      · rfl
      · exact h.idle other hother
  | @startHelpers worker job hstage hlt hunset =>
    refine { h with idle := fun other hother => ?_ }
    replace hother : (Function.update (fun index => if 0 < index ∧ index < count then Stage.starting
      else pool.stages index) worker (.launching job) other).isIdle = true := hother
    rw [Function.update_apply] at hother
    split_ifs at hother
    · cases hother
    · cases hother
    · exact h.idle other hother
  | @turn worker stage hturn =>
    refine h.setStage fun hidle => ?_
    cases hturn with
    | planned hstage hrunning => exact .inr hrunning
    | enter | installed | ensured | readReady | readInbox | chosen | passed | finished =>
      cases hidle
  | arrive hstage =>
    have hsame : Owned { pool with arrivals := pool.arrivals + 1 } := { h with }
    exact hsame.setStage fun hidle => Bool.noConfusion hidle
  | launched hstage hle =>
    have hsame : Owned { pool with helpersStarted := .set } := { h with }
    exact hsame.setStage fun hidle => Bool.noConfusion hidle
  | spawnPlaced coroutine hstage =>
    have hsame : Owned { pool with tickets := pool.tickets + 1 } := { h with }
    exact hsame.setStage fun hidle => Bool.noConfusion hidle
  | @push worker target handle job hstage hhandle =>
    have hsame : Owned { pool with
        queuedOn := Function.update pool.queuedOn target (pool.queuedOn target ++ [job]) } :=
      { h with }
    exact (hsame.setHandle hhandle (by rfl)).setStage fun hidle => Bool.noConfusion hidle
  | shutdown hstage =>
    have hsame : Owned { pool with shutdown := true } := { h with }
    exact hsame.setStage fun hidle => Bool.noConfusion hidle
  | poll tokens hstage hhandle =>
    exact (h.setHandle hhandle (by rfl)).setStage fun _ => .inl (congrArg Stage.isIdle hstage)
  | take hstage hhandle | subtract hstage hhandle | place hstage hhandle | wake hstage hhandle
  | wakeHelper hstage hhandle =>
    exact (h.setHandle hhandle (by rfl)).setStage fun hidle => Bool.noConfusion hidle

end Owned

/-! ### What can always go on -/

/-- A worker that has not come to the barrier is on its way there. -/
theorem Started.behind (h : Started count pool) (hset : pool.helpersStarted ≠ .unset)
    (hlt : pool.arrivals < count) :
    ∃ worker, pool.stages worker = .starting ∨ pool.stages worker = .published := by
  by_contra hnone
  have harrived : ∀ worker ∈ Finset.range count, (pool.stages worker).hasArrived.toNat = 1 := by
    intro worker hworker
    have hstarted := h.spawned hset worker (Finset.mem_range.mp hworker)
    cases hstage : pool.stages worker with
    | unstarted => rw [hstage] at hstarted; cases hstarted
    | starting => exact absurd ⟨worker, .inl hstage⟩ hnone
    | published => exact absurd ⟨worker, .inr hstage⟩ hnone
    | _ => rfl
  have hsum := h.arrivals hset
  rw [Finset.sum_congr rfl harrived, ← Finset.card_eq_sum_ones, Finset.card_range] at hsum
  omega

/-- Something other than the end of a poll can happen. -/
def CanMove (count : Nat) (pool : Pool Coroutine) : Prop :=
  ∃ action, (∀ worker tokens, action ≠ .poll worker tokens) ∧
    (pool.step count action).isSome = true

theorem CanMove.advance (worker : Nat) (h : (pool.advance count worker).isSome = true) :
    CanMove count pool :=
  ⟨.advance worker, fun _ _ heq => (by cases heq), h⟩

theorem canMove_of_behind (h : Started count pool) (hset : pool.helpersStarted ≠ .unset)
    (hlt : pool.arrivals < count) : CanMove count pool := by
  obtain ⟨worker, hstage | hstage⟩ := h.behind hset hlt
  · exact .advance worker (by rw [Pool.advance, hstage]; rfl)
  · exact .advance worker (by rw [Pool.advance, hstage]; rfl)

/-- A worker in `run_ready_queue` goes on: its fiber does, or the next one, or it plans its wait. -/
theorem canMove_of_resuming (h : Owned pool) {worker : Nat}
    (hstage : pool.stages worker = .resuming) : CanMove count pool := by
  have hrepresents := represents_of_reaches (h.reaches worker)
  cases hrunning : (pool.workers worker).running with
  | some fiber =>
    refine ⟨.work worker .finish, fun _ _ heq => (by cases heq), ?_⟩
    rw [Pool.step, hstage]
    simp only [Pool.atWork, hrunning, Option.isSome_some, if_true, Option.isSome_map, Worker.step]
  | none =>
    cases hready : (pool.workers worker).scheduler.ready with
    | nil =>
      refine ⟨.plan worker, fun _ _ heq => (by cases heq), ?_⟩
      rw [Pool.step, hstage]
      simp only [hrunning, hready, Option.isNone_none, List.isEmpty_nil, Bool.and_self, if_true,
        Option.isSome_some]
    | cons id ready =>
      have hid : (pool.workers worker).view id = some .ready := by
        rw [← hrepresents.ready, hready]
        exact List.mem_cons_self
      obtain ⟨coroutine, hcoroutine⟩ := (hrepresents.occupied id).mpr (.inl hid)
      refine ⟨.work worker .resume, fun _ _ heq => (by cases heq), ?_⟩
      rw [Pool.step, hstage]
      simp only [Pool.atWork, if_true, Option.isSome_map, Worker.step, hrunning, Scheduler.popReady,
        hready, hcoroutine, Option.join_some, Option.isSome_some]

/-- No worker is blocked but in its poll. -/
theorem canMove_of_busy (hcount : 0 < count) (hstarted : Started count pool) (howned : Owned pool)
    {worker : Nat} (hbusy : (pool.stages worker).isBusy = true) : CanMove count pool := by
  cases hstage : pool.stages worker with
  | unstarted | waiting | stopped | panicked =>
    rw [hstage] at hbusy
    cases hbusy
  | resuming => exact canMove_of_resuming howned hstage
  | arrived =>
    have hset : pool.helpersStarted ≠ .unset := by
      intro hunset
      have hzero : worker = 0 := by
        by_contra hne
        rw [hstarted.unset hunset worker (Nat.pos_of_ne_zero hne)] at hstage
        cases hstage
      have hleader := hstarted.leader
      rw [← hzero, hstage] at hleader
      cases hleader
    by_cases hle : count ≤ pool.arrivals
    · exact .advance worker (by rw [Pool.advance, hstage]; simp only [hle, if_true]; rfl)
    · exact canMove_of_behind hstarted hset (by omega)
  | launching job =>
    have hset : pool.helpersStarted ≠ .unset := by
      rw [(hstarted.launching worker (by rw [hstage]; rfl)).2]
      exact Once.noConfusion
    by_cases hle : count ≤ pool.arrivals
    · exact .advance worker (by rw [Pool.advance, hstage]; simp only [hle, if_true]; rfl)
    · exact canMove_of_behind hstarted hset (by omega)
  | ensuring job =>
    by_cases hone : count ≤ 1
    · exact .advance worker (by rw [Pool.advance, hstage]; simp only [hone, if_true]; rfl)
    · cases hhelpers : pool.helpersStarted with
      | unset | set =>
        exact .advance worker (by
          rw [Pool.advance, hstage]
          simp only [hone, if_false, hhelpers]
          rfl)
      | running =>
        -- The leader starts the helpers: it goes on, or one of them does.
        have hlauncher := hstarted.launcher hhelpers
        by_cases hle : count ≤ pool.arrivals
        · cases hleader : pool.stages 0 <;> rw [hleader] at hlauncher <;> try cases hlauncher
          exact .advance 0
            (by rw [Pool.advance, hleader]; simp only [hle, if_true]; rfl)
        · exact canMove_of_behind hstarted (by rw [hhelpers]; exact Once.noConfusion) (by omega)
  | choosing job lens readyLen =>
    cases readyLen with
    | some readyLen => exact .advance worker (by rw [Pool.advance, hstage]; rfl)
    | none =>
      by_cases hlt : lens.length < count
      · exact .advance worker (by rw [Pool.advance, hstage]; simp only [hlt, if_true]; rfl)
      · have hne : lens ≠ [] := by
          rintro rfl
          exact hlt hcount
        exact .advance worker (by
          rw [Pool.advance, hstage]
          simp only [hlt, if_false, Option.isSome_map, shortestQueue_isSome hne])
  | installing jobs =>
    cases jobs with
    | nil => exact .advance worker (by rw [Pool.advance, hstage]; rfl)
    | cons job jobs => exact .advance worker (by rw [Pool.advance, hstage]; rfl)
  | polled tokens =>
    have hidle := howned.idle worker (by rw [hstage]; rfl)
    exact .advance worker (by
      rw [Pool.advance, hstage]
      simp only [Worker.step, hidle, Option.isNone_none, if_true, Option.map_some,
        Option.isSome_some])
  | sweeping =>
    have hidle := howned.idle worker (by rw [hstage]; rfl)
    refine ⟨.sweep worker 0, fun _ _ heq => (by cases heq), ?_⟩
    rw [Pool.step, hstage]
    simp only [Worker.step, hidle, Option.isNone_none, if_true, Option.map_some, Option.isSome_some]
  | shuttingDown next =>
    refine .advance worker ?_
    rw [Pool.advance, hstage]
    by_cases hlt : next < count
    · simp only [hlt, if_true]
      cases pool.slots next <;> rfl
    · simp only [hlt, if_false]
      rfl
  | starting | published | draining | drained | placing | counted | queued | leaving =>
    exact .advance worker (by rw [Pool.advance, hstage]; rfl)

/-! ### Whole runs -/

structure Sound (count : Nat) (pool : Pool Coroutine) : Prop where
  started : Started count pool
  delivered : Delivered count pool
  ticketed : Ticketed count pool
  alert : Alert pool
  leaving : Leaving pool
  owned : Owned pool

theorem sound_start (hcount : 0 < count) (main : Coroutine) :
    Sound count (Pool.start main) := by
  have hstages : ∀ worker, (Pool.start main).stages worker =
      if worker = 0 then .draining else .unstarted :=
    Function.update_apply (fun _ => Stage.unstarted) 0 .draining
  have hslots : ∀ worker, (Pool.start main).slots worker =
      if worker = 0 then some { WorkerHandle.new with readyLen := 1 } else none :=
    Function.update_apply (fun _ => none) 0 (some { WorkerHandle.new with readyLen := 1 })
  have hworkers : ∀ worker, (Pool.start main).workers worker =
      if worker = 0 then { Worker.start with scheduler := Scheduler.new.installFiber main }
      else .start :=
    Function.update_apply (fun _ => Worker.start) 0
      { Worker.start with scheduler := Scheduler.new.installFiber main }
  have hnobody : ∀ worker, ((Pool.start main).stages worker).onWayTo = none ∧
      ((Pool.start main).stages worker).inHand = [] := by
    intro worker
    rw [hstages]
    split_ifs <;> exact ⟨rfl, rfl⟩
  refine ⟨?_, ?_, ?_, ?_, ?_, ?_⟩
  · refine ⟨fun worker hle => ?_, fun worker => ?_, ?_, fun _ worker hpos => ?_,
      fun hset => absurd rfl hset, fun _ => rfl, Once.noConfusion, fun worker => ?_,
      fun worker => ?_, fun worker => ?_, fun worker => ?_, fun hset => absurd rfl hset,
      Once.noConfusion, fun worker => ?_⟩
    · rw [hstages, if_neg (by omega)]
    · rw [hslots, hstages]
      split_ifs <;> rfl
    · rw [hstages]
      rfl
    · rw [hstages, if_neg hpos.ne']
    all_goals rw [hstages]
    · split_ifs <;> exact fun hplacing => by cases hplacing
    · split_ifs <;> exact fun _ _ _ heq => by cases heq
    · split_ifs <;> exact fun _ htarget => by cases htarget
    · split_ifs <;> rfl
    · split_ifs <;> exact fun hlaunching => by cases hlaunching
  · refine ⟨fun worker handle hhandle => ?_, fun worker _ => ⟨rfl, rfl⟩,
      fun worker handle hhandle => ?_⟩
    · rw [hslots, Option.ite_none_right_eq_some] at hhandle
      obtain ⟨rfl, hhandle⟩ := hhandle
      obtain rfl := Option.some.inj hhandle
      rfl
    · rw [hslots, Option.ite_none_right_eq_some] at hhandle
      obtain ⟨rfl, hhandle⟩ := hhandle
      obtain rfl := Option.some.inj hhandle
      have hnone : ∀ other ∈ Finset.range count,
          (if ((Pool.start main).stages other).onWayTo = some 0 then 1 else 0) = 0 := by
        intro other _
        rw [(hnobody other).1]
        rfl
      rw [Finset.sum_eq_zero hnone, hstages]
      rfl
  · intro ticket
    simp only [(hnobody _).2]
    show _ = if ticket < 0 then 1 else 0
    rw [if_neg (Nat.not_lt_zero ticket)]
    have hzero : ∑ worker ∈ Finset.range count,
        occurrences ticket ([] : List (Job Coroutine)) = 0 :=
      Finset.sum_eq_zero fun _ _ => rfl
    exact congrArg₂ (· + ·) hzero hzero
  · intro worker handle hhandle hne
    rw [hslots, Option.ite_none_right_eq_some] at hhandle
    obtain ⟨rfl, hhandle⟩ := hhandle
    obtain rfl := Option.some.inj hhandle
    exact absurd rfl hne
  · refine ⟨⟨Bool.noConfusion, fun hleft => ?_⟩, fun worker next => ?_, fun worker hpos => ?_,
      fun worker handle hshutdown => Bool.noConfusion hshutdown⟩
    · obtain ⟨next, hnext⟩ | hstopped := hleft
      · cases hnext
      · cases hstopped
    · rw [hstages]
      split_ifs <;> rintro (hleaving | hshutting) <;> contradiction
    · rw [hstages, if_neg hpos.ne']
      exact fun hstopped => by cases hstopped
  · refine ⟨fun worker => ?_, fun worker handle hhandle => ?_, fun worker hidle => ?_⟩
    · rw [hworkers]
      split_ifs
      · exact .next (.spawn main) .start trivial rfl
      · exact .start
    · rw [hslots, Option.ite_none_right_eq_some] at hhandle
      obtain ⟨rfl, hhandle⟩ := hhandle
      obtain rfl := Option.some.inj hhandle
      rfl
    · rw [hworkers]
      split_ifs <;> rfl

theorem sound_of_reaches (hcount : 0 < count) {main : Coroutine}
    (h : Pool.Reaches count main pool) : Sound count pool := by
  refine Run.invariant (sound_start hcount main) (fun action pool pool' hsound _ hstep => ?_) h
  have hmoves := moves_of_step hsound.started hstep
  exact {
    started := hsound.started.of_moves hmoves
    delivered := hsound.delivered.of_moves hsound.started hmoves
    ticketed := hsound.ticketed.of_moves hsound.started hmoves
    alert := hsound.alert.of_moves hsound.started hmoves
    leaving := hsound.leaving.of_moves hsound.started hmoves
    owned := hsound.owned.of_moves hmoves }

def Pool.inbox (pool : Pool Coroutine) (worker : Nat) : List (Job Coroutine) :=
  ((pool.slots worker).map WorkerHandle.inbox).getD []

theorem Sound.queuedOn_eq (h : Sound count pool) (worker : Nat) :
    pool.queuedOn worker =
      pool.installedOn worker ++ (pool.stages worker).taken ++ pool.inbox worker := by
  cases hslot : pool.slots worker with
  | some handle =>
    rw [Pool.inbox, hslot]
    exact h.delivered.fifo worker handle hslot
  | none =>
    obtain ⟨hqueued, hinstalled⟩ := h.delivered.unpublished worker hslot
    have hstage := h.started.published worker
    rw [hslot] at hstage
    rw [Pool.inbox, hslot, hqueued, hinstalled]
    cases hworker : pool.stages worker <;> first | rfl | (rw [hworker] at hstage; cases hstage)

/-! ### Two launches on two workers -/

/-- The leader's fiber starts the helper, places one fiber on each of the two, and waits. -/
def twoLaunches : List (Action Unit) :=
  [.advance 0, .advance 0, .advance 0, .work 0 .resume, .spawnPlaced 0 (), .advance 0, .advance 1,
    .advance 1, .advance 0, .advance 0, .advance 0, .advance 0, .advance 0, .advance 0, .advance 0,
    .advance 0, .advance 0, .spawnPlaced 0 (), .advance 0, .advance 0, .advance 0, .advance 0,
    .advance 0, .advance 0, .advance 0, .advance 0, .advance 0, .work 0 .register,
    .work 0 (.park (.readiness 0) ()), .plan 0, .poll 0 [], .advance 0, .sweep 0 0, .advance 0,
    .advance 0, .advance 0, .advance 0, .work 0 .resume, .work 0 .finish, .plan 0, .advance 1,
    .advance 1, .advance 1, .advance 1, .advance 1, .work 1 .resume, .work 1 .finish, .plan 1,
    .poll 1 [], .advance 1, .sweep 1 0, .advance 1, .advance 1, .advance 1, .plan 1]

def afterTwoLaunches : Option (Pool Unit) :=
  follow (Pool.step 2) (fun _ _ => true) twoLaunches (Pool.start ())

theorem afterTwoLaunches_isSome : afterTwoLaunches.isSome = true := by decide +kernel

theorem afterTwoLaunches_stages :
    afterTwoLaunches.map (fun pool => (pool.stages 0, pool.stages 1)) =
      some (.waiting (some none), .waiting none) := by decide +kernel

theorem afterTwoLaunches_slots :
    afterTwoLaunches.map (fun pool => (pool.slots 0, pool.slots 1)) =
      some (some .new, some .new) := by decide +kernel

theorem afterTwoLaunches_installed :
    afterTwoLaunches.map (fun pool => (pool.tickets, pool.installedOn 0, pool.installedOn 1)) =
      some (2, [⟨0, ()⟩], [⟨1, ()⟩]) := by decide +kernel

theorem reaches_twoLaunches : ∃ pool : Pool Unit, afterTwoLaunches = some pool ∧
    Pool.Reaches 2 () pool := by
  obtain ⟨pool, hpool⟩ := Option.isSome_iff_exists.mp afterTwoLaunches_isSome
  exact ⟨pool, hpool, Run.of_follow (fun _ _ _ => trivial) .start hpool⟩

/-- However the threads interleave, no slot is read before it is published, every placement is in
one place, each worker installs what was queued on it in that order, and the lengths the placements
compare are those of the queues. -/
theorem placed_once (hcount : 0 < count) (main : Coroutine) (pool : Pool Coroutine)
    (h : Pool.Reaches count main pool) :
    (∀ worker, pool.stages worker ≠ .panicked) ∧
      (∀ ticket, ∑ worker ∈ Finset.range count,
        (occurrences ticket (pool.stages worker).inHand + occurrences ticket (pool.inbox worker) +
          occurrences ticket (pool.stages worker).taken +
            occurrences ticket (pool.installedOn worker)) =
        if ticket < pool.tickets then 1 else 0) ∧
      (∀ worker, pool.queuedOn worker =
        pool.installedOn worker ++ (pool.stages worker).taken ++ pool.inbox worker) ∧
      (∀ worker handle, pool.slots worker = some handle →
        handle.inboxLen = handle.inbox.length + (pool.stages worker).uncounted +
          ∑ other ∈ Finset.range count,
            (if (pool.stages other).onWayTo = some worker then 1 else 0) ∧
        handle.readyLen = (pool.workers worker).scheduler.ready.length) ∧
      ∀ worker, (pool.workers worker).Reaches := by
  have hsound := sound_of_reaches hcount h
  refine ⟨fun worker hpanicked => ?_, fun ticket => ?_, hsound.queuedOn_eq,
    fun worker handle hhandle => ⟨hsound.delivered.inboxLen worker handle hhandle,
      hsound.owned.readyLen worker handle hhandle⟩, hsound.owned.reaches⟩
  · have hrunning := hsound.started.running worker
    rw [hpanicked] at hrunning
    cases hrunning
  · rw [← hsound.ticketed ticket, ← Finset.sum_add_distrib]
    refine Finset.sum_congr rfl fun worker _ => ?_
    rw [hsound.queuedOn_eq worker, occurrences_append, occurrences_append]
    omega

theorem placed_once_twoLaunches : ∃ pool : Pool Unit, 0 < 2 ∧ Pool.Reaches 2 () pool ∧
    pool.installedOn 0 = [⟨0, ()⟩] ∧ pool.installedOn 1 = [⟨1, ()⟩] ∧
    ∀ ticket, ∑ worker ∈ Finset.range 2,
      (occurrences ticket (pool.stages worker).inHand + occurrences ticket (pool.inbox worker) +
        occurrences ticket (pool.stages worker).taken +
          occurrences ticket (pool.installedOn worker)) =
      if ticket < pool.tickets then 1 else 0 := by
  obtain ⟨pool, hpool, hreaches⟩ := reaches_twoLaunches
  have hinstalled := afterTwoLaunches_installed
  rw [hpool] at hinstalled
  obtain ⟨-, hzero, hone⟩ : pool.tickets = 2 ∧ pool.installedOn 0 = [⟨0, ()⟩] ∧
      pool.installedOn 1 = [⟨1, ()⟩] := by
    simpa using hinstalled
  exact ⟨pool, by decide, hreaches, hzero, hone,
    (placed_once (by decide) () pool hreaches).2.1⟩

/-- Nothing can happen any more but the end of a poll that nobody woke. -/
def Stuck (count : Nat) (pool : Pool Coroutine) : Prop :=
  ∀ action pool', pool.step count action = some pool' →
    ∃ worker tokens handle, action = .poll worker tokens ∧ pool.slots worker = some handle ∧
      handle.woken = false

theorem stuck_of_asleep (h : ∀ worker, pool.stages worker = .unstarted ∨
    pool.stages worker = .stopped ∨ ∃ plan handle, pool.stages worker = .waiting plan ∧
      pool.slots worker = some handle ∧ handle.woken = false) : Stuck count pool := by
  intro action pool' hstep
  cases action with
  | advance worker =>
    rw [Pool.step, Pool.advance] at hstep
    obtain hstage | hstage | ⟨plan, handle, hstage, -⟩ := h worker
    all_goals
      rw [hstage] at hstep
      cases hstep
  | poll worker tokens =>
    rw [Pool.step] at hstep
    obtain hstage | hstage | ⟨plan, handle, hstage, hhandle, hwoken⟩ := h worker
    · rw [hstage] at hstep
      cases hstep
    · rw [hstage] at hstep
      cases hstep
    · exact ⟨worker, tokens, handle, rfl, hhandle, hwoken⟩
  | work worker | markBackground worker | spawnPlaced worker | plan worker | sweep worker =>
    rw [Pool.step] at hstep
    obtain hstage | hstage | ⟨plan, handle, hstage, -⟩ := h worker
    all_goals
      rw [hstage] at hstep
      cases hstep

/-- When nothing can happen any more, every placed fiber is on the worker it was placed on, unless
that worker has stopped; and no helper sleeps through the end of the run. -/
theorem no_wake_lost (hcount : 0 < count) (main : Coroutine) (pool : Pool Coroutine)
    (h : Pool.Reaches count main pool) (hstuck : Stuck count pool) :
    (∀ ticket < pool.tickets, ∃ worker < count, ∃ job ∈ pool.queuedOn worker,
      job.ticket = ticket) ∧
      (∀ worker, pool.stages worker ≠ .stopped →
        pool.installedOn worker = pool.queuedOn worker ∧
          ∀ handle, pool.slots worker = some handle → handle.inboxLen = 0) ∧
      (pool.stages 0 = .stopped → ∀ worker, pool.stages worker = .unstarted ∨
        pool.stages worker = .stopped ∨
          ∃ timeout, pool.stages worker = .waiting (some timeout)) := by
  have hsound := sound_of_reaches hcount h
  have hquiet : ∀ worker, (pool.stages worker).isBusy = false := by
    intro worker
    by_contra hbusy
    obtain ⟨action, hpoll, hmove⟩ :=
      canMove_of_busy hcount hsound.started hsound.owned (Bool.eq_true_of_not_eq_false hbusy)
    obtain ⟨pool', hstep⟩ := Option.isSome_iff_exists.mp hmove
    obtain ⟨other, tokens, -, rfl, -⟩ := hstuck action pool' hstep
    exact hpoll other tokens rfl
  have hasleep : ∀ worker plan handle, pool.stages worker = .waiting plan →
      pool.slots worker = some handle → handle.woken = false := by
    intro worker plan handle hstage hhandle
    have hstep : pool.step count (.poll worker []) = some ((pool.setHandle worker
        { handle with woken := false }).setStage worker (.polled [])) := by
      rw [Pool.step, hstage]
      exact congrArg some (withHandle_eq hhandle _)
    obtain ⟨other, tokens, found, heq, hfound, hwoken⟩ := hstuck _ _ hstep
    obtain ⟨rfl, rfl⟩ := Action.poll.inj heq
    rw [hhandle] at hfound
    exact (Option.some.inj hfound) ▸ hwoken
  have hidle : ∀ worker, (pool.stages worker).inHand = [] ∧ (pool.stages worker).taken = [] ∧
      (pool.stages worker).uncounted = 0 ∧ (pool.stages worker).onWayTo = none ∧
        (pool.stages worker).willDrain = false := by
    intro worker
    have hworker := hquiet worker
    cases hstage : pool.stages worker <;> first
      | exact ⟨rfl, rfl, rfl, rfl, rfl⟩
      | (rw [hstage] at hworker; cases hworker)
  refine ⟨fun ticket hticket => ?_, fun worker hrunning => ?_, fun hleader worker => ?_⟩
  · -- No placement is under way, so the one place of the ticket is a queue.
    have hone := hsound.ticketed ticket
    rw [if_pos hticket, Finset.sum_eq_zero fun worker _ => ?_, Nat.zero_add] at hone
    · obtain ⟨worker, hworker, hpos⟩ := Finset.exists_ne_zero_of_sum_ne_zero
        (by rw [hone]; exact Nat.one_ne_zero)
      obtain ⟨job, hjob, hsame⟩ := List.countP_pos_iff.mp (Nat.pos_of_ne_zero hpos)
      exact ⟨worker, Finset.mem_range.mp hworker, job, hjob, beq_iff_eq.mp hsame⟩
    · rw [(hidle worker).1]
      rfl
  · have hinbox : pool.inbox worker = [] := by
      cases hslot : pool.slots worker with
      | none =>
        rw [Pool.inbox, hslot]
        rfl
      | some handle =>
        rw [Pool.inbox, hslot]
        by_contra hne
        obtain hwoken | ⟨other, hqueued⟩ | hdrain := hsound.alert worker handle hslot hne
        · -- Only a poll keeps a wake waiting.
          obtain ⟨plan, hplan⟩ : ∃ plan, pool.stages worker = .waiting plan := by
            have hworker := hquiet worker
            have hpublished := hsound.started.published worker
            have hpanics := hsound.started.running worker
            rw [hslot] at hpublished
            cases hstage : pool.stages worker <;> rw [hstage] at hworker hpublished hpanics <;>
              first
              | exact ⟨_, rfl⟩
              | exact absurd hstage hrunning
              | exact Bool.noConfusion hworker
              | exact Bool.noConfusion hpublished
              | exact Bool.noConfusion hpanics
          rw [hasleep worker plan handle hplan hslot] at hwoken
          cases hwoken
        · have hother := hquiet other
          rw [hqueued] at hother
          cases hother
        · rw [(hidle worker).2.2.2.2] at hdrain
          cases hdrain
    refine ⟨?_, fun handle hhandle => ?_⟩
    · rw [hsound.queuedOn_eq worker, (hidle worker).2.1, hinbox, List.append_nil, List.append_nil]
    · have hlen := hsound.delivered.inboxLen worker handle hhandle
      rw [Pool.inbox, hhandle] at hinbox
      have hempty : handle.inbox = [] := hinbox
      rw [hempty, (hidle worker).2.2.1, Finset.sum_eq_zero fun other _ => ?_] at hlen
      · exact hlen
      · rw [(hidle other).2.2.2.1]
        rfl
  · have hworker := hquiet worker
    have hpanics := hsound.started.running worker
    cases hstage : pool.stages worker with
    | unstarted => exact .inl rfl
    | stopped => exact .inr (.inl rfl)
    | waiting plan =>
      cases plan with
      | some timeout => exact .inr (.inr ⟨timeout, rfl⟩)
      | none =>
        obtain ⟨handle, hhandle⟩ := hsound.started.own worker (by rw [hstage]; rfl)
        obtain hwoken | ⟨next, -, hnext⟩ := hsound.leaving.awake worker handle
          (hsound.leaving.asked.mpr (.inr hleader)) hstage hhandle
        · rw [hasleep worker none handle hstage hhandle] at hwoken
          cases hwoken
        · rw [hleader] at hnext
          cases hnext
    | _ =>
      rw [hstage] at hworker hpanics
      first
      | exact Bool.noConfusion hworker
      | exact Bool.noConfusion hpanics

theorem no_wake_lost_twoLaunches : ∃ pool : Pool Unit, 0 < 2 ∧ Pool.Reaches 2 () pool ∧
    Stuck 2 pool ∧ pool.tickets = 2 ∧
    (∀ ticket < pool.tickets, ∃ worker < 2, ∃ job ∈ pool.queuedOn worker, job.ticket = ticket) ∧
    pool.installedOn 1 = pool.queuedOn 1 := by
  obtain ⟨pool, hpool, hreaches⟩ := reaches_twoLaunches
  have hstages := afterTwoLaunches_stages
  have hslots := afterTwoLaunches_slots
  have hinstalled := afterTwoLaunches_installed
  rw [hpool] at hstages hslots hinstalled
  obtain ⟨hleader, hhelper⟩ : pool.stages 0 = .waiting (some none) ∧
      pool.stages 1 = .waiting none := by
    simpa using hstages
  obtain ⟨hzero, hone⟩ : pool.slots 0 = some .new ∧ pool.slots 1 = some .new := by
    simpa using hslots
  have htickets : pool.tickets = 2 := by
    simpa using congrArg (Option.map Prod.fst) hinstalled
  have hbeyond := (sound_of_reaches (by decide) hreaches).started.beyond
  have hstuck : Stuck 2 pool := by
    refine stuck_of_asleep fun worker => ?_
    obtain rfl | rfl | hle : worker = 0 ∨ worker = 1 ∨ 2 ≤ worker := by omega
    · exact .inr (.inr ⟨some none, .new, hleader, hzero, rfl⟩)
    · exact .inr (.inr ⟨none, .new, hhelper, hone, rfl⟩)
    · exact .inl (hbeyond worker hle)
  have hlost := no_wake_lost (by decide) () pool hreaches hstuck
  exact ⟨pool, by decide, hreaches, hstuck, htickets, hlost.1,
    (hlost.2.1 1 (by rw [hhelper]; exact fun hstopped => by cases hstopped)).1⟩

end Quilon.Runtime.Placement
