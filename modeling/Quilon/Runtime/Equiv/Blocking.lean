import Quilon.Library.Counting
import Quilon.Runtime.Blocking
import Mathlib.Tactic.Common

/-!
# What the blocking pool promises

Every job is run once, whatever the order of the steps, and the counters stay between the base and
the ceiling.  That the pool has a thread for every job in flight rests on two moments: the decision to
grow, which counts a thread that has already found the queue empty, and the look of an overflow
thread, which does not see a job that is counted and not yet in the queue.

Main results:

* `Balanced.step` — what the counters stand for;
* `Enough.step` — in an undisturbed run, a thread for every job in flight;
* `sound_of_undisturbed` — what the pool promises, in every state of an undisturbed run;
* `stranded_job` — a job that no thread below the ceiling is there for.
-/

namespace Quilon.Runtime

namespace BlockingPool

/-- A thread that has not seen the queue empty on its way out. -/
def Thread.willing (thread : Thread) : Bool :=
  thread.stage ≠ .exiting && thread.stage ≠ .gone

/-- A thread whose job is counted in flight. -/
def Thread.busy (thread : Thread) : Bool :=
  match thread.stage with
  | .running _ | .finished => true
  | .looking | .waiting | .exiting | .gone => false

/-- A call that will still create a thread, which is counted. -/
def Submission.promised (submission : Submission) : Bool :=
  submission.grow && (submission.stage = .counted || submission.stage = .pushed ||
    submission.stage = .notified)

/-- The threads that will still take a job. -/
def willing (pool : BlockingPool) : Nat :=
  pool.threads.countP Thread.willing + pool.submissions.countP Submission.promised

/-- The threads that have found the queue empty and are counted. -/
def exiting (pool : BlockingPool) : Nat :=
  pool.threads.countP fun thread => thread.stage = .exiting

/-- The calls whose job is counted and not yet in the queue. -/
def unqueued (pool : BlockingPool) : Nat :=
  pool.submissions.countP fun submission => submission.stage = .counted

/-- Whether the call `job` has still to queue its job. -/
def isUnqueued (pool : BlockingPool) (job : Nat) : Bool :=
  pool.submissions[job]?.any fun submission => submission.stage = .counted

/-- What the pool promises.  A job is run `once`; while it waits in the queue, somebody is about to
look there, or all base threads are in jobs.  A counter is positive where a step takes from it. -/
structure Sound (pool : BlockingPool) (base : Nat) : Prop where
  once : ∀ job, job < pool.submissions.length →
    (pool.isUnqueued job).toNat + pool.queue.count job + pool.started.count job = 1
  submitted : ∀ job ∈ pool.started, job < pool.submissions.length
  served : pool.queue ≠ [] → (∃ thread ∈ pool.threads, thread.stage = .looking) ∨
    (∃ submission ∈ pool.submissions, submission.stage = .pushed) ∨
      ∀ thread ∈ pool.threads, thread.isBase = true → thread.busy = true
  bounded : base ≤ pool.totalThreads ∧ pool.totalThreads ≤ ceiling
  uncounts : (∃ thread ∈ pool.threads, thread.stage = .finished) → 0 < pool.inFlight
  leaves : ((∃ thread ∈ pool.threads, thread.stage = .exiting) ∨
    ∃ submission ∈ pool.submissions, submission.stage = .refused) → base < pool.totalThreads
  enough : pool.refused = false → pool.totalThreads < ceiling → pool.inFlight ≤ pool.willing

/-- Whether the step keeps out of the two windows: a call that does not grow the pool, while a
thread that found the queue empty is still counted, needs a thread to spare; and so does an overflow thread
that finds the queue empty while a counted job is not yet in it. -/
def undisturbed (event : Event) (pool : BlockingPool) : Bool :=
  match event with
  | .submit =>
    pool.exiting = 0 || pool.inFlight < pool.willing ||
      (pool.totalThreads ≤ pool.inFlight && pool.totalThreads < ceiling)
  | .look index =>
    match pool.threads[index]? with
    | some thread =>
      thread.isBase || !pool.queue.isEmpty || pool.unqueued = 0 || pool.inFlight < pool.willing
    | none => true
  | _ => true

/-! ### What the counters stand for -/

structure Balanced (pool : BlockingPool) (base : Nat) : Prop where
  total : pool.totalThreads = pool.willing + pool.exiting +
    pool.submissions.countP fun submission => submission.stage = .refused
  inFlight : pool.inFlight = pool.queue.length + pool.unqueued + pool.threads.countP Thread.busy
  bases : pool.threads.countP Thread.isBase = base
  staying : ∀ thread ∈ pool.threads, thread.isBase = true → thread.willing = true
  ceiling : pool.totalThreads ≤ BlockingPool.ceiling
  granted : pool.refused = false → ∀ submission ∈ pool.submissions, submission.stage ≠ .refused
  growing : ∀ submission ∈ pool.submissions, submission.stage = .notified → submission.grow = true

variable {pool pool' : BlockingPool} {base : Nat}

@[simp] theorem setThread_totalThreads (index : Nat) (thread : Thread) :
    (pool.setThread index thread).totalThreads = pool.totalThreads := rfl

@[simp] theorem setThread_inFlight (index : Nat) (thread : Thread) :
    (pool.setThread index thread).inFlight = pool.inFlight := rfl

@[simp] theorem setThread_queue (index : Nat) (thread : Thread) :
    (pool.setThread index thread).queue = pool.queue := rfl

@[simp] theorem setThread_submissions (index : Nat) (thread : Thread) :
    (pool.setThread index thread).submissions = pool.submissions := rfl

@[simp] theorem setSubmission_totalThreads (index : Nat) (submission : Submission) :
    (pool.setSubmission index submission).totalThreads = pool.totalThreads := rfl

@[simp] theorem setSubmission_queue (index : Nat) (submission : Submission) :
    (pool.setSubmission index submission).queue = pool.queue := rfl

@[simp] theorem setSubmission_threads (index : Nat) (submission : Submission) :
    (pool.setSubmission index submission).threads = pool.threads := rfl

@[simp] theorem setSubmission_refused (index : Nat) (submission : Submission) :
    (pool.setSubmission index submission).refused = pool.refused := rfl

theorem baseSize_le_ceiling (cpuCount : Nat) : baseSize cpuCount ≤ BlockingPool.ceiling := by
  unfold baseSize baseMinimum BlockingPool.ceiling
  omega

theorem Balanced.spawnBaseWorker (h : pool.Balanced base)
    (hroom : pool.totalThreads < BlockingPool.ceiling) :
    pool.spawnBaseWorker.Balanced (base + 1) := by
  have htotal := h.total
  have hinFlight := h.inFlight
  have hbases := h.bases
  refine ⟨?_, ?_, ?_, ?_, ?_, h.granted, h.growing⟩
  all_goals
    simp only [BlockingPool.spawnBaseWorker, willing, exiting, unqueued, countP_concat] at *
  · simp [Thread.willing]
    omega
  · simp [Thread.busy]
    omega
  · simp
    omega
  · intro thread hthread hbase
    rcases List.mem_append.mp hthread with hthread | hthread
    · exact h.staying thread hthread hbase
    · rw [List.mem_singleton] at hthread
      subst hthread
      rfl
  · omega

theorem Balanced.start (cpuCount : Nat) : (start cpuCount).Balanced (baseSize cpuCount) := by
  have h : ∀ baseSize, baseSize ≤ BlockingPool.ceiling →
      (startBlockingPool baseSize).Balanced baseSize ∧
        (startBlockingPool baseSize).totalThreads = baseSize := by
    intro baseSize hbase
    induction baseSize with
    | zero =>
      refine ⟨?_, rfl⟩
      constructor <;> simp [startBlockingPool, empty, willing, exiting, unqueued]
    | succ baseSize ih =>
      obtain ⟨hbalanced, htotal⟩ := ih (Nat.le_of_succ_le hbase)
      refine ⟨hbalanced.spawnBaseWorker ?_, congrArg (· + 1) htotal⟩
      rw [htotal]
      exact hbase
  exact (h _ (baseSize_le_ceiling cpuCount)).1

theorem Balanced.submit (h : pool.Balanced base) : pool.submit.Balanced base := by
  have htotal := h.total
  have hinFlight := h.inFlight
  have hceiling := h.ceiling
  have hgranted := h.granted
  refine ⟨?_, ?_, h.bases, h.staying, ?_, ?_, ?_⟩
  all_goals
    simp only [BlockingPool.submit, willing, exiting, unqueued, countP_concat] at *
  · split <;> simp_all [Submission.promised] <;> omega
  · simp
    omega
  · split <;> simp_all <;> omega
  · intro hrefused submission hsubmission
    rcases List.mem_append.mp hsubmission with hsubmission | hsubmission
    · exact hgranted hrefused submission hsubmission
    · rw [List.mem_singleton] at hsubmission
      subst hsubmission
      simp
  · intro submission hsubmission hstage
    rcases List.mem_append.mp hsubmission with hsubmission | hsubmission
    · exact h.growing submission hsubmission hstage
    · rw [List.mem_singleton] at hsubmission
      subst hsubmission
      cases hstage

/-- A thread goes on at `stage`; the counters and the queue change by what it is counted for. -/
theorem Balanced.setThread (h : pool.Balanced base) {index : Nat} {thread : Thread}
    (hthread : pool.threads[index]? = some thread) (stage : Stage)
    {totalThreads inFlight : Nat} {queue started : List Nat}
    (hstaying : thread.isBase = true → Thread.willing { thread with stage := stage } = true)
    (htotal : totalThreads + (thread.willing.toNat + (decide (thread.stage = .exiting)).toNat) =
      pool.totalThreads + ((Thread.willing { thread with stage := stage }).toNat +
        (decide (stage = .exiting)).toNat))
    (hle : totalThreads ≤ pool.totalThreads)
    (hinFlight : inFlight + (thread.busy.toNat + pool.queue.length) =
      pool.inFlight + ((Thread.busy { thread with stage := stage }).toNat + queue.length)) :
    Balanced { pool.setThread index { thread with stage := stage } with
      totalThreads := totalThreads, inFlight := inFlight, queue := queue, started := started }
      base := by
  have holdTotal := h.total
  have holdInFlight := h.inFlight
  have holdBases := h.bases
  have hset := fun p => countP_set_add p hthread { thread with stage := stage }
  have hwilling := hset Thread.willing
  have hexiting := hset fun thread => thread.stage = .exiting
  have hbusy := hset Thread.busy
  have hbases := hset Thread.isBase
  refine ⟨?_, ?_, ?_, ?_, Nat.le_trans hle h.ceiling, h.granted, h.growing⟩
  all_goals simp only [BlockingPool.setThread, willing, exiting, unqueued] at *
  · omega
  · omega
  · omega
  · intro other hother
    rcases List.mem_or_eq_of_mem_set hother with hother | rfl
    · exact h.staying other hother
    · exact hstaying

theorem Balanced.stepThread (h : pool.Balanced base) {event : Event} {index : Nat} {thread : Thread}
    (hthread : pool.threads[index]? = some thread)
    (hstep : pool.stepThread event index thread = some pool') : pool'.Balanced base := by
  have hmem := List.mem_of_getElem? hthread
  have htotal := h.total
  have hinFlight := h.inFlight
  have hstaying := h.staying thread hmem
  have hpos := fun p => pos_countP_of_getElem? (p := p) hthread
  unfold BlockingPool.stepThread at hstep
  split at hstep
  · rename_i hstage
    split at hstep
    · rename_i job queue hqueue
      cases hstep
      refine h.setThread hthread (.running job) ?_ ?_ (Nat.le_refl _) ?_
      all_goals simp [Thread.willing, Thread.busy, hstage, hqueue]
      omega
    · cases hstep
      refine h.setThread hthread _ ?_ ?_ (Nat.le_refl _) ?_
      all_goals split <;> simp_all [Thread.willing, Thread.busy]
  · cases hstep
    refine h.setThread hthread .looking ?_ ?_ (Nat.le_refl _) ?_
    all_goals simp_all [Thread.willing, Thread.busy]
  · cases hstep
    refine h.setThread hthread .finished ?_ ?_ (Nat.le_refl _) ?_
    all_goals simp_all [Thread.willing, Thread.busy]
  · rename_i hstage
    cases hstep
    have hpos := hpos Thread.busy (by simp [Thread.busy, hstage])
    refine h.setThread hthread .looking ?_ ?_ (Nat.le_refl _) ?_
    · simp [Thread.willing]
    · simp [Thread.willing, hstage]
    · simp [Thread.busy, hstage]
      omega
  · rename_i hstage
    cases hstep
    have hpos := hpos (fun thread => thread.stage = .exiting) (by simp [hstage])
    refine h.setThread hthread .gone ?_ ?_ (Nat.sub_le ..) ?_
    · simp_all [Thread.willing]
    · simp [Thread.willing, hstage]
      unfold exiting at htotal
      omega
    · simp [Thread.busy, hstage]
  · cases hstep

/-- A call goes on at `stage`; the counters change by what it is counted for. -/
theorem Balanced.setSubmission (h : pool.Balanced base) {index : Nat} {submission : Submission}
    (hsubmission : pool.submissions[index]? = some submission) (stage : Submitting)
    {totalThreads : Nat} {queue : List Nat} {refused : Bool}
    (htotal : totalThreads + (submission.promised.toNat +
        (decide (submission.stage = .refused)).toNat) =
      pool.totalThreads + ((Submission.promised { submission with stage := stage }).toNat +
        (decide (stage = .refused)).toNat))
    (hle : totalThreads ≤ pool.totalThreads)
    (hinFlight : (decide (submission.stage = .counted)).toNat + pool.queue.length =
      (decide (stage = .counted)).toNat + queue.length)
    (hrefused : refused = false → pool.refused = false ∧ stage ≠ .refused)
    (hgrow : stage = .notified → submission.grow = true) :
    Balanced { pool.setSubmission index { submission with stage := stage } with
      totalThreads := totalThreads, queue := queue, refused := refused } base := by
  have holdTotal := h.total
  have holdInFlight := h.inFlight
  have hset := fun p => countP_set_add p hsubmission { submission with stage := stage }
  have hpromised := hset Submission.promised
  have hcounted := hset fun submission => submission.stage = .counted
  have hrefusals := hset fun submission => submission.stage = .refused
  refine ⟨?_, ?_, h.bases, h.staying, Nat.le_trans hle h.ceiling, ?_, ?_⟩
  all_goals simp only [BlockingPool.setSubmission, willing, exiting, unqueued] at *
  · omega
  · omega
  · intro hnone other hother
    rcases List.mem_or_eq_of_mem_set hother with hother | rfl
    · exact h.granted (hrefused hnone).1 other hother
    · exact (hrefused hnone).2
  · intro other hother
    rcases List.mem_or_eq_of_mem_set hother with hother | rfl
    · exact h.growing other hother
    · exact hgrow

theorem Balanced.stepSubmission (h : pool.Balanced base) {event : Event} {index : Nat}
    {submission : Submission} (hsubmission : pool.submissions[index]? = some submission)
    (hstep : pool.stepSubmission event index submission = some pool') : pool'.Balanced base := by
  have hmem := List.mem_of_getElem? hsubmission
  have htotal := h.total
  have hpos := fun p => pos_countP_of_getElem? (p := p) hsubmission
  unfold BlockingPool.stepSubmission at hstep
  split at hstep
  · rename_i hstage
    cases hstep
    refine h.setSubmission hsubmission .pushed ?_ (Nat.le_refl _) ?_ ?_ ?_
    all_goals simp [Submission.promised, hstage]
    omega
  · rename_i hstage
    dsimp only at hstep
    have hnotified : (pool.setSubmission index { submission with
        stage := if submission.grow then .notified else .returned }).Balanced base := by
      refine h.setSubmission hsubmission _ ?_ (Nat.le_refl _) ?_ ?_ ?_
      all_goals split <;> simp_all [Submission.promised]
    split at hstep
    · split at hstep
      · rename_i thread hthread
        rw [Option.ite_none_right_eq_some] at hstep
        obtain ⟨hwaiting, hstep⟩ := hstep
        cases hstep
        refine hnotified.setThread (by exact hthread) .looking ?_ ?_ (Nat.le_refl _) ?_
        all_goals simp [Thread.willing, Thread.busy, hwaiting]
      · cases hstep
    · split at hstep
      · cases hstep
      · cases hstep
        exact hnotified
  · rename_i hstage
    cases hstep
    have hgrow := h.growing submission hmem hstage
    have hset := fun p => countP_set_add p hsubmission { submission with stage := .returned }
    have hpromised := hset Submission.promised
    have hcounted := hset fun submission => submission.stage = .counted
    have hrefusals := hset fun submission => submission.stage = .refused
    have hinFlight := h.inFlight
    have hbases := h.bases
    refine ⟨?_, ?_, ?_, ?_, h.ceiling, ?_, ?_⟩
    all_goals
      simp only [BlockingPool.setSubmission, willing, exiting, unqueued, countP_concat] at *
    · simp [Thread.willing, Submission.promised, hstage, hgrow] at *
      omega
    · simp [Thread.busy, hstage] at *
      omega
    · simpa using hbases
    · intro thread hthread hbase
      rcases List.mem_append.mp hthread with hthread | hthread
      · exact h.staying thread hthread hbase
      · rw [List.mem_singleton] at hthread
        subst hthread
        cases hbase
    · intro hnone other hother
      rcases List.mem_or_eq_of_mem_set hother with hother | rfl
      · exact h.granted hnone other hother
      · simp
    · intro other hother hnotified
      rcases List.mem_or_eq_of_mem_set hother with hother | rfl
      · exact h.growing other hother hnotified
      · cases hnotified
  · rename_i hstage
    cases hstep
    have hgrow := h.growing submission hmem hstage
    refine h.setSubmission hsubmission .refused ?_ (Nat.le_refl _) ?_ ?_ ?_
    all_goals simp [Submission.promised, hstage, hgrow]
  · rename_i hstage
    cases hstep
    have hpos := hpos (fun submission => submission.stage = .refused) (by simp [hstage])
    refine h.setSubmission hsubmission .returned ?_ (Nat.sub_le ..) ?_ ?_ ?_
    all_goals simp [Submission.promised, hstage]
    omega
  · cases hstep

/-- The thread whose step it is. -/
def Event.thread : Event → Option Nat
  | .submit | .push _ | .notify .. | .spawn _ | .refuse _ | .undo _ => none
  | .look index | .wake index | .finish index | .uncount index | .exit index => some index

theorem step_cases {event : Event} (hstep : step event pool = some pool') :
    (event = .submit ∧ pool' = pool.submit) ∨
      (∃ index submission, pool.submissions[index]? = some submission ∧
        pool.stepSubmission event index submission = some pool') ∨
      ∃ index thread, event.thread = some index ∧ pool.threads[index]? = some thread ∧
        pool.stepThread event index thread = some pool' := by
  unfold BlockingPool.step at hstep
  split at hstep
  · exact .inl ⟨rfl, (Option.some.inj hstep).symm⟩
  all_goals
    split at hstep
    case h_2 => cases hstep
    case h_1 hget =>
      first
      | exact .inr (.inl ⟨_, _, hget, hstep⟩)
      | exact .inr (.inr ⟨_, _, rfl, hget, hstep⟩)

theorem Balanced.step (h : pool.Balanced base) {event : Event}
    (hstep : step event pool = some pool') : pool'.Balanced base := by
  rcases step_cases hstep with
    ⟨-, rfl⟩ | ⟨index, submission, hget, hstep⟩ | ⟨index, thread, -, hget, hstep⟩
  · exact h.submit
  · exact h.stepSubmission hget hstep
  · exact h.stepThread hget hstep

/-! ### Jobs -/

/-- Where a job that was submitted is: with its call, in the queue or started. -/
structure Accounted (pool : BlockingPool) : Prop where
  once : ∀ job, job < pool.submissions.length →
    (pool.isUnqueued job).toNat + pool.queue.count job + pool.started.count job = 1
  submitted : ∀ job ∈ pool.queue ++ pool.started, job < pool.submissions.length

theorem isUnqueued_submit (job : Nat) :
    pool.submit.isUnqueued job =
      (pool.isUnqueued job || decide (job = pool.submissions.length)) := by
  unfold isUnqueued BlockingPool.submit
  rw [List.getElem?_append]
  split
  case isTrue hlt => rw [decide_eq_false (Nat.ne_of_lt hlt), Bool.or_false]
  case isFalse hge =>
    rw [List.getElem?_eq_none (Nat.le_of_not_lt hge), List.getElem?_singleton]
    by_cases hnew : job = pool.submissions.length
    · simp [hnew]
    · rw [if_neg (by omega)]
      simp [hnew]

theorem isUnqueued_setSubmission {index : Nat} {submission : Submission}
    (hsubmission : pool.submissions[index]? = some submission) (later : Submission) (job : Nat) :
    (pool.setSubmission index later).isUnqueued job =
      if job = index then decide (later.stage = .counted) else pool.isUnqueued job := by
  obtain ⟨hlt, -⟩ := List.getElem?_eq_some_iff.mp hsubmission
  unfold isUnqueued setSubmission
  rw [List.getElem?_set]
  by_cases hjob : job = index
  · rw [if_pos hjob.symm, if_pos hlt, if_pos hjob]
    rfl
  · rw [if_neg (Ne.symm hjob), if_neg hjob]

/-- The jobs are where they were, up to their order. -/
theorem Accounted.of_perm (h : pool.Accounted)
    (hlength : pool'.submissions.length = pool.submissions.length)
    (hunqueued : ∀ job, pool'.isUnqueued job = pool.isUnqueued job)
    (hjobs : (pool'.queue ++ pool'.started).Perm (pool.queue ++ pool.started)) :
    pool'.Accounted := by
  refine ⟨fun job hjob => ?_, fun job hjob => ?_⟩
  · have hcount := hjobs.count_eq job
    rw [List.count_append, List.count_append] at hcount
    have := h.once job (hlength ▸ hjob)
    rw [hunqueued]
    omega
  · rw [hlength]
    exact h.submitted job (hjobs.mem_iff.mp hjob)

theorem Accounted.submit (h : pool.Accounted) : pool.submit.Accounted := by
  have hlength : pool.submit.submissions.length = pool.submissions.length + 1 := by
    simp [BlockingPool.submit]
  refine ⟨fun job hjob => ?_, fun job hjob => ?_⟩
  · rw [isUnqueued_submit]
    show _ + pool.queue.count job + pool.started.count job = 1
    by_cases hnew : job = pool.submissions.length
    · have hcount : (pool.queue ++ pool.started).count job = 0 := by
        refine List.count_eq_zero.mpr fun hmem => ?_
        have := h.submitted job hmem
        omega
      rw [List.count_append] at hcount
      simp [hnew] at hcount ⊢
      omega
    · have := h.once job (by omega)
      simpa [hnew] using this
  · have := h.submitted job hjob
    omega

theorem Accounted.stepSubmission (h : pool.Accounted) {event : Event} {index : Nat}
    {submission : Submission} (hsubmission : pool.submissions[index]? = some submission)
    (hstep : pool.stepSubmission event index submission = some pool') : pool'.Accounted := by
  obtain ⟨hlt, hget⟩ := List.getElem?_eq_some_iff.mp hsubmission
  have hlength : ∀ later, (pool.setSubmission index later).submissions.length =
      pool.submissions.length := fun later => List.length_set
  have hother : ∀ later : Submission, submission.stage ≠ .counted → later.stage ≠ .counted → ∀ job,
      (pool.setSubmission index later).isUnqueued job = pool.isUnqueued job := by
    intro later hstage hlater job
    rw [isUnqueued_setSubmission hsubmission]
    split
    case isTrue hjob => simp [isUnqueued, hjob, hsubmission, hstage, hlater]
    case isFalse => rfl
  unfold BlockingPool.stepSubmission at hstep
  split at hstep
  · rename_i hstage
    cases hstep
    have hset := isUnqueued_setSubmission hsubmission { submission with stage := .pushed }
    refine ⟨fun job hjob => ?_, fun job hjob => ?_⟩
    · have honce := h.once job (hlength _ ▸ hjob)
      show ((pool.setSubmission index { submission with stage := .pushed }).isUnqueued job).toNat +
        (pool.queue ++ [index]).count job + pool.started.count job = 1
      rw [hset, List.count_append, List.count_singleton]
      split
      case isTrue heq =>
        subst heq
        simp [isUnqueued, hsubmission, hstage] at honce ⊢
        omega
      case isFalse hne =>
        simp [Ne.symm hne] at honce ⊢
        omega
    · rw [show _ = _ from hlength _]
      have hjob : job ∈ pool.queue ++ [index] ++ pool.started := hjob
      simp only [List.mem_append, List.mem_singleton] at hjob
      rcases hjob with (hjob | rfl) | hjob
      · exact h.submitted job (List.mem_append_left _ hjob)
      · exact hlt
      · exact h.submitted job (List.mem_append_right _ hjob)
  · rename_i hstage
    have hnext : ∀ grow : Bool, (if grow then Submitting.notified else .returned) ≠ .counted := by
      decide
    have hnotified := hother
      { submission with stage := if submission.grow then .notified else .returned }
      (by simp [hstage]) (hnext submission.grow)
    dsimp only at hstep
    split at hstep
    · split at hstep
      · rw [Option.ite_none_right_eq_some] at hstep
        obtain ⟨-, hstep⟩ := hstep
        cases hstep
        exact h.of_perm (hlength _) hnotified (List.Perm.refl _)
      · cases hstep
    · split at hstep
      · cases hstep
      · cases hstep
        exact h.of_perm (hlength _) hnotified (List.Perm.refl _)
  · cases hstep
    exact h.of_perm (hlength _) (hother _ (by simp_all) (by simp)) (List.Perm.refl _)
  · cases hstep
    exact h.of_perm (hlength _) (hother _ (by simp_all) (by simp)) (List.Perm.refl _)
  · cases hstep
    exact h.of_perm (hlength _) (hother _ (by simp_all) (by simp)) (List.Perm.refl _)
  · cases hstep


theorem Accounted.stepThread (h : pool.Accounted) {event : Event} {index : Nat} {thread : Thread}
    (hstep : pool.stepThread event index thread = some pool') : pool'.Accounted := by
  unfold BlockingPool.stepThread at hstep
  split at hstep
  · split at hstep
    · rename_i job queue hqueue
      cases hstep
      refine h.of_perm rfl (fun _ => rfl) ?_
      rw [hqueue]
      show (queue ++ (pool.started ++ [job])).Perm (job :: queue ++ pool.started)
      rw [← List.append_assoc]
      exact List.perm_append_singleton job (queue ++ pool.started)
    · cases hstep
      exact h.of_perm rfl (fun _ => rfl) (List.Perm.refl _)
  all_goals cases hstep
  all_goals exact h.of_perm rfl (fun _ => rfl) (List.Perm.refl _)

theorem Accounted.step (h : pool.Accounted) {event : Event} (hstep : step event pool = some pool') :
    pool'.Accounted := by
  rcases step_cases hstep with
    ⟨-, rfl⟩ | ⟨index, submission, hget, hstep⟩ | ⟨index, thread, -, hget, hstep⟩
  · exact h.submit
  · exact h.stepSubmission hget hstep
  · exact h.stepThread hstep

/-! ### Wake-ups -/

/-- While a base thread waits, every queued job has a call that will notify or a thread that will
look. -/
def Heard (pool : BlockingPool) : Prop :=
  ∀ thread ∈ pool.threads, thread.stage = .waiting → pool.queue.length ≤
    (pool.submissions.countP fun submission => submission.stage = .pushed) +
      pool.threads.countP fun thread => thread.stage = .looking

theorem Heard.start (cpuCount : Nat) : (start cpuCount).Heard := by
  have h : ∀ baseSize, (startBlockingPool baseSize).queue = [] := by
    intro baseSize
    induction baseSize with
    | zero => rfl
    | succ baseSize ih => exact ih
  intro thread _ _
  rw [show (BlockingPool.start cpuCount).queue = [] from h _]
  exact Nat.zero_le _

/-- A thread that goes on at `stage` leaves no less to be heard than the queue needs. -/
theorem Heard.setThread (h : pool.Heard) {index : Nat} {thread : Thread}
    (hthread : pool.threads[index]? = some thread) {stage : Stage} (hstage : stage ≠ .waiting)
    {queue started : List Nat} {totalThreads inFlight : Nat}
    (hqueue : queue.length + (decide (thread.stage = .looking)).toNat ≤
      pool.queue.length + (decide (stage = .looking)).toNat) :
    Heard { pool.setThread index { thread with stage := stage } with
      queue := queue, started := started, totalThreads := totalThreads, inFlight := inFlight } := by
  intro waiting hmem hwaiting
  have hset := countP_set_add (fun thread => thread.stage = .looking) hthread
    { thread with stage := stage }
  have hheard : pool.queue.length ≤
      (pool.submissions.countP fun submission => submission.stage = .pushed) +
        pool.threads.countP fun thread => thread.stage = .looking := by
    rcases List.mem_or_eq_of_mem_set hmem with hmem | rfl
    · exact h waiting hmem hwaiting
    · exact absurd hwaiting hstage
  simp only [BlockingPool.setThread] at hset ⊢
  omega

theorem Heard.stepThread (h : pool.Heard) {event : Event} {index : Nat} {thread : Thread}
    (hthread : pool.threads[index]? = some thread)
    (hstep : pool.stepThread event index thread = some pool') : pool'.Heard := by
  unfold BlockingPool.stepThread at hstep
  split at hstep
  · rename_i hstage
    split at hstep
    · rename_i job queue hqueue
      cases hstep
      exact h.setThread hthread (by simp) (by simp [hstage, hqueue])
    · rename_i hqueue
      cases hstep
      intro waiting _ _
      simp [hqueue]
  · cases hstep
    exact h.setThread hthread (by simp) (by simp_all)
  · cases hstep
    exact h.setThread hthread (by simp) (by simp_all)
  · cases hstep
    exact h.setThread hthread (by simp) (by simp_all)
  · cases hstep
    exact h.setThread hthread (by simp) (by simp_all)
  · cases hstep

theorem Heard.stepSubmission (h : pool.Heard) {event : Event} {index : Nat}
    {submission : Submission} (hsubmission : pool.submissions[index]? = some submission)
    (hstep : pool.stepSubmission event index submission = some pool') : pool'.Heard := by
  have hset := fun later => countP_set_add (fun submission => submission.stage = .pushed)
    hsubmission later
  unfold BlockingPool.stepSubmission at hstep
  split at hstep
  · rename_i hstage
    cases hstep
    intro waiting hmem hwaiting
    have hheard := h waiting hmem hwaiting
    have hset := hset { submission with stage := .pushed }
    simp [setSubmission, hstage] at hset ⊢
    omega
  · rename_i hstage
    have hset := hset
      { submission with stage := if submission.grow then .notified else .returned }
    dsimp only at hstep
    split at hstep
    · split at hstep
      · rename_i woken _ thread hthread
        rw [Option.ite_none_right_eq_some] at hstep
        obtain ⟨hwoken, hstep⟩ := hstep
        cases hstep
        have hlooking := countP_set_add (fun thread => thread.stage = .looking) hthread
          { thread with stage := .looking }
        have hheard := h thread (List.mem_of_getElem? hthread) hwoken
        have hnext : (if submission.grow then Submitting.notified else .returned) ≠ .pushed := by
          cases submission.grow <;> simp
        intro waiting _ _
        show pool.queue.length ≤ (pool.submissions.set index _).countP _ +
          (pool.threads.set woken _).countP _
        simp only [hstage, hwoken, hnext] at hset hlooking
        simp at hset hlooking
        omega
      · cases hstep
    · split at hstep
      · cases hstep
      · rename_i hnone
        cases hstep
        intro waiting hmem hwaiting
        exact absurd (List.any_eq_true.mpr ⟨waiting, hmem, by simp [hwaiting]⟩) hnone
  · rename_i hstage
    cases hstep
    intro waiting hmem hwaiting
    have hset := hset { submission with stage := .returned }
    rcases List.mem_append.mp hmem with hmem | hmem
    · have hheard := h waiting hmem hwaiting
      simp [setSubmission, hstage] at hset ⊢
      omega
    · rw [List.mem_singleton] at hmem
      subst hmem
      cases hwaiting
  · rename_i hstage
    cases hstep
    intro waiting hmem hwaiting
    have hheard := h waiting hmem hwaiting
    have hset := hset { submission with stage := .refused }
    simp [setSubmission, hstage] at hset ⊢
    omega
  · rename_i hstage
    cases hstep
    intro waiting hmem hwaiting
    have hheard := h waiting hmem hwaiting
    have hset := hset { submission with stage := .returned }
    simp [setSubmission, hstage] at hset ⊢
    omega
  · cases hstep

theorem Heard.step (h : pool.Heard) {event : Event} (hstep : step event pool = some pool') :
    pool'.Heard := by
  rcases step_cases hstep with
    ⟨-, rfl⟩ | ⟨index, submission, hget, hstep⟩ | ⟨index, thread, -, hget, hstep⟩
  · intro waiting hmem hwaiting
    have hheard := h waiting hmem hwaiting
    simpa [BlockingPool.submit] using hheard
  · exact h.stepSubmission hget hstep
  · exact h.stepThread hget hstep

/-! ### A thread for every job -/

/-- Also while a thread that found the queue empty is counted: when it is not, the pool may be below
its ceiling. -/
def Enough (pool : BlockingPool) : Prop :=
  pool.refused = false → pool.totalThreads < BlockingPool.ceiling ∨ 0 < pool.exiting →
    pool.inFlight + pool.exiting ≤ pool.totalThreads

theorem Balanced.willing_eq (h : pool.Balanced base) (hrefused : pool.refused = false) :
    pool.totalThreads = pool.willing + pool.exiting := by
  have hnone : (pool.submissions.countP fun submission => submission.stage = .refused) = 0 := by
    rw [List.countP_eq_zero]
    intro submission hmem
    simpa using h.granted hrefused submission hmem
  rw [h.total, hnone, Nat.add_zero]

/-- A thread in a job will take another one. -/
theorem busy_le_willing : pool.threads.countP Thread.busy ≤ pool.willing := by
  refine Nat.le_trans (List.countP_mono_left fun thread _ hbusy => ?_) (Nat.le_add_right ..)
  unfold Thread.busy at hbusy
  unfold Thread.willing
  split at hbusy <;> simp_all

theorem Enough.submit (h : pool.Enough) (hbalanced : pool.Balanced base)
    (hallowed : undisturbed .submit pool = true) : pool.submit.Enough := by
  intro hrefused hbelow
  have hwilling := hbalanced.willing_eq hrefused
  have henough := h hrefused
  have hexiting : pool.submit.exiting = pool.exiting := rfl
  simp only [undisturbed, Bool.or_eq_true, Bool.and_eq_true, decide_eq_true_eq] at hallowed
  rw [hexiting] at hbelow ⊢
  simp only [BlockingPool.submit, gt_iff_lt, decide_eq_true_eq] at hbelow ⊢
  by_cases hgrow : pool.totalThreads < pool.inFlight + 1 ∧
      pool.totalThreads < BlockingPool.ceiling
  · have := henough (.inl hgrow.2)
    rw [if_pos hgrow] at hbelow ⊢
    omega
  · rw [if_neg hgrow] at hbelow ⊢
    omega

theorem exiting_add {index : Nat} {thread : Thread} {stage : Stage}
    (hthread : pool.threads[index]? = some thread)
    (hset : pool'.threads = pool.threads.set index { thread with stage := stage }) :
    pool'.exiting + (decide (thread.stage = .exiting)).toNat =
      pool.exiting + (decide (stage = .exiting)).toNat := by
  unfold exiting
  rw [hset]
  exact countP_set_add (fun thread : Thread => decide (thread.stage = .exiting)) hthread _

/-- A thread that was not on its way out goes on, and is not either. -/
theorem exiting_eq {index : Nat} {thread : Thread} {stage : Stage}
    (hthread : pool.threads[index]? = some thread)
    (hset : pool'.threads = pool.threads.set index { thread with stage := stage })
    (hold : thread.stage ≠ .exiting) (hnew : stage ≠ .exiting) : pool'.exiting = pool.exiting := by
  have h := exiting_add hthread hset
  simpa [hold, hnew] using h

/-- A step that grants no more than there was. -/
theorem Enough.of_le (h : pool.Enough) (hrefused : pool'.refused = false → pool.refused = false)
    (htotal : pool'.totalThreads = pool.totalThreads) (hexiting : pool'.exiting = pool.exiting)
    (hinFlight : pool'.inFlight ≤ pool.inFlight) : pool'.Enough := by
  intro hnone hbelow
  have := h (hrefused hnone) (htotal ▸ hexiting ▸ hbelow)
  omega

theorem Enough.stepSubmission (h : pool.Enough) (hbalanced : pool.Balanced base) {event : Event}
    {index : Nat} {submission : Submission}
    (hsubmission : pool.submissions[index]? = some submission)
    (hstep : pool.stepSubmission event index submission = some pool') : pool'.Enough := by
  have hmem := List.mem_of_getElem? hsubmission
  unfold BlockingPool.stepSubmission at hstep
  split at hstep
  · cases hstep
    exact h
  · dsimp only at hstep
    split at hstep
    · split at hstep
      · rename_i woken _ thread hthread
        rw [Option.ite_none_right_eq_some] at hstep
        obtain ⟨hwoken, hstep⟩ := hstep
        cases hstep
        exact h.of_le id rfl (exiting_eq hthread rfl (by simp [hwoken]) (by simp)) (Nat.le_refl _)
      · cases hstep
    · split at hstep
      · cases hstep
      · cases hstep
        exact h
  · cases hstep
    refine h.of_le id rfl ?_ (Nat.le_refl _)
    simp [exiting]
  · cases hstep
    intro hrefused
    cases hrefused
  · rename_i hstage
    cases hstep
    intro hrefused
    exact absurd hstage (hbalanced.granted hrefused submission hmem)
  · cases hstep

/-- An overflow thread finds the queue empty: the other threads in jobs are there for what is in
flight. -/
theorem Enough.leave (hbalanced : pool.Balanced base) (hbalanced' : pool'.Balanced base)
    {index : Nat} {thread : Thread} (hthread : pool.threads[index]? = some thread)
    (hstage : thread.stage = .looking) (hqueue : pool.queue = [])
    (hallowed : pool.unqueued = 0 ∨ pool.inFlight < pool.willing)
    (hpool : pool' = pool.setThread index { thread with stage := .exiting }) : pool'.Enough := by
  intro hrefused _
  subst hpool
  have hexiting : (pool.setThread index { thread with stage := .exiting }).exiting + _ = _ :=
    exiting_add hthread rfl
  have hinFlight := hbalanced'.inFlight
  have hwilling := hbalanced.willing_eq hrefused
  have hwilling' := hbalanced'.willing_eq hrefused
  have hbusy : (pool.setThread index { thread with stage := .exiting }).threads.countP _ ≤ _ :=
    busy_le_willing
  have hunqueued : (pool.setThread index { thread with stage := .exiting }).unqueued =
      pool.unqueued := rfl
  simp [hstage, hqueue] at hexiting hinFlight hwilling' ⊢
  omega

theorem Enough.stepThread (h : pool.Enough) (hbalanced : pool.Balanced base)
    (hbalanced' : pool'.Balanced base) {event : Event} {index : Nat} {thread : Thread}
    (hevent : event.thread = some index)
    (hthread : pool.threads[index]? = some thread) (hallowed : undisturbed event pool = true)
    (hstep : pool.stepThread event index thread = some pool') : pool'.Enough := by
  unfold BlockingPool.stepThread at hstep
  split at hstep
  · rename_i looked hstage
    split at hstep
    · cases hstep
      exact h.of_le id rfl (exiting_eq hthread rfl (by simp [hstage]) (by simp)) (Nat.le_refl _)
    · rename_i hqueue
      dsimp only at hstep
      by_cases hbase : thread.isBase = true
      · rw [if_pos hbase] at hstep
        cases hstep
        exact h.of_le id rfl (exiting_eq hthread rfl (by simp [hstage]) (by simp)) (Nat.le_refl _)
      · rw [if_neg hbase] at hstep
        cases hstep
        obtain rfl : looked = index := Option.some.inj hevent
        simp only [undisturbed, hthread, hqueue, hbase, List.isEmpty_nil, Bool.not_true,
          Bool.or_eq_true, decide_eq_true_eq, Bool.false_eq_true, false_or] at hallowed
        exact .leave hbalanced hbalanced' hthread hstage hqueue hallowed rfl
  · cases hstep
    exact h.of_le id rfl (exiting_eq hthread rfl (by simp_all) (by simp)) (Nat.le_refl _)
  · cases hstep
    exact h.of_le id rfl (exiting_eq hthread rfl (by simp_all) (by simp)) (Nat.le_refl _)
  · cases hstep
    exact h.of_le id rfl (exiting_eq hthread rfl (by simp_all) (by simp)) (Nat.sub_le ..)
  · rename_i hstage
    cases hstep
    intro hrefused _
    have hset : (pool.setThread index { thread with stage := .gone }).exiting + _ = _ :=
      exiting_add hthread rfl
    simp [hstage] at hset
    have := h hrefused (.inr (by omega))
    show pool.inFlight + (pool.setThread index { thread with stage := .gone }).exiting ≤
      pool.totalThreads - 1
    omega
  · cases hstep

theorem Enough.step (h : pool.Enough) (hbalanced : pool.Balanced base) {event : Event}
    (hallowed : undisturbed event pool = true) (hstep : step event pool = some pool') :
    pool'.Enough := by
  have hbalanced' := hbalanced.step hstep
  rcases step_cases hstep with
    ⟨rfl, rfl⟩ | ⟨index, submission, hget, hstep⟩ | ⟨index, thread, hevent, hget, hstep⟩
  · exact h.submit hbalanced hallowed
  · exact h.stepSubmission hbalanced hget hstep
  · exact h.stepThread hbalanced hbalanced' hevent hget hallowed hstep

/-! ### What the pool promises -/

theorem startBlockingPool_submissions (baseSize : Nat) :
    (startBlockingPool baseSize).submissions = [] ∧ (startBlockingPool baseSize).queue = [] ∧
      (startBlockingPool baseSize).started = [] ∧ (startBlockingPool baseSize).inFlight = 0 := by
  induction baseSize with
  | zero => exact ⟨rfl, rfl, rfl, rfl⟩
  | succ baseSize ih => exact ih

theorem Accounted.start (cpuCount : Nat) : (start cpuCount).Accounted := by
  obtain ⟨hsubmissions, hqueue, hstarted, -⟩ := startBlockingPool_submissions (baseSize cpuCount)
  refine ⟨fun job hjob => ?_, fun job hjob => ?_⟩
  all_goals
    unfold BlockingPool.start at hjob
    simp [hsubmissions, hqueue, hstarted] at hjob

theorem Enough.start (cpuCount : Nat) : (start cpuCount).Enough := by
  intro hrefused _
  have h := Balanced.start cpuCount
  have hwilling := h.willing_eq hrefused
  have hinFlight : (BlockingPool.start cpuCount).inFlight = 0 :=
    (startBlockingPool_submissions (baseSize cpuCount)).2.2.2
  omega

theorem Balanced.base_le (h : pool.Balanced base) : base ≤ pool.threads.countP Thread.willing :=
  h.bases ▸ List.countP_mono_left h.staying

/-- With nobody about to look, a base thread that is in no job waits, and would have been
notified. -/
theorem Balanced.served (h : pool.Balanced base) (hheard : pool.Heard) (hqueue : pool.queue ≠ []) :
    (∃ thread ∈ pool.threads, thread.stage = .looking) ∨
      (∃ submission ∈ pool.submissions, submission.stage = .pushed) ∨
        ∀ thread ∈ pool.threads, thread.isBase = true → thread.busy = true := by
  by_contra hnot
  push Not at hnot
  obtain ⟨hlooking, hpushed, thread, hmem, hbase, hbusy⟩ := hnot
  have hwaiting : thread.stage = .waiting := by
    have hwilling := h.staying thread hmem hbase
    have hlooking := hlooking thread hmem
    unfold Thread.busy at hbusy
    unfold Thread.willing at hwilling
    cases hstage : thread.stage <;> simp_all
  have hlength := hheard thread hmem hwaiting
  rw [List.countP_eq_zero.mpr (by simpa using hpushed),
    List.countP_eq_zero.mpr (by simpa using hlooking)] at hlength
  exact hqueue (List.length_eq_zero_iff.mp (Nat.le_zero.mp hlength))

theorem Balanced.sound (h : pool.Balanced base) (haccounted : pool.Accounted)
    (hheard : pool.Heard) (henough : pool.Enough) : pool.Sound base := by
  have hbase := h.base_le
  have htotal := h.total
  have hinFlight := h.inFlight
  unfold willing at htotal
  refine ⟨haccounted.once, fun job hjob => haccounted.submitted job (List.mem_append_right _ hjob),
    h.served hheard, ⟨by omega, h.ceiling⟩, ?_, ?_, ?_⟩
  · rintro ⟨thread, hmem, hstage⟩
    have hpos : 0 < pool.threads.countP Thread.busy :=
      List.countP_pos_iff.mpr ⟨thread, hmem, by simp [Thread.busy, hstage]⟩
    omega
  · rintro (⟨thread, hmem, hstage⟩ | ⟨submission, hmem, hstage⟩)
    · have hpos : 0 < pool.exiting :=
        List.countP_pos_iff.mpr ⟨thread, hmem, by simp [hstage]⟩
      omega
    · have hpos : 0 < pool.submissions.countP fun submission => submission.stage = .refused :=
        List.countP_pos_iff.mpr ⟨submission, hmem, by simp [hstage]⟩
      omega
  · intro hrefused hbelow
    have hwilling := h.willing_eq hrefused
    have hle := henough hrefused (.inl hbelow)
    omega

/-- What the pool promises, in every state of an undisturbed run. -/
theorem sound_of_undisturbed {cpuCount : Nat}
    (h : Run step (fun event pool => undisturbed event pool = true) (start cpuCount) pool) :
    pool.Sound (baseSize cpuCount) := by
  have hbalanced : ∀ pool, Run step (fun event pool => undisturbed event pool = true)
      (BlockingPool.start cpuCount) pool → pool.Balanced (baseSize cpuCount) := by
    intro pool hrun
    induction hrun with
    | start => exact .start cpuCount
    | next event _ _ hstep ih => exact ih.step hstep
  have haccounted : pool.Accounted :=
    h.invariant (.start _) fun _ _ _ h _ hstep => h.step hstep
  have hheard : pool.Heard :=
    h.invariant (.start _) fun _ _ _ h _ hstep => h.step hstep
  have henough : pool.Enough :=
    h.strengthen hbalanced (.start _) fun _ _ _ hknown h hallowed hstep =>
      h.step hknown hallowed hstep
  exact (hbalanced pool h).sound haccounted hheard henough

/-- Five jobs at once on a machine of one processor: the fifth gets an overflow thread, which leaves
when its job is done. -/
theorem five_jobs :
    ∃ pool, follow step undisturbed
        ([.submit, .push 0, .notify 0 none, .submit, .push 1, .notify 1 none, .submit, .push 2,
          .submit, .push 3, .look 0, .look 1, .look 2, .look 3, .submit, .push 4, .notify 4 none,
          .spawn 4, .look 4, .finish 4, .uncount 4, .look 4, .exit 4]) (start 1) = some pool ∧
      pool.Sound 4 ∧ pool.totalThreads = 4 ∧ pool.started = [0, 1, 2, 3, 4] := by
  obtain ⟨pool, hpool⟩ : ∃ pool, follow step undisturbed
      ([.submit, .push 0, .notify 0 none, .submit, .push 1, .notify 1 none, .submit, .push 2,
        .submit, .push 3, .look 0, .look 1, .look 2, .look 3, .submit, .push 4, .notify 4 none,
        .spawn 4, .look 4, .finish 4, .uncount 4, .look 4, .exit 4]) (start 1) = some pool :=
    ⟨_, rfl⟩
  have hsound : pool.Sound 4 := sound_of_undisturbed (.of_follow (fun _ _ h => h) .start hpool)
  refine ⟨pool, hpool, hsound, ?_⟩
  cases hpool
  exact ⟨rfl, rfl⟩

/-- The overflow thread has found the queue empty and is still counted when the next job comes: the
pool does not grow, and is left with four threads for five jobs. -/
theorem stranded_job : ¬∀ (cpuCount : Nat) (pool : BlockingPool), Reaches cpuCount pool →
    pool.Sound (baseSize cpuCount) := by
  intro hclaim
  obtain ⟨pool, hpool⟩ : ∃ pool, follow step (fun _ _ => true)
      ([.submit, .push 0, .submit, .push 1, .submit, .push 2, .submit, .push 3, .look 0, .look 1,
        .look 2, .look 3, .submit, .push 4, .notify 4 none, .spawn 4, .look 4, .finish 4,
        .uncount 4, .look 4, .submit]) (start 1) = some pool := ⟨_, rfl⟩
  have henough := (hclaim 1 pool (.of_follow (fun _ _ _ => trivial) .start hpool)).enough
  cases hpool
  exact absurd (henough rfl (by decide)) (by decide)

end BlockingPool

end Quilon.Runtime
