import Quilon.Library.Counting
import Quilon.Runtime.Trap
import Mathlib.Tactic.Common

/-!
# What the signal trap delivers

Only one fiber writes `running`, so a signal never has two runs.  The pair of a run is read in two
steps after the claim, and `handle_signal` writes it in two: whole pairs, each of them once, are
what the trap delivers as long as no call of `handle_signal` stores into a slot where another call,
or the worker between its swap and its loads, is at work.

Main results:

* `Coherent.step` — `running` counts the runs in progress, and whatever is pending will be found;
* `Posted.step` — in an undisturbed run, the pairs the worker claims are whole, new and in order;
* `alive_le_one` — one run of a signal at a time, in every run of the system;
* `delivers_of_undisturbed` — what an undisturbed run delivers;
* `torn_pair` — a run that is called with the process of one delivery and the user of another.
-/

namespace Quilon.Runtime

namespace SignalTrap

/-- The runs of the signal's arm in progress. -/
def alive (trap : SignalTrap) (index : Nat) : Nat :=
  trap.runs.countP fun run => run.index = index && run.inProgress

/-- Whether the worker comes to the signal's `pending`, or to a new run of its arm, before it turns
to other fibers. -/
def Activity.visits : Activity → Nat → Bool
  | .elsewhere, _ => false
  | .drain, _ => true
  | .loadRunning next, index | .swapPending next, index | .storeRunning next, index
  | .loadPid next, index | .loadUid next _, index | .spawnRun next _ _, index => next ≤ index
  | .clearRunning ended, index | .swapAgain ended, index | .loadPidAgain ended, index
  | .loadUidAgain ended _, index | .storeRunningAgain ended _ _, index
  | .spawnAgain ended _ _, index => ended = index

/-- Whether the signal has a run in progress, the worker is on its way to it, or something is in the
pipe or about to be. -/
def Astir (trap : SignalTrap) (index : Nat) : Prop :=
  0 < trap.alive index ∨ trap.activity.visits index = true ∨ 0 < trap.pipe ∨
    ∃ delivery ∈ trap.deliveries, delivery.progress = .storedPending

/-- Whether a call of `handle_signal` is between its first store and its last. -/
def Delivery.storing (delivery : Delivery) : Bool :=
  delivery.progress = .storedPid || delivery.progress = .storedUid

/-- A step that is neither a new delivery nor an `install`. -/
def Event.inward : Event → Bool
  | .install .. | .deliver .. => false
  | .handle _ | .wake | .work | .enterArm _ | .returnArm _ => true

/-- What the trap is for.  A delivery is `kept` whether or not it found one pending: as long as no
run that started after it carries it or a later one, the signal is astir, and then the system is
not stuck. -/
structure Delivers (trap : SignalTrap) : Prop where
  alone : ∀ index, trap.alive index ≤ 1
  whole : ∀ run ∈ trap.runs, ∃ delivery : Delivery,
    trap.deliveries[run.pid.delivery]? = some delivery ∧ delivery.index = run.index ∧
      run.pid.value = delivery.pid ∧ run.uid = ⟨delivery.uid, run.pid.delivery⟩
  kept : ∀ (number : Nat) (delivery : Delivery), trap.deliveries[number]? = some delivery →
    delivery.storing = false → trap.Astir delivery.index ∨
      ∃ (position : Nat) (run : ArmRun), trap.runs[position]? = some run ∧
        run.index = delivery.index ∧ delivery.runsBefore ≤ position ∧ number ≤ run.pid.delivery
  awake : ∀ index, trap.Astir index → ∃ event, event.inward = true ∧ (step event trap).isSome
  once : trap.runs.Pairwise fun run later => run.pid.delivery ≠ later.pid.delivery

/-- Whether a call of `handle_signal` is at its stores into the slot. -/
def storing (trap : SignalTrap) (index : Nat) : Bool :=
  trap.deliveries.any fun delivery => delivery.index = index && delivery.storing

/-- The worker has swapped `pending` and will load the pid. -/
def Activity.awaitsPid : Activity → Nat → Bool
  | .storeRunning claimed, index | .loadPid claimed, index | .loadPidAgain claimed, index =>
    claimed = index
  | _, _ => false

/-- The worker has swapped `pending` and will load the uid. -/
def Activity.awaitsUid : Activity → Nat → Bool
  | .loadUid claimed _, index | .loadUidAgain claimed _, index => claimed = index
  | activity, index => activity.awaitsPid index

/-- Whether the step keeps the calls of `handle_signal` for one signal apart from each other and
from the worker's claim: no call starts during another one's stores, the worker claims what is
pending during no call's stores, and a call stores nothing that the worker is about to load. -/
def undisturbed (event : Event) (trap : SignalTrap) : Bool :=
  match event with
  | .deliver signal _ _ =>
    match trapSignals.idxOf? signal with
    | none => true
    | some index => !trap.storing index && !trap.activity.awaitsPid index
  | .handle number =>
    match trap.deliveries[number]? with
    | none => true
    | some delivery =>
      delivery.progress ≠ .storedPid || !trap.activity.awaitsUid delivery.index
  | .work =>
    match trap.activity with
    | .swapPending index | .swapAgain index =>
      !(trap.slots index).pending || !trap.storing index
    | _ => true
  | .install .. | .wake | .enterArm _ | .returnArm _ => true

/-! ### One run at a time, and none forgotten -/

/-- What `running` is while the worker starts the signal's arm or has just left it. -/
def Activity.engaged : Activity → Nat → Option Bool
  | .elsewhere, _ | .drain, _ | .loadRunning _, _ => none
  | .swapPending claimed, index | .storeRunning claimed, index | .swapAgain claimed, index
  | .loadPidAgain claimed, index | .loadUidAgain claimed _, index
  | .storeRunningAgain claimed _ _, index => if claimed = index then some false else none
  | .loadPid claimed, index | .loadUid claimed _, index | .spawnRun claimed _ _, index
  | .clearRunning claimed, index | .spawnAgain claimed _ _, index =>
    if claimed = index then some true else none

/-- `running` tells the runs in progress, except where the worker is between the two. -/
def Counted (engaged : Option Bool) (running : Bool) (alive : Nat) : Prop :=
  match engaged with
  | some marked => running = marked ∧ alive = 0
  | none => alive = running.toNat

structure Coherent (trap : SignalTrap) : Prop where
  counted : ∀ index, Counted (trap.activity.engaged index) (trap.slots index).running
    (trap.alive index)
  piped : ∀ index, (trap.slots index).handler ≠ 0 → trap.piped = true
  written : 0 < trap.pipe → trap.piped = true
  known : ∀ delivery ∈ trap.deliveries, delivery.index < trapSignals.length ∧ trap.piped = true
  noticed : ∀ index, (trap.slots index).pending = true →
    index < trapSignals.length ∧ trap.Astir index

variable {trap trap' : SignalTrap}

theorem Coherent.start : start.Coherent where
  counted index := rfl
  piped index h := absurd rfl h
  written h := absurd h (Nat.lt_irrefl 0)
  known delivery h := by cases h
  noticed index h := by cases h

@[simp] theorem setSlot_slots (index other : Nat) (slot : Slot) :
    (trap.setSlot index slot).slots other = if other = index then slot else trap.slots other :=
  Function.update_apply ..

@[simp] theorem alive_setSlot (index other : Nat) (slot : Slot) :
    (trap.setSlot index slot).alive other = trap.alive other := rfl

theorem nextIndex_engaged (index other : Nat) : (nextIndex index).engaged other = none := by
  unfold nextIndex
  split <;> rfl

/-- The dispatcher comes to every later signal. -/
theorem nextIndex_visits {index other : Nat} (hother : other < trapSignals.length) :
    (nextIndex index).visits other = decide (index < other) := by
  unfold nextIndex
  split
  · exact decide_eq_decide.mpr Nat.succ_le_iff
  · rw [Activity.visits, eq_comm, decide_eq_false_iff_not]
    omega

@[simp] theorem alive_setActivity (index pipe : Nat) (next : Activity) (slots : Nat → Slot) :
    SignalTrap.alive { trap with activity := next, pipe := pipe, slots := slots } index =
      trap.alive index := rfl

@[simp] theorem alive_spawnRun (index other : Nat) (pid uid : Stored) (next : Activity) :
    (spawnRun index pid uid next trap).alive other =
      trap.alive other + if index = other then 1 else 0 := by
  simp [spawnRun, alive, List.countP_append, ArmRun.inProgress, List.countP_singleton]

@[simp] theorem spawnRun_activity (index : Nat) (pid uid : Stored) (next : Activity) :
    (spawnRun index pid uid next trap).activity = next := rfl

@[simp] theorem spawnRun_slots (index : Nat) (pid uid : Stored) (next : Activity) :
    (spawnRun index pid uid next trap).slots = trap.slots := rfl

/-- The worker's step keeps the count of every signal: the one it is engaged with is the only one
whose `running` or runs it changes. -/
theorem Coherent.counted_work (h : trap.Coherent) (hstep : trap.work = some trap') (other : Nat) :
    Counted (trap'.activity.engaged other) (trap'.slots other).running (trap'.alive other) := by
  have hother := h.counted other
  cases hactivity : trap.activity
  all_goals
    simp only [SignalTrap.work, hactivity, setSlot, reduceCtorEq] at hstep
    try split at hstep
  all_goals
    obtain rfl := Option.some.inj hstep
    simp only [hactivity, alive_setActivity, alive_spawnRun, nextIndex_engaged, spawnRun_activity,
      spawnRun_slots, Function.update_apply] at hother ⊢
    grind [Activity.engaged, Counted]

theorem Coherent.noticed_work (h : trap.Coherent) (hstep : trap.work = some trap') (other : Nat)
    (hpending : (trap'.slots other).pending = true) :
    other < trapSignals.length ∧ trap'.Astir other := by
  have hother := h.counted other
  have hnoticed := h.noticed other
  cases hactivity : trap.activity
  all_goals
    simp only [SignalTrap.work, hactivity, setSlot, reduceCtorEq] at hstep
    try split at hstep
  all_goals
    obtain rfl := Option.some.inj hstep
    simp only [hactivity, Astir, alive_setActivity, alive_spawnRun, spawnRun_activity,
      spawnRun_slots, Function.update_apply] at hother hpending hnoticed ⊢
    grind [Activity.engaged, Activity.visits, Counted, nextIndex_visits, spawnRun]

/-- The worker writes `running` and `pending` only, and reads from the pipe. -/
theorem work_keeps (hstep : trap.work = some trap') :
    trap'.deliveries = trap.deliveries ∧ trap'.piped = trap.piped ∧ trap'.pipe ≤ trap.pipe ∧
      trap.runs.length ≤ trap'.runs.length ∧ ∀ index,
        (trap'.slots index).handler = (trap.slots index).handler ∧
        (trap'.slots index).pendingPid = (trap.slots index).pendingPid ∧
          (trap'.slots index).pendingUid = (trap.slots index).pendingUid := by
  cases hactivity : trap.activity
  all_goals
    simp only [SignalTrap.work, hactivity, setSlot, spawnRun, reduceCtorEq] at hstep
    try split at hstep
  all_goals
    obtain rfl := Option.some.inj hstep
    grind

theorem Coherent.work (h : trap.Coherent) (hstep : trap.work = some trap') : trap'.Coherent := by
  obtain ⟨hdeliveries, hpiped, hpipe, -, hslots⟩ := work_keeps hstep
  refine ⟨h.counted_work hstep, ?_, ?_, ?_, h.noticed_work hstep⟩
  · intro index hhandler
    rw [hpiped]
    exact h.piped index ((hslots index).1 ▸ hhandler)
  · rw [hpiped]
    exact fun hpos => h.written (Nat.lt_of_lt_of_le hpos hpipe)
  · rw [hdeliveries, hpiped]
    exact h.known

/-- A run in progress that goes on to `phase`. -/
theorem alive_setPhase {number : Nat} {run : ArmRun} (hrun : trap.runs[number]? = some run)
    (hprogress : run.phase ≠ .returned) (phase : Phase) (next : Activity) (other : Nat) :
    (trap.setPhase number run phase next).alive other + (decide (run.index = other)).toNat =
      trap.alive other + (decide (run.index = other) && decide (phase ≠ .returned)).toNat := by
  have hset := countP_set_add (fun run => decide (run.index = other) && run.inProgress) hrun
    { run with phase := phase }
  have hold : run.inProgress = true := by simpa [ArmRun.inProgress] using hprogress
  rw [hold, Bool.and_true] at hset
  exact hset

theorem Coherent.setPhase (h : trap.Coherent) {number : Nat} {run : ArmRun}
    (hrun : trap.runs[number]? = some run) (hprogress : run.phase ≠ .returned)
    (hactivity : trap.activity = .elsewhere) {phase : Phase} {next : Activity}
    (hnext : phase ≠ .returned ∧ next = .elsewhere ∨
      phase = .returned ∧ next = .clearRunning run.index) :
    (trap.setPhase number run phase next).Coherent := by
  have halive := alive_setPhase hrun hprogress phase next
  refine ⟨?_, h.piped, h.written, h.known, ?_⟩
  · intro other
    have hcounted := h.counted other
    have halive := halive other
    rw [hactivity] at hcounted
    show Counted (next.engaged other) (trap.slots other).running _
    have hpos : run.index = other → 0 < trap.alive other := by
      intro hindex
      refine List.countP_pos_iff.mpr ⟨run, List.mem_of_getElem? hrun, ?_⟩
      simp [hindex, hprogress, ArmRun.inProgress]
    have hflag : ∀ b : Bool, b.toNat = if b = true then 1 else 0 := by decide
    grind [Counted, Activity.engaged]
  · intro other hpending
    obtain ⟨hlt, hastir⟩ := h.noticed other hpending
    refine ⟨hlt, ?_⟩
    have halive := halive other
    rw [Astir, hactivity] at hastir
    show _ ∨ next.visits other = true ∨ 0 < trap.pipe ∨ ∃ delivery ∈ trap.deliveries, _
    grind [Activity.visits]

theorem exists_mem_set {deliveries : List Delivery} {number : Nat} {delivery : Delivery}
    (hget : deliveries[number]? = some delivery) (later : Delivery) {p : Delivery → Prop}
    (hp : ¬ p delivery) (h : ∃ other ∈ deliveries, p other) :
    ∃ other ∈ deliveries.set number later, p other := by
  obtain ⟨other, hmem, hother⟩ := h
  obtain ⟨position, hposition⟩ := List.mem_iff_getElem?.mp hmem
  refine ⟨other, List.mem_iff_getElem?.mpr ⟨position, ?_⟩, hother⟩
  rw [List.getElem?_set_ne, hposition]
  rintro rfl
  rw [hget] at hposition
  exact hp (Option.some.inj hposition ▸ hother)

/-- What a handler changes: the values in the slots, `pending`, the pipe and the deliveries. -/
theorem Coherent.of_handler (h : trap.Coherent) {slots : Nat → Slot} {pipe : Nat}
    {deliveries : List Delivery}
    (hslots : ∀ index, (slots index).running = (trap.slots index).running ∧
      (slots index).handler = (trap.slots index).handler)
    (hpipe : 0 < trap.pipe → 0 < pipe) (hwritten : 0 < pipe → trap.piped = true)
    (hknown : ∀ delivery ∈ deliveries, delivery.index < trapSignals.length ∧ trap.piped = true)
    (hpending : ∀ index, (slots index).pending = true → (trap.slots index).pending = true ∨
      index < trapSignals.length ∧ ∃ delivery ∈ deliveries, delivery.progress = .storedPending)
    (hstored : (∃ delivery ∈ trap.deliveries, delivery.progress = .storedPending) →
      0 < pipe ∨ ∃ delivery ∈ deliveries, delivery.progress = .storedPending) :
    Coherent { trap with slots := slots, pipe := pipe, deliveries := deliveries } := by
  refine ⟨?_, ?_, hwritten, hknown, ?_⟩
  · intro other
    rw [(hslots other).1]
    exact h.counted other
  · intro other hhandler
    exact h.piped other ((hslots other).2 ▸ hhandler)
  · intro other hother
    rcases hpending other hother with hold | ⟨hlt, hwriting⟩
    · obtain ⟨hlt, halive | hvisits | hpos | hwriting⟩ := h.noticed other hold
      · exact ⟨hlt, .inl halive⟩
      · exact ⟨hlt, .inr (.inl hvisits)⟩
      · exact ⟨hlt, .inr (.inr (.inl (hpipe hpos)))⟩
      · exact ⟨hlt, .inr (.inr (hstored hwriting))⟩
    · exact ⟨hlt, .inr (.inr (.inr hwriting))⟩

theorem Coherent.handle (h : trap.Coherent) {number : Nat}
    (hstep : trap.handle number = some trap') : trap'.Coherent := by
  unfold SignalTrap.handle at hstep
  split at hstep
  case h_1 => cases hstep
  case h_2 delivery hget =>
    have hmem := List.mem_of_getElem? hget
    obtain ⟨hindex, hpiped⟩ := h.known delivery hmem
    obtain ⟨hlt, -⟩ := List.getElem?_eq_some_iff.mp hget
    have hset : ∀ later : Delivery, later.index = delivery.index →
        ∀ other ∈ trap.deliveries.set number later,
          other.index < trapSignals.length ∧ trap.piped = true := by
      intro later hlater other hother
      rcases List.mem_or_eq_of_mem_set hother with hother | rfl
      · exact h.known other hother
      · exact hlater ▸ ⟨hindex, hpiped⟩
    have hkept : ∀ later : Delivery, delivery.progress ≠ .storedPending →
        (∃ other ∈ trap.deliveries, other.progress = .storedPending) →
          ∃ other ∈ trap.deliveries.set number later, other.progress = .storedPending :=
      fun later hprogress => exists_mem_set hget later hprogress
    split at hstep
    all_goals
      rename_i hprogress
      cases hstep
    · refine h.of_handler ?_ id h.written (hset _ rfl) ?_ fun hwriting =>
        .inr (hkept _ (by simp [hprogress]) hwriting)
      all_goals
        intro other
        simp only [setSlot_slots]
        grind
    · refine h.of_handler ?_ id h.written (hset _ rfl) ?_ fun hwriting =>
        .inr (hkept _ (by simp [hprogress]) hwriting)
      · intro other
        simp only [setSlot_slots]
        grind
      · intro other
        simp only [setSlot_slots]
        intro hpending
        by_cases hother : other = delivery.index
        · exact .inr ⟨hother ▸ hindex, _, List.mem_set hlt _, rfl⟩
        · exact .inl (by simpa only [if_neg hother] using hpending)
    · refine h.of_handler (fun _ => ⟨rfl, rfl⟩) ?_ (fun _ => hpiped) (hset _ rfl) (fun _ => .inl)
        fun _ => .inl ?_
      · show 0 < trap.pipe → 0 < if trap.piped then min (trap.pipe + 1) pipeCapacity else trap.pipe
        grind [pipeCapacity]
      · show 0 < if trap.piped then min (trap.pipe + 1) pipeCapacity else trap.pipe
        grind [pipeCapacity]

theorem Coherent.deliver (h : trap.Coherent) {signal : Nat} {pid uid : Int}
    (hstep : trap.deliver signal pid uid = some trap') : trap'.Coherent := by
  unfold SignalTrap.deliver at hstep
  split at hstep
  case h_1 =>
    cases hstep
    exact h
  case h_2 index hindex =>
    dsimp only at hstep
    split at hstep
    case isTrue => cases hstep
    case isFalse hhandler =>
      cases hstep
      have hlt : index < trapSignals.length := (List.idxOf?_eq_some_iff.mp hindex).1
      refine h.of_handler ?_ id h.written ?_ ?_ fun hwriting => .inr ?_
      · intro other
        simp only [setSlot_slots]
        grind
      · intro other hother
        rcases List.mem_append.mp hother with hother | hother
        · exact h.known other hother
        · rw [List.mem_singleton] at hother
          exact hother ▸ ⟨hlt, h.piped index hhandler⟩
      · intro other
        simp only [setSlot_slots]
        grind
      · obtain ⟨other, hother, hprogress⟩ := hwriting
        exact ⟨other, List.mem_append_left _ hother, hprogress⟩

theorem Coherent.step (h : trap.Coherent) {event : Event} (hstep : step event trap = some trap') :
    trap'.Coherent := by
  cases event with
  | install index arm =>
    simp only [SignalTrap.step, SignalTrap.install, Option.ite_none_right_eq_some] at hstep
    obtain ⟨-, hstep⟩ := hstep
    cases hstep
    refine ⟨?_, fun _ _ => rfl, fun _ => rfl, ?_, ?_⟩
    · intro other
      have hcounted := h.counted other
      simp only [setSlot_slots]
      grind [setSlot, alive]
    · exact fun delivery hdelivery => ⟨(h.known delivery hdelivery).1, rfl⟩
    · intro other
      have hnoticed := h.noticed other
      simp only [setSlot_slots]
      grind [setSlot, Astir, alive]
  | deliver signal pid uid => exact h.deliver hstep
  | handle number => exact h.handle hstep
  | work => exact h.work hstep
  | wake =>
    simp only [SignalTrap.step] at hstep
    split at hstep
    case h_1 hactivity =>
      rw [Option.ite_none_right_eq_some] at hstep
      obtain ⟨-, hstep⟩ := hstep
      cases hstep
      refine ⟨?_, h.piped, h.written, h.known, ?_⟩
      · intro other
        have hcounted := h.counted other
        rw [hactivity] at hcounted
        exact hcounted
      · exact fun other hother => ⟨(h.noticed other hother).1, .inr (.inl rfl)⟩
    case h_2 => cases hstep
  | enterArm number =>
    simp only [SignalTrap.step] at hstep
    split at hstep
    case h_1 run hactivity hrun =>
      split_ifs at hstep with hphase harm
      · cases hstep
        exact h.setPhase hrun (by simp_all) hactivity (.inr ⟨rfl, rfl⟩)
      · cases hstep
        exact h.setPhase hrun (by simp_all) hactivity (.inl ⟨by simp, rfl⟩)
    case h_2 => cases hstep
  | returnArm number =>
    simp only [SignalTrap.step] at hstep
    split at hstep
    case h_1 run hactivity hrun =>
      rw [Option.ite_none_right_eq_some] at hstep
      obtain ⟨hphase, hstep⟩ := hstep
      cases hstep
      exact h.setPhase hrun (by simp_all) hactivity (.inr ⟨rfl, rfl⟩)
    case h_2 => cases hstep

/-- Under no condition has a signal two runs in progress. -/
theorem alive_le_one (h : trap.Coherent) (index : Nat) : trap.alive index ≤ 1 := by
  have hcounted := h.counted index
  unfold Counted at hcounted
  split at hcounted
  · omega
  · rw [hcounted]
    exact Bool.toNat_le _

/-- What is astir is not stuck. -/
theorem Coherent.awake (h : trap.Coherent) {index : Nat} (hastir : trap.Astir index) :
    ∃ event, event.inward = true ∧ (SignalTrap.step event trap).isSome := by
  by_cases hactivity : trap.activity = .elsewhere
  · rcases hastir with halive | hvisits | hpipe | ⟨delivery, hdelivery, hprogress⟩
    · obtain ⟨run, hrun, hindex⟩ := List.countP_pos_iff.mp halive
      obtain ⟨number, hnumber⟩ := List.mem_iff_getElem?.mp hrun
      cases hphase : run.phase with
      | spawned =>
        refine ⟨.enterArm number, rfl, ?_⟩
        simp only [SignalTrap.step, hactivity, hnumber, hphase]
        split_ifs <;> simp_all
      | inArm =>
        refine ⟨.returnArm number, rfl, ?_⟩
        simp [SignalTrap.step, hactivity, hnumber, hphase]
      | returned => simp [ArmRun.inProgress, hphase] at hindex
    · rw [hactivity] at hvisits
      cases hvisits
    · exact ⟨.wake, rfl, by simp [SignalTrap.step, hactivity, h.written hpipe]⟩
    · obtain ⟨number, hnumber⟩ := List.mem_iff_getElem?.mp hdelivery
      exact ⟨.handle number, rfl, by simp [SignalTrap.step, SignalTrap.handle, hnumber, hprogress]⟩
  · refine ⟨.work, rfl, ?_⟩
    cases hcase : trap.activity
    all_goals
      simp only [SignalTrap.step, SignalTrap.work, hcase]
      grind

/-! ### Whole pairs, each of them once -/

/-- The arguments of a run, or of the claim that becomes one. -/
structure Call where
  index : Nat
  pid : Stored
  uid : Stored

def ArmRun.call (run : ArmRun) : Call :=
  ⟨run.index, run.pid, run.uid⟩

/-- What the worker has claimed; what it has not loaded is as it stands in the slot. -/
def Activity.claim (slots : Nat → Slot) : Activity → Option Call
  | .elsewhere | .drain | .loadRunning _ | .swapPending _ | .clearRunning _ | .swapAgain _ => none
  | .storeRunning index | .loadPid index | .loadPidAgain index =>
    some ⟨index, (slots index).pendingPid, (slots index).pendingUid⟩
  | .loadUid index pid | .loadUidAgain index pid => some ⟨index, pid, (slots index).pendingUid⟩
  | .spawnRun index pid uid | .storeRunningAgain index pid uid | .spawnAgain index pid uid =>
    some ⟨index, pid, uid⟩

def calls (trap : SignalTrap) : List Call :=
  trap.runs.map ArmRun.call ++ (trap.activity.claim trap.slots).toList

structure Posted (trap : SignalTrap) : Prop where
  /-- the pid in the slot is the last delivery's -/
  latest : ∀ number delivery, trap.deliveries[number]? = some delivery →
    number ≤ (trap.slots delivery.index).pendingPid.delivery ∧
      ∃ last : Delivery,
        trap.deliveries[(trap.slots delivery.index).pendingPid.delivery]? = some last ∧
        last.index = delivery.index ∧ (trap.slots delivery.index).pendingPid.value = last.pid
  /-- and so is the uid, once it is stored -/
  paired : ∀ number delivery, trap.deliveries[number]? = some delivery →
    (trap.slots delivery.index).pendingPid.delivery = number → delivery.progress ≠ .storedPid →
      (trap.slots delivery.index).pendingUid = ⟨delivery.uid, number⟩
  /-- no other one is still at its stores -/
  single : ∀ number delivery, trap.deliveries[number]? = some delivery → delivery.storing = true →
    (trap.slots delivery.index).pendingPid.delivery = number
  whole : ∀ call ∈ trap.calls, ∃ delivery : Delivery,
    trap.deliveries[call.pid.delivery]? = some delivery ∧ delivery.index = call.index ∧
      delivery.storing = false ∧ call.pid.value = delivery.pid ∧
        call.uid = ⟨delivery.uid, call.pid.delivery⟩
  ordered : trap.calls.Pairwise fun call later =>
    call.index = later.index → call.pid.delivery < later.pid.delivery
  /-- what is pending has been in no call -/
  fresh : ∀ index, (trap.slots index).pending = true → ∃ (number : Nat) (delivery : Delivery),
    trap.deliveries[number]? = some delivery ∧ delivery.index = index ∧
      ∀ call ∈ trap.calls, call.index = index → call.pid.delivery < number
  kept : ∀ (number : Nat) (delivery : Delivery), trap.deliveries[number]? = some delivery →
    delivery.storing = false → (trap.slots delivery.index).pending = true ∨
      ∃ (position : Nat) (call : Call), trap.calls[position]? = some call ∧
        call.index = delivery.index ∧ delivery.runsBefore ≤ position ∧ number ≤ call.pid.delivery
  before : ∀ delivery ∈ trap.deliveries, delivery.runsBefore ≤ trap.runs.length

theorem Posted.start : start.Posted where
  latest number delivery h := by cases h
  paired number delivery h := by cases h
  single number delivery h := by cases h
  whole call h := by cases h
  ordered := .nil
  fresh index h := by cases h
  kept number delivery h := by cases h
  before delivery h := by cases h

/-- A step that changes no slot but `running` and `handler`, no delivery and no call. -/
theorem Posted.of_same (h : trap.Posted)
    (hslots : ∀ index, (trap'.slots index).pending = (trap.slots index).pending ∧
      (trap'.slots index).pendingPid = (trap.slots index).pendingPid ∧
        (trap'.slots index).pendingUid = (trap.slots index).pendingUid)
    (hdeliveries : trap'.deliveries = trap.deliveries) (hcalls : trap'.calls = trap.calls)
    (hruns : trap.runs.length ≤ trap'.runs.length) : trap'.Posted := by
  have hpending := fun index => (hslots index).1
  have hpid := fun index => (hslots index).2.1
  have huid := fun index => (hslots index).2.2
  refine ⟨?_, ?_, ?_, ?_, ?_, ?_, ?_, ?_⟩
  all_goals simp only [hdeliveries, hcalls, hpending, hpid, huid]
  · exact h.latest
  · exact h.paired
  · exact h.single
  · exact h.whole
  · exact h.ordered
  · exact h.fresh
  · exact h.kept
  · exact fun delivery hdelivery => Nat.le_trans (h.before delivery hdelivery) hruns

theorem claim_visits {activity : Activity} {slots : Nat → Slot} {call : Call}
    (h : activity.claim slots = some call) : activity.visits call.index = true := by
  cases activity
  all_goals
    simp only [Activity.claim, Option.some.injEq, reduceCtorEq] at h
    try subst h
    try simp [Activity.visits]

theorem nextIndex_claim (index : Nat) (slots : Nat → Slot) :
    (nextIndex index).claim slots = none := by
  unfold nextIndex
  split <;> rfl

/-- The worker's step keeps the calls, or it claims what is pending. -/
theorem work_calls (hstep : trap.work = some trap') :
    (trap'.calls = trap.calls ∧
        ∀ index, (trap'.slots index).pending = (trap.slots index).pending) ∨
      ∃ index, (trap.activity = .swapPending index ∨ trap.activity = .swapAgain index) ∧
        (trap.slots index).pending = true ∧
        trap'.calls = trap.calls ++
          [⟨index, (trap.slots index).pendingPid, (trap.slots index).pendingUid⟩] ∧
        ∀ other, (trap'.slots other).pending =
          (decide (other ≠ index) && (trap.slots other).pending) := by
  cases hactivity : trap.activity
  case swapPending index =>
    simp only [SignalTrap.work, hactivity, setSlot] at hstep
    split at hstep
    case isTrue hpending =>
      obtain rfl := Option.some.inj hstep
      refine .inr ⟨index, .inl rfl, hpending, ?_, fun other => ?_⟩
      · simp [calls, hactivity, Activity.claim]
      · by_cases hother : other = index <;> simp [hother]
    case isFalse =>
      obtain rfl := Option.some.inj hstep
      exact .inl ⟨by rw [calls, nextIndex_claim, calls, hactivity]; rfl, fun _ => rfl⟩
  case swapAgain index =>
    simp only [SignalTrap.work, hactivity, setSlot] at hstep
    split at hstep
    case isTrue hpending =>
      obtain rfl := Option.some.inj hstep
      refine .inr ⟨index, .inr rfl, hpending, ?_, fun other => ?_⟩
      · simp [calls, hactivity, Activity.claim]
      · by_cases hother : other = index <;> simp [hother]
    case isFalse =>
      obtain rfl := Option.some.inj hstep
      exact .inl ⟨by simp [calls, hactivity, Activity.claim], fun _ => rfl⟩
  all_goals
    simp only [SignalTrap.work, hactivity, setSlot, spawnRun, reduceCtorEq] at hstep
    try split at hstep
  all_goals
    obtain rfl := Option.some.inj hstep
    left
    refine ⟨?_, ?_⟩
    · simp only [calls, hactivity, nextIndex_claim] <;> simp [Activity.claim, ArmRun.call]
    · intro other
      grind

theorem storing_eq_false {index : Nat} (h : trap.storing index = false) {delivery : Delivery}
    (hdelivery : delivery ∈ trap.deliveries) (hindex : delivery.index = index) :
    delivery.storing = false := by
  have := List.any_eq_false.mp h delivery hdelivery
  simpa [hindex] using this

/-- The worker claims a pair that no handler is storing. -/
theorem Posted.claim (h : trap.Posted) {index : Nat} (hpending : (trap.slots index).pending = true)
    (hstoring : trap.storing index = false) (hdeliveries : trap'.deliveries = trap.deliveries)
    (hruns : trap.runs.length ≤ trap'.runs.length)
    (hcalls : trap'.calls = trap.calls ++
      [⟨index, (trap.slots index).pendingPid, (trap.slots index).pendingUid⟩])
    (hslots : ∀ other, (trap'.slots other).pendingPid = (trap.slots other).pendingPid ∧
      (trap'.slots other).pendingUid = (trap.slots other).pendingUid)
    (hswapped : ∀ other, (trap'.slots other).pending =
      (decide (other ≠ index) && (trap.slots other).pending)) : trap'.Posted := by
  have hpid := fun other => (hslots other).1
  have huid := fun other => (hslots other).2
  obtain ⟨number, delivery, hdelivery, hindex, hnew⟩ := h.fresh index hpending
  obtain ⟨hle, last, hlast, hlastIndex, hvalue⟩ := h.latest number delivery hdelivery
  rw [hindex] at hle hlast hlastIndex hvalue
  have hdone : last.storing = false :=
    storing_eq_false hstoring (List.mem_of_getElem? hlast) hlastIndex
  have hpaired : (trap.slots index).pendingUid =
      ⟨last.uid, (trap.slots index).pendingPid.delivery⟩ := by
    have := h.paired _ last hlast
    rw [hlastIndex] at this
    refine this rfl ?_
    rintro hprogress
    simp [Delivery.storing, hprogress] at hdone
  refine ⟨?_, ?_, ?_, ?_, ?_, ?_, ?_, ?_⟩
  all_goals simp only [hdeliveries, hcalls, hpid, huid, hswapped]
  · exact h.latest
  · exact h.paired
  · exact h.single
  · intro call hcall
    rcases List.mem_append.mp hcall with hcall | hcall
    · exact h.whole call hcall
    · rw [List.mem_singleton] at hcall
      subst hcall
      exact ⟨last, hlast, hlastIndex, hdone, hvalue, hpaired⟩
  · refine List.pairwise_append.mpr ⟨h.ordered, List.pairwise_singleton .., ?_⟩
    intro call hcall later hlater
    rw [List.mem_singleton] at hlater
    subst hlater
    intro hcallIndex
    exact Nat.lt_of_lt_of_le (hnew call hcall hcallIndex) hle
  · intro other hother
    rw [Bool.and_eq_true, decide_eq_true_eq] at hother
    obtain ⟨number, delivery, hdelivery, hindex, hnew⟩ := h.fresh other hother.2
    refine ⟨number, delivery, hdelivery, hindex, fun call hcall hcallIndex => ?_⟩
    rcases List.mem_append.mp hcall with hcall | hcall
    · exact hnew call hcall hcallIndex
    · rw [List.mem_singleton] at hcall
      subst hcall
      exact absurd hcallIndex.symm hother.1
  · intro number delivery hdelivery hdone
    rcases h.kept number delivery hdelivery hdone with hold | ⟨position, call, hcall, hkept⟩
    · by_cases hother : delivery.index = index
      · refine .inr ⟨trap.calls.length, _, List.getElem?_concat_length, hother.symm, ?_, ?_⟩
        · have hbefore := h.before delivery (List.mem_of_getElem? hdelivery)
          simp only [calls, List.length_append, List.length_map]
          omega
        · exact hother ▸ (h.latest number delivery hdelivery).1
      · exact .inl (by simp [hother, hold])
    · refine .inr ⟨position, call, ?_, hkept⟩
      rw [List.getElem?_append_left (List.getElem?_eq_some_iff.mp hcall).1, hcall]
  · exact fun delivery hdelivery => Nat.le_trans (h.before delivery hdelivery) hruns

theorem Posted.work (h : trap.Posted) (hallowed : undisturbed .work trap = true)
    (hstep : trap.work = some trap') : trap'.Posted := by
  obtain ⟨hdeliveries, -, -, hruns, hslots⟩ := work_keeps hstep
  rcases work_calls hstep with ⟨hcalls, hpending⟩ | ⟨index, hactivity, hpending, hcalls, hswapped⟩
  · exact h.of_same (fun index => ⟨hpending index, (hslots index).2⟩) hdeliveries hcalls hruns
  · refine h.claim hpending ?_ hdeliveries hruns hcalls (fun other => (hslots other).2) hswapped
    rcases hactivity with hactivity | hactivity
    all_goals simpa [undisturbed, hactivity, hpending] using hallowed

/-- A claim is about what the worker has still to load. -/
theorem claim_congr {activity : Activity} {slots slots' : Nat → Slot}
    (hpid : ∀ index, activity.awaitsPid index = true →
      (slots' index).pendingPid = (slots index).pendingPid)
    (huid : ∀ index, activity.awaitsUid index = true →
      (slots' index).pendingUid = (slots index).pendingUid) :
    activity.claim slots' = activity.claim slots := by
  cases activity
  all_goals simp_all [Activity.claim, Activity.awaitsPid, Activity.awaitsUid]

theorem calls_congr (hactivity : trap'.activity = trap.activity) (hruns : trap'.runs = trap.runs)
    (hpid : ∀ index, trap.activity.awaitsPid index = true →
      (trap'.slots index).pendingPid = (trap.slots index).pendingPid)
    (huid : ∀ index, trap.activity.awaitsUid index = true →
      (trap'.slots index).pendingUid = (trap.slots index).pendingUid) :
    trap'.calls = trap.calls := by
  rw [calls, calls, hactivity, hruns, claim_congr hpid huid]

theorem getElem?_concat_eq_some {deliveries : List Delivery} {later delivery : Delivery}
    {number : Nat} : (deliveries ++ [later])[number]? = some delivery ↔
      deliveries[number]? = some delivery ∨ number = deliveries.length ∧ later = delivery := by
  rw [List.getElem?_append]
  split
  case isTrue hlt => simp [Nat.ne_of_lt hlt]
  case isFalse hge =>
    rw [List.getElem?_eq_none (Nat.le_of_not_lt hge), List.getElem?_singleton]
    grind

theorem Posted.deliver (h : trap.Posted) {signal : Nat} {pid uid : Int}
    (hallowed : undisturbed (.deliver signal pid uid) trap = true)
    (hstep : trap.deliver signal pid uid = some trap') : trap'.Posted := by
  unfold SignalTrap.deliver at hstep
  split at hstep
  case h_1 =>
    cases hstep
    exact h
  case h_2 index hindex =>
    simp only [undisturbed, hindex, Bool.and_eq_true, Bool.not_eq_true'] at hallowed
    obtain ⟨hstoring, hawaits⟩ := hallowed
    dsimp only at hstep
    split at hstep
    case isTrue => cases hstep
    case isFalse hhandler =>
      cases hstep
      generalize hlater : (⟨index, pid, uid, .storedPid, trap.runs.length⟩ : Delivery) = later
      have hlast : (trap.deliveries ++ [later])[trap.deliveries.length]? = some later :=
        List.getElem?_concat_length
      have hlt : ∀ {number : Nat} {delivery : Delivery}, trap.deliveries[number]? = some delivery →
          number < trap.deliveries.length := fun hget => (List.getElem?_eq_some_iff.mp hget).1
      have hquiet : ∀ {number : Nat} {delivery : Delivery},
          trap.deliveries[number]? = some delivery → delivery.index = index →
            delivery.storing = false :=
        fun hget => storing_eq_false hstoring (List.mem_of_getElem? hget)
      have hcalls : calls { trap.setSlot index { trap.slots index with
            pendingPid := ⟨pid, trap.deliveries.length⟩ } with
          deliveries := trap.deliveries ++ [later] } = trap.calls := by
        refine calls_congr rfl rfl ?_ ?_
        · intro other hother
          have hne : other ≠ index := fun heq => by simp [← heq, hother] at hawaits
          simp [hne]
        · intro other _
          simp only [setSlot_slots]
          split <;> simp_all
      refine ⟨?_, ?_, ?_, ?_, ?_, ?_, ?_, ?_⟩
      all_goals
        simp only [hcalls, setSlot_slots, getElem?_concat_eq_some]
      · rintro number delivery (hget | ⟨rfl, rfl⟩)
        · have := h.latest number delivery hget
          grind
        · grind
      · rintro number delivery (hget | ⟨rfl, rfl⟩)
        · have := h.paired number delivery hget
          grind
        · grind
      · rintro number delivery (hget | ⟨rfl, rfl⟩)
        · have := h.single number delivery hget
          grind
        · grind
      · intro call hcall
        obtain ⟨delivery, hget, hwhole⟩ := h.whole call hcall
        exact ⟨delivery, .inl hget, hwhole⟩
      · exact h.ordered
      · intro other hpending
        obtain ⟨number, delivery, hget, hfresh⟩ := h.fresh other (by grind)
        exact ⟨number, delivery, .inl hget, hfresh⟩
      · rintro number delivery (hget | ⟨rfl, rfl⟩) hdone
        · have := h.kept number delivery hget hdone
          grind
        · grind [Delivery.storing]
      · intro delivery hdelivery
        rcases List.mem_append.mp hdelivery with hdelivery | hdelivery
        · exact h.before delivery hdelivery
        · grind [setSlot]

/-- A handler goes on: it stores the uid where the pid is its own, or makes its pair pending. -/
theorem Posted.advance (h : trap.Posted) {number : Nat} {delivery later : Delivery}
    (hget : trap.deliveries[number]? = some delivery)
    (hdeliveries : trap'.deliveries = trap.deliveries.set number later)
    (hsame : later.index = delivery.index ∧ later.pid = delivery.pid ∧ later.uid = delivery.uid)
    (hlater : later.progress ≠ .storedPid)
    (hdone : delivery.storing = false →
      later.storing = false ∧ later.runsBefore = delivery.runsBefore)
    (hbefore : later.runsBefore ≤ trap.runs.length)
    (hpid : ∀ index, (trap'.slots index).pendingPid = (trap.slots index).pendingPid)
    (huid : ∀ index, (trap'.slots index).pendingUid =
      if index = delivery.index ∧ delivery.progress = .storedPid then ⟨delivery.uid, number⟩
      else (trap.slots index).pendingUid)
    (hpending : ∀ index, (trap'.slots index).pending = true ↔ (trap.slots index).pending = true ∨
      index = delivery.index ∧ delivery.storing = true ∧ later.storing = false)
    (hcalls : trap'.calls = trap.calls) (hruns : trap'.runs = trap.runs) : trap'.Posted := by
  obtain ⟨hlt, -⟩ := List.getElem?_eq_some_iff.mp hget
  have hself : (trap.deliveries.set number later)[number]? = some later :=
    List.getElem?_set_self hlt
  have hothers : ∀ {position : Nat}, position ≠ number →
      (trap.deliveries.set number later)[position]? = trap.deliveries[position]? :=
    fun hne => List.getElem?_set_ne hne.symm
  have hlatest := h.latest number delivery hget
  have hpaired := h.paired number delivery hget
  have hsingle := h.single number delivery hget
  have hstoring : delivery.progress = .storedPid → delivery.storing = true := by
    intro hprogress
    simp [Delivery.storing, hprogress]
  refine ⟨?_, ?_, ?_, ?_, ?_, ?_, ?_, ?_⟩
  all_goals simp only [hpid, huid, hpending, hdeliveries, hcalls, hruns]
  · intro position other hother
    have hold := h.latest position other
    have hlast : ∀ (place : Nat) (last : Delivery), trap.deliveries[place]? = some last →
        ∃ last' : Delivery, (trap.deliveries.set number later)[place]? = some last' ∧ last'.index = last.index ∧
          last'.pid = last.pid := by
      intro place last hlast
      by_cases hnumber : place = number
      · grind
      · exact ⟨last, (hothers hnumber).trans hlast, rfl, rfl⟩
    by_cases hposition : position = number
    · grind
    · rw [hothers hposition] at hother
      grind
  · intro position other hother
    by_cases hposition : position = number
    · grind
    · rw [hothers hposition] at hother
      have := h.paired position other hother
      grind
  · intro position other hother
    by_cases hposition : position = number
    · grind
    · rw [hothers hposition] at hother
      exact h.single position other hother
  · intro call hcall
    obtain ⟨found, hfound, hwhole⟩ := h.whole call hcall
    by_cases hposition : call.pid.delivery = number
    · grind
    · exact ⟨found, (hothers hposition).trans hfound, hwhole⟩
  · exact h.ordered
  · rintro index (hold | ⟨rfl, hwas, -⟩)
    · obtain ⟨position, found, hfound, hindex, hnew⟩ := h.fresh index hold
      by_cases hposition : position = number
      · grind
      · exact ⟨position, found, (hothers hposition).trans hfound, hindex, hnew⟩
    · refine ⟨number, later, hself, hsame.1, fun call hcall hindex => ?_⟩
      -- what has been claimed was stored, and this delivery, the last, is not yet
      obtain ⟨found, hfound, hfoundIndex, hfoundDone, -⟩ := h.whole call hcall
      have hle := (h.latest _ found hfound).1
      rw [hfoundIndex, hindex, hsingle hwas] at hle
      refine Nat.lt_of_le_of_ne hle ?_
      rintro heq
      rw [heq, hget] at hfound
      obtain rfl := Option.some.inj hfound
      rw [hwas] at hfoundDone
      cases hfoundDone
  · intro position other hother hotherDone
    by_cases hposition : position = number
    · have := h.kept number delivery hget
      grind
    · rw [hothers hposition] at hother
      have := h.kept position other hother hotherDone
      grind
  · intro other hother
    rcases List.mem_or_eq_of_mem_set hother with hother | rfl
    · exact h.before other hother
    · exact hbefore

theorem Posted.handle (h : trap.Posted) {number : Nat}
    (hallowed : undisturbed (.handle number) trap = true)
    (hstep : trap.handle number = some trap') : trap'.Posted := by
  unfold SignalTrap.handle at hstep
  split at hstep
  case h_1 => cases hstep
  case h_2 delivery hget =>
    simp only [undisturbed, hget] at hallowed
    have hbefore := h.before delivery (List.mem_of_getElem? hget)
    split at hstep
    all_goals
      rename_i hprogress
      cases hstep
    · refine h.advance hget rfl ⟨rfl, rfl, rfl⟩ (by simp) (by simp [Delivery.storing, hprogress])
        hbefore ?_ ?_ ?_ ?_ rfl
      · intro index
        simp only [setDelivery, setSlot_slots]
        grind
      · intro index
        simp only [setDelivery, setSlot_slots]
        grind
      · intro index
        simp only [setDelivery, setSlot_slots]
        grind [Delivery.storing]
      · refine calls_congr rfl rfl ?_ ?_
        · intro other _
          simp only [setDelivery, setSlot_slots]
          split <;> simp_all
        · intro other hother
          have hne : other ≠ delivery.index := by
            rintro rfl
            simp [hprogress, hother] at hallowed
          simp [setDelivery, hne]
    · refine h.advance hget rfl ⟨rfl, rfl, rfl⟩ (by simp) (by simp [Delivery.storing, hprogress])
        (Nat.le_refl _) ?_ ?_ ?_ ?_ rfl
      · intro index
        simp only [setDelivery, setSlot_slots]
        grind
      · intro index
        simp only [setDelivery, setSlot_slots]
        grind
      · intro index
        simp only [setDelivery, setSlot_slots]
        grind [Delivery.storing]
      · refine calls_congr rfl rfl ?_ ?_
        all_goals
          intro other _
          simp only [setDelivery, setSlot_slots]
          split <;> simp_all
    · refine h.advance hget rfl ⟨rfl, rfl, rfl⟩ (by simp) (by simp [Delivery.storing]) hbefore
        (fun _ => rfl) ?_ ?_ rfl rfl
      · intro index
        simp [setDelivery, hprogress]
      · intro index
        simp [setDelivery, hprogress, Delivery.storing]

/-- A run goes on with the arguments it has. -/
theorem Posted.setPhase (h : trap.Posted) {number : Nat} {run : ArmRun}
    (hrun : trap.runs[number]? = some run) (hactivity : trap.activity = .elsewhere) {phase : Phase}
    {next : Activity} (hnext : next.claim trap.slots = none) :
    (trap.setPhase number run phase next).Posted := by
  have hcall : (trap.runs.set number { run with phase := phase }).map ArmRun.call =
      trap.runs.map ArmRun.call := by
    obtain ⟨hlt, rfl⟩ := List.getElem?_eq_some_iff.mp hrun
    rw [List.map_set]
    refine List.ext_getElem? fun position => ?_
    rw [List.getElem?_set]
    split
    case isTrue heq => simp [← heq, hlt, ArmRun.call]
    case isFalse => rfl
  refine h.of_same (fun _ => ⟨rfl, rfl, rfl⟩) rfl ?_ ?_
  · show _ ++ (next.claim trap.slots).toList = _ ++ (trap.activity.claim trap.slots).toList
    rw [hnext, hactivity]
    exact congrArg (· ++ _) hcall
  · exact Nat.le_of_eq (List.length_set ..).symm

theorem Posted.step (h : trap.Posted) {event : Event} (hallowed : undisturbed event trap = true)
    (hstep : step event trap = some trap') : trap'.Posted := by
  cases event with
  | install index arm =>
    simp only [SignalTrap.step, SignalTrap.install, Option.ite_none_right_eq_some] at hstep
    obtain ⟨-, hstep⟩ := hstep
    cases hstep
    refine h.of_same ?_ rfl (calls_congr rfl rfl ?_ ?_) (Nat.le_refl _)
    all_goals
      intro other
      simp only [setSlot_slots]
      grind
  | deliver signal pid uid => exact h.deliver hallowed hstep
  | handle number => exact h.handle hallowed hstep
  | work => exact h.work hallowed hstep
  | wake =>
    simp only [SignalTrap.step] at hstep
    split at hstep
    case h_1 hactivity =>
      rw [Option.ite_none_right_eq_some] at hstep
      obtain ⟨-, hstep⟩ := hstep
      cases hstep
      refine h.of_same (fun _ => ⟨rfl, rfl, rfl⟩) rfl ?_ (Nat.le_refl _)
      rw [calls, calls, hactivity]
      rfl
    case h_2 => cases hstep
  | enterArm number =>
    simp only [SignalTrap.step] at hstep
    split at hstep
    case h_1 run hactivity hrun =>
      split_ifs at hstep
      all_goals
        cases hstep
        exact h.setPhase hrun hactivity rfl
    case h_2 => cases hstep
  | returnArm number =>
    simp only [SignalTrap.step] at hstep
    split at hstep
    case h_1 run hactivity hrun =>
      rw [Option.ite_none_right_eq_some] at hstep
      obtain ⟨-, hstep⟩ := hstep
      cases hstep
      exact h.setPhase hrun hactivity rfl
    case h_2 => cases hstep

/-! ### What a run delivers -/

theorem Coherent.of_reaches (h : Reaches trap) : trap.Coherent :=
  h.invariant .start fun _ _ _ h _ hstep => h.step hstep

/-- Where every step is undisturbed, the trap delivers what it is for. -/
theorem delivers_of_undisturbed
    (h : Run step (fun event trap => undisturbed event trap = true) start trap) :
    trap.Delivers := by
  have hcoherent := Coherent.of_reaches h.reachable
  have hposted : trap.Posted :=
    h.invariant .start fun _ _ _ h hallowed hstep => h.step hallowed hstep
  refine ⟨alive_le_one hcoherent, ?_, ?_, fun index => hcoherent.awake, ?_⟩
  · intro run hrun
    obtain ⟨delivery, hget, hindex, -, hpid, huid⟩ :=
      hposted.whole run.call (List.mem_append_left _ (List.mem_map_of_mem hrun))
    exact ⟨delivery, hget, hindex, hpid, huid⟩
  · intro number delivery hget hdone
    rcases hposted.kept number delivery hget hdone with hpending | ⟨position, call, hcall, hkept⟩
    · exact .inl (hcoherent.noticed _ hpending).2
    · rw [calls, List.getElem?_append] at hcall
      split at hcall
      · rw [List.getElem?_map, Option.map_eq_some_iff] at hcall
        obtain ⟨run, hrun, rfl⟩ := hcall
        exact .inr ⟨position, run, hrun, hkept⟩
      · -- the worker has claimed the pair, and is on its way to the run
        refine .inl (.inr (.inl ?_))
        have hclaim := List.mem_of_getElem? hcall
        rw [Option.mem_toList] at hclaim
        exact hkept.1 ▸ claim_visits hclaim
  · have hordered := (List.pairwise_append.mp hposted.ordered).1
    rw [List.pairwise_map] at hordered
    refine hordered.imp_of_mem ?_
    intro run later hrun hlater hlt heq
    obtain ⟨delivery, hget, hindex, -⟩ :=
      hposted.whole run.call (List.mem_append_left _ (List.mem_map_of_mem hrun))
    obtain ⟨other, hother, hotherIndex, -⟩ :=
      hposted.whole later.call (List.mem_append_left _ (List.mem_map_of_mem hlater))
    have hsame : delivery = other := by
      rw [show run.call.pid.delivery = later.call.pid.delivery from heq, hother] at hget
      exact (Option.some.inj hget).symm
    exact Nat.ne_of_lt (hlt (hindex.symm.trans (hsame ▸ hotherIndex))) heq

/-- The terminal hangs up twice before the dispatcher wakes: the later delivery is the one that a
run carries. -/
theorem delivered_last :
    ∃ trap, follow step undisturbed
        ([.install 0 1, .deliver 1 100 1000, .handle 0, .handle 0, .handle 0, .wake,
          .deliver 1 200 0, .handle 1, .handle 1] ++ List.replicate 8 .work) start = some trap ∧
      trap.Delivers ∧ trap.runs.map (·.pid.value) = [200] := by
  obtain ⟨trap, htrap⟩ : ∃ trap, follow step undisturbed
      ([.install 0 1, .deliver 1 100 1000, .handle 0, .handle 0, .handle 0, .wake,
        .deliver 1 200 0, .handle 1, .handle 1] ++ List.replicate 8 .work) start = some trap :=
    ⟨_, rfl⟩
  have hdelivers := delivers_of_undisturbed (.of_follow (fun _ _ h => h) .start htrap)
  refine ⟨trap, htrap, hdelivers, ?_⟩
  cases htrap
  rfl

/-- The terminal hangs up, and once the worker has loaded the pid of its claim, another process
sends the same signal: the arm is called with the process of the one and the user of the other. -/
theorem torn_pair : ¬∀ trap, Reaches trap → trap.Delivers := by
  intro hclaim
  obtain ⟨trap, htrap⟩ : ∃ trap, follow step (fun _ _ => true)
      ([.install 0 1, .deliver 1 100 1000, .handle 0, .handle 0, .handle 0, .wake] ++
        List.replicate 6 .work ++ [.deliver 1 200 0, .handle 1, .handle 1, .handle 1] ++
        List.replicate 2 .work) start = some trap := ⟨_, rfl⟩
  have hwhole := (hclaim trap (.of_follow (fun _ _ _ => trivial) .start htrap)).whole
  cases htrap
  obtain ⟨delivery, hget, -, -, huid⟩ := hwhole _ (List.mem_singleton_self _)
  cases hget
  cases huid

end SignalTrap

end Quilon.Runtime
