import Quilon.Runtime.AtomicBinding
import Mathlib.Algebra.BigOperators.Group.List.Basic

/-!
# Atomic sections are alone

While no fiber enters or leaves a guard, parks or ends inside a section, a worker's `DEPTH` is the
number of sections its running fiber has open.  So at most one worker is inside a section, the lock
is held exactly then, and the accesses of a section are not mixed with those of another: the memory is
what the completed sections leave, run one after the other.

Main results:

* `Guarded.step` — the invariant, for the steps that `undisturbed` allows;
* `sections_exclusive` — exclusion, the lock and the order of the sections, over whole runs.
-/

namespace Quilon.Runtime

variable {Value : Type}

/-- The memory after the accesses, each read with the value it finds. -/
def Replays (memory : Nat → Value) : List (Access Value) → (Nat → Value) → Prop
  | [], after => after = memory
  | .read binding value :: accesses, after =>
    memory binding = value ∧ Replays memory accesses after
  | .write binding value :: accesses, after =>
    Replays (Function.update memory binding value) accesses after

theorem Replays.append {memory between after : Nat → Value} {accesses later : List (Access Value)}
    (h : Replays memory accesses between) (hlater : Replays between later after) :
    Replays memory (accesses ++ later) after := by
  induction accesses generalizing memory with
  | nil =>
    obtain rfl : between = memory := h
    exact hlater
  | cons access accesses ih =>
    cases access with
    | read binding value => exact ⟨h.1, ih h.2⟩
    | write binding value => exact ih h

/-- Whether a fiber that enters or leaves a guard, is abandoned by one, parks or ends has no section
open. -/
def Bindings.undisturbed (move : Nat × SectionEvent Value) (system : Bindings Value) : Bool :=
  match move.2 with
  | .enterGuard | .leaveGuard | .abandon _ | .park | .finish =>
    (system.workers move.1).running.all (·.open = 0)
  | _ => true

structure Bindings.Guarded (memory : Nat → Value) (system : Bindings Value) : Prop where
  parked : ∀ index strand, strand ∈ (system.workers index).parked →
    strand.open = 0 ∧ strand.accesses = []
  running : ∀ index strand, (system.workers index).running = some strand →
    (system.workers index).depth = strand.open ∧ (strand.open = 0 → strand.accesses = [])
  idle : ∀ index, (system.workers index).running = none → (system.workers index).depth = 0
  lock : system.lock = true ↔ ∃ index, 0 < (system.workers index).depth
  alone : ∀ index other, 0 < (system.workers index).depth → 0 < (system.workers other).depth →
    index = other
  settled : system.lock = false → Replays memory system.completed.flatten system.memory
  pending : ∀ index strand, (system.workers index).running = some strand → 0 < strand.open →
    Replays memory (system.completed.flatten ++ strand.accesses) system.memory

namespace Bindings

variable {memory : Nat → Value} {system system' : Bindings Value}

theorem setWorker_workers (index other : Nat) (worker : Multiplexer Value) :
    (system.setWorker index worker).workers other =
      if other = index then worker else system.workers other :=
  Function.update_apply ..

/-- A worker in the place of one with the same depth, whose running fiber has as many sections open
and the same accesses. -/
theorem Guarded.replace (h : system.Guarded memory) {index : Nat} {worker : Multiplexer Value}
    (hdepth : worker.depth = (system.workers index).depth)
    (hparked : ∀ strand ∈ worker.parked, strand.open = 0 ∧ strand.accesses = [])
    (hrunning : ∀ strand, worker.running = some strand →
      worker.depth = strand.open ∧ (strand.open = 0 → strand.accesses = []) ∧
        (0 < strand.open → ∃ old, (system.workers index).running = some old ∧
          0 < old.open ∧ strand.accesses = old.accesses))
    (hidle : worker.running = none → worker.depth = 0) :
    (system.setWorker index worker).Guarded memory := by
  have hdepths : ∀ other, ((system.setWorker index worker).workers other).depth =
      (system.workers other).depth := by
    intro other
    rw [setWorker_workers]
    split
    case isTrue hother => rw [hother, hdepth]
    case isFalse => rfl
  refine ⟨?_, ?_, ?_, ?_, ?_, h.settled, ?_⟩
  · intro other strand hstrand
    rw [setWorker_workers] at hstrand
    split at hstrand
    · exact hparked strand hstrand
    · exact h.parked other strand hstrand
  · intro other strand hstrand
    rw [setWorker_workers] at hstrand ⊢
    split at hstrand
    · obtain ⟨hopen, hempty, -⟩ := hrunning strand hstrand
      simp_all
    · rename_i hother
      rw [if_neg hother]
      exact h.running other strand hstrand
  · intro other hnone
    rw [setWorker_workers] at hnone ⊢
    split at hnone
    · simp_all
    · rename_i hother
      rw [if_neg hother]
      exact h.idle other hnone
  · simp only [hdepths]
    exact h.lock
  · simp only [hdepths]
    exact h.alone
  · intro other strand hstrand hopen
    rw [setWorker_workers] at hstrand
    split at hstrand
    · obtain ⟨old, hold, holdOpen, haccesses⟩ := (hrunning strand hstrand).2.2 hopen
      rw [haccesses]
      exact h.pending index old hold holdOpen
    · exact h.pending other strand hstrand hopen

/-- Only the worker that is inside has a depth, so its next state decides about the lock. -/
theorem Guarded.change (h : system.Guarded memory) {index : Nat} {worker : Multiplexer Value}
    {strand : Strand Value} {lock : Bool} {after : Nat → Value}
    {completed : List (List (Access Value))}
    (hothers : ∀ other, other ≠ index → (system.workers other).depth = 0)
    (hparked : worker.parked = (system.workers index).parked)
    (hrunning : worker.running = some strand) (hdepth : worker.depth = strand.open)
    (hempty : strand.open = 0 → strand.accesses = []) (hlock : lock = true ↔ 0 < strand.open)
    (hreplays : Replays memory (completed.flatten ++ strand.accesses) after) :
    Guarded memory { system.setWorker index worker with
      lock := lock, memory := after, completed := completed } := by
  have hself : ∀ other, 0 < ((system.setWorker index worker).workers other).depth →
      other = index := by
    intro other hpos
    by_contra hother
    rw [setWorker_workers, if_neg hother, hothers other hother] at hpos
    cases hpos
  have hindex : (system.setWorker index worker).workers index = worker := Function.update_self ..
  refine ⟨?_, ?_, ?_, ?_, ?_, ?_, ?_⟩
  · intro other found hfound
    have hfound : found ∈ ((system.setWorker index worker).workers other).parked := hfound
    rw [setWorker_workers] at hfound
    split at hfound
    · rw [hparked] at hfound
      exact h.parked index found hfound
    · exact h.parked other found hfound
  · intro other found hfound
    by_cases hother : other = index
    · subst hother
      rw [show ((system.setWorker other worker).workers other) = worker from hindex] at hfound ⊢
      rw [hrunning] at hfound
      cases hfound
      exact ⟨hdepth, hempty⟩
    · rw [show ((system.setWorker index worker).workers other) = system.workers other from
        Function.update_of_ne hother ..] at hfound ⊢
      exact h.running other found hfound
  · intro other hnone
    by_cases hother : other = index
    · subst hother
      rw [show ((system.setWorker other worker).workers other) = worker from hindex,
        hrunning] at hnone
      cases hnone
    · rw [show ((system.setWorker index worker).workers other) = system.workers other from
        Function.update_of_ne hother ..]
      exact hothers other hother
  · show lock = true ↔ ∃ other, 0 < ((system.setWorker index worker).workers other).depth
    rw [hlock]
    constructor
    · intro hopen
      exact ⟨index, by rw [hindex, hdepth]; exact hopen⟩
    · rintro ⟨other, hpos⟩
      obtain rfl := hself other hpos
      rw [hindex, hdepth] at hpos
      exact hpos
  · intro first second hfirst hsecond
    rw [hself first hfirst, hself second hsecond]
  · intro hfree
    have hopen : strand.open = 0 := by
      by_contra hopen
      rw [show lock = false from hfree] at hlock
      exact Bool.false_ne_true (hlock.mpr (Nat.pos_of_ne_zero hopen))
    rw [hempty hopen, List.append_nil] at hreplays
    exact hreplays
  · intro other found hfound hopen
    have hpos : 0 < ((system.setWorker index worker).workers other).depth := by
      by_cases hother : other = index
      · subst hother
        rw [show ((system.setWorker other worker).workers other) = worker from hindex,
          hrunning] at hfound
        cases hfound
        rw [hindex, hdepth]
        exact hopen
      · rw [show ((system.setWorker index worker).workers other) = system.workers other from
          Function.update_of_ne hother ..] at hfound ⊢
        rw [(h.running other found hfound).1]
        exact hopen
    obtain rfl := hself other hpos
    rw [show ((system.setWorker other worker).workers other) = worker from hindex,
      hrunning] at hfound
    cases hfound
    exact hreplays

theorem Guarded.others (h : system.Guarded memory) {index : Nat}
    (hpos : 0 < (system.workers index).depth) :
    ∀ other, other ≠ index → (system.workers other).depth = 0 := by
  intro other hother
  by_contra hdepth
  exact hother (h.alone other index (Nat.pos_of_ne_zero hdepth) hpos)

theorem Guarded.beginSection (h : system.Guarded memory) {index : Nat} {strand : Strand Value}
    (hrunning : (system.workers index).running = some strand)
    (hstep : system.beginSection index strand = some system') : system'.Guarded memory := by
  obtain ⟨hdepth, hempty⟩ := h.running index strand hrunning
  unfold Bindings.beginSection at hstep
  dsimp only at hstep
  split at hstep
  case h_1 own outer hsections =>
    have hopen : Strand.open { strand with sections := (own + 1) :: outer } = strand.open + 1 := by
      simp only [Strand.open, hsections, List.sum_cons]
      omega
    split at hstep
    case isTrue hzero =>
      -- The first section: the lock was free, so nobody is inside.
      split at hstep
      case isTrue => cases hstep
      case isFalse hfree =>
        cases hstep
        have hlock : system.lock = false := by simpa using hfree
        rw [hzero] at hdepth
        refine h.change ?_ rfl rfl ?_ ?_ ?_ ?_
        · intro other _
          by_contra hpos
          exact hfree (h.lock.mpr ⟨other, Nat.pos_of_ne_zero hpos⟩)
        · rw [hopen, ← hdepth]
        · rw [hopen]
          simp
        · rw [hopen]
          simp
        · show Replays memory (system.completed.flatten ++ strand.accesses) system.memory
          rw [hempty hdepth.symm, List.append_nil]
          exact h.settled hlock
    case isFalse hpos =>
      cases hstep
      have hinside : 0 < (system.workers index).depth := Nat.pos_of_ne_zero hpos
      have hlock : system.lock = true := h.lock.mpr ⟨index, hinside⟩
      refine h.change (h.others hinside) rfl rfl ?_ ?_ ?_ ?_
      · rw [hopen, ← hdepth]
      · rw [hopen]
        simp
      · show system.lock = true ↔ _
        rw [hopen, hlock]
        simp
      · rw [hdepth] at hinside
        exact h.pending index strand hrunning hinside
  case h_2 => cases hstep

theorem Guarded.endSection (h : system.Guarded memory) {index : Nat} {strand : Strand Value}
    (hrunning : (system.workers index).running = some strand)
    (hstep : system.endSection index strand = some system') : system'.Guarded memory := by
  obtain ⟨hdepth, -⟩ := h.running index strand hrunning
  unfold Bindings.endSection at hstep
  dsimp only at hstep
  split at hstep
  case h_1 own outer hsections =>
    have hopen : Strand.open { strand with sections := own :: outer } + 1 = strand.open := by
      simp only [Strand.open, hsections, List.sum_cons]
      omega
    have hinside : 0 < (system.workers index).depth := by omega
    have hlock : system.lock = true := h.lock.mpr ⟨index, hinside⟩
    have hpending := h.pending index strand hrunning (by omega)
    have hnext : (system.workers index).depth - 1 =
        Strand.open { strand with sections := own :: outer } := by omega
    split at hstep
    case isTrue hlast =>
      cases hstep
      refine h.change (h.others hinside) rfl rfl ?_ ?_ ?_ ?_
      · exact hnext
      · exact fun _ => rfl
      · have hzero : (system.workers index).depth - 1 = 0 := by omega
        have hstill : Strand.open { sections := own :: outer, accesses := ([] : List (Access Value)) }
            = 0 := hlast
        rw [if_pos hzero, hstill]
        simp
      · show Replays memory ((system.completed ++ [strand.accesses]).flatten ++ []) system.memory
        rw [List.flatten_concat, List.append_nil]
        exact hpending
    case isFalse hmore =>
      cases hstep
      refine h.change (h.others hinside) rfl rfl ?_ ?_ ?_ ?_
      · exact hnext
      · exact fun hzero => absurd hzero hmore
      · rw [if_neg (by omega), hlock]
        simp only [true_iff]
        exact Nat.pos_of_ne_zero hmore
      · exact hpending
  case h_2 => cases hstep

theorem Guarded.access (h : system.Guarded memory) {index : Nat} {strand : Strand Value}
    {access : Access Value} {after : Nat → Value}
    (hrunning : (system.workers index).running = some strand) (hopen : 0 < strand.open)
    (haccess : Replays system.memory [access] after) :
    Guarded memory { system.setRunning index
        { strand with accesses := strand.accesses ++ [access] } with memory := after } := by
  have hdepth := (h.running index strand hrunning).1
  have hinside : 0 < (system.workers index).depth := by omega
  have hsame : Strand.open { strand with accesses := strand.accesses ++ [access] } =
      strand.open := rfl
  refine h.change (h.others hinside) rfl rfl hdepth ?_ ?_ ?_
  · intro hzero
    omega
  · show system.lock = true ↔ _
    rw [hsame, h.lock]
    exact ⟨fun _ => hopen, fun _ => ⟨index, hinside⟩⟩
  · show Replays memory (system.completed.flatten ++ (strand.accesses ++ [access])) after
    rw [← List.append_assoc]
    exact (h.pending index strand hrunning hopen).append haccess

/-- A step outside of every section: the fiber's bodies change, and it has none open before or
after. -/
theorem Guarded.outside (h : system.Guarded memory) {index : Nat} {strand : Strand Value}
    {sections : List Nat} (hrunning : (system.workers index).running = some strand)
    (hopen : strand.open = 0) (hsections : sections.sum = 0) :
    (system.setRunning index { strand with sections := sections }).Guarded memory := by
  obtain ⟨hdepth, hempty⟩ := h.running index strand hrunning
  refine h.replace rfl (h.parked index) ?_ (by simp)
  rintro found ⟨⟩
  refine ⟨?_, fun _ => hempty hopen, fun hpos => ?_⟩
  · show (system.workers index).depth = sections.sum
    rw [hdepth, hopen, hsections]
  · exact absurd hpos (by simp [Strand.open, hsections])

theorem Guarded.stepStrand (h : system.Guarded memory) {index : Nat} {strand : Strand Value}
    {event : SectionEvent Value} (hrunning : (system.workers index).running = some strand)
    (hallowed : undisturbed (index, event) system = true)
    (hstep : stepStrand index strand event system = some system') : system'.Guarded memory := by
  obtain ⟨hdepth, hempty⟩ := h.running index strand hrunning
  unfold undisturbed at hallowed
  rw [hrunning] at hallowed
  cases event with
  | beginSection => exact h.beginSection hrunning hstep
  | endSection => exact h.endSection hrunning hstep
  | read binding =>
    simp only [Bindings.stepStrand] at hstep
    split at hstep
    case isTrue hopen =>
      cases hstep
      exact h.access hrunning hopen ⟨rfl, rfl⟩
    case isFalse => cases hstep
  | write binding value =>
    simp only [Bindings.stepStrand] at hstep
    split at hstep
    case isTrue hopen =>
      cases hstep
      exact h.access hrunning hopen rfl
    case isFalse => cases hstep
  | enterGuard =>
    cases hstep
    have hopen : strand.open = 0 := by simpa using hallowed
    refine h.outside hrunning hopen ?_
    rw [List.sum_cons, Nat.zero_add]
    exact hopen
  | leaveGuard =>
    have hopen : strand.open = 0 := by simpa using hallowed
    simp only [Bindings.stepStrand] at hstep
    split at hstep
    case h_1 own outer rest hsections =>
      cases hstep
      refine h.outside hrunning hopen ?_
      unfold Strand.open at hopen
      rw [hsections, List.sum_cons] at hopen
      omega
    case h_2 => cases hstep
  | abandon bodies =>
    have hopen : strand.open = 0 := by simpa using hallowed
    simp only [Bindings.stepStrand] at hstep
    split at hstep
    case isTrue =>
      cases hstep
      refine h.outside hrunning hopen ?_
      unfold Strand.open at hopen
      rw [← List.sum_take_add_sum_drop strand.sections bodies] at hopen
      omega
    case isFalse => cases hstep
  | park =>
    cases hstep
    have hopen : strand.open = 0 := by simpa using hallowed
    refine h.replace rfl ?_ (by simp) fun _ => hdepth.trans hopen
    intro found hfound
    rcases List.mem_cons.mp hfound with rfl | hfound
    · exact ⟨hopen, hempty hopen⟩
    · exact h.parked index found hfound
  | finish =>
    cases hstep
    have hopen : strand.open = 0 := by simpa using hallowed
    exact h.replace rfl (h.parked index) (by simp) fun _ => hdepth.trans hopen
  | start => cases hstep
  | resume position => cases hstep

theorem Guarded.step (h : system.Guarded memory) {move : Nat × SectionEvent Value}
    (hallowed : undisturbed move system = true)
    (hstep : Bindings.step move system = some system') : system'.Guarded memory := by
  obtain ⟨index, event⟩ := move
  unfold Bindings.step at hstep
  dsimp only at hstep
  split at hstep
  case h_1 strand event hrunning => exact h.stepStrand hrunning hallowed hstep
  case h_2 hnone =>
    cases hstep
    refine h.replace rfl (h.parked index) ?_ (by simp)
    rintro found ⟨⟩
    refine ⟨h.idle index hnone, fun _ => rfl, fun hpos => ?_⟩
    cases hpos
  case h_3 position hnone =>
    obtain ⟨strand, hstrand, rfl⟩ := Option.map_eq_some_iff.mp hstep
    obtain ⟨hopen, haccesses⟩ := h.parked index strand (List.mem_of_getElem? hstrand)
    refine h.replace rfl ?_ ?_ (by simp)
    · intro found hfound
      exact h.parked index found (List.mem_of_mem_eraseIdx hfound)
    · rintro found ⟨⟩
      refine ⟨(h.idle index hnone).trans hopen.symm, fun _ => haccesses, fun hpos => ?_⟩
      exact absurd hpos (by omega)
  case h_4 => cases hstep

theorem start_guarded (memory : Nat → Value) : (start memory).Guarded memory := by
  refine ⟨?_, ?_, ?_, ?_, ?_, fun _ => rfl, ?_⟩ <;> simp [start]

end Bindings

/-- The events at which a fiber's turn or one of its bodies ends. -/
def SectionEvent.ends : SectionEvent Value → Bool
  | .leaveGuard | .abandon _ | .park | .finish => true
  | _ => false

/-- In a run whose fibers enter and leave guards, park and end outside of sections, one worker at a
time is inside a section, the lock is held exactly then, a turn ends at depth zero, and outside of
sections the memory is what the completed ones leave when each runs by itself, in order. -/
theorem sections_exclusive {memory : Nat → Value} {system : Bindings Value}
    (h : Run Bindings.step (fun move system => Bindings.undisturbed move system = true)
      (.start memory) system) :
    (∀ index other, 0 < (system.workers index).depth → 0 < (system.workers other).depth →
      index = other) ∧
    (system.lock = true ↔ ∃ index, 0 < (system.workers index).depth) ∧
    (∀ index event system', event.ends = true →
      Bindings.undisturbed (index, event) system = true →
      Bindings.step (index, event) system = some system' → (system.workers index).depth = 0) ∧
    (system.lock = false → Replays memory system.completed.flatten system.memory) := by
  have hguarded := Run.invariant (Bindings.start_guarded memory)
    (fun _ _ _ hs hallowed hstep => hs.step hallowed hstep) h
  refine ⟨hguarded.alone, hguarded.lock, ?_, hguarded.settled⟩
  intro index event system' hends hallowed hstep
  cases hrunning : (system.workers index).running with
  | none => exact hguarded.idle index hrunning
  | some strand =>
    rw [(hguarded.running index strand hrunning).1]
    unfold Bindings.undisturbed at hallowed
    cases event <;> simp_all [SectionEvent.ends]

/-- Two workers count up the same binding. -/
theorem counted_twice :
    ∃ system, follow Bindings.step Bindings.undisturbed
        [(0, .start), (1, .start), (0, .beginSection), (0, .read 0), (0, .write 0 1),
          (0, .endSection), (1, .beginSection), (1, .read 0), (1, .write 0 2), (1, .endSection),
          (0, .park), (1, .finish)] (.start fun _ => 0) = some system ∧
      Replays (fun _ => 0) system.completed.flatten system.memory ∧ system.memory 0 = 2 := by
  obtain ⟨system, hsystem⟩ : ∃ system, follow Bindings.step Bindings.undisturbed
      [(0, .start), (1, .start), (0, .beginSection), (0, .read 0), (0, .write 0 1),
        (0, .endSection), (1, .beginSection), (1, .read 0), (1, .write 0 2), (1, .endSection),
        (0, .park), (1, .finish)] (.start fun _ => 0) = some system := ⟨_, rfl⟩
  have hexclusive := sections_exclusive (.of_follow (fun _ _ h => h) .start hsystem)
  refine ⟨system, hsystem, hexclusive.2.2.2 ?_, ?_⟩ <;> cases hsystem <;> rfl

/-- Under `aborts()`, a fail-loud exit in the right side of an atomic reassignment: the fiber ends at
depth one, and the lock stays held. -/
theorem abandoned_section_keeps_lock :
    ¬∀ (system : Bindings Nat) (index : Nat) (event : SectionEvent Nat) (system' : Bindings Nat),
      Bindings.Reaches (fun _ => 0) system → event.ends = true →
      Bindings.step (index, event) system = some system' → (system.workers index).depth = 0 := by
  intro hclaim
  obtain ⟨system, hsystem⟩ : ∃ system : Bindings Nat, follow Bindings.step (fun _ _ => true)
      [(0, .start), (0, .enterGuard), (0, .beginSection), (0, .abandon 1)]
      (.start fun _ => 0) = some system := ⟨_, rfl⟩
  have hreaches : Bindings.Reaches (fun _ => 0) system :=
    .of_follow (fun _ _ _ => trivial) .start hsystem
  cases hsystem
  have hdepth := hclaim _ 0 .finish _ hreaches rfl rfl
  cases hdepth

end Quilon.Runtime
