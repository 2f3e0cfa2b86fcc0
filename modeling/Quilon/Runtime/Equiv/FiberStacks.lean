import Quilon.Runtime.FiberStacks
import Mathlib.Data.List.Perm.Basic
import Mathlib.Tactic.Common

/-!
# Every stack of a worker is scanned

Half of what a switch tells the collector is told by the resumer and half by the fiber.  While no
switch is under way the two agree: the snapshot's running fibers and the stack bottom are those of
the coroutines whose resume is on the machine's stack, at any depth of guards, and every other stack
that is registered has its range in the snapshot.  A fiber ends with its range taken out before its
stack is unmapped; the tear-down of a worker unmaps what its slab has left without that.

Main results:

* `Ledger.register`, `Ledger.unregister` — the ranges of the registered stacks;
* `Tracks.step` — what the snapshot, the stack bottom and the switches keep to;
* `scanned_of_undisturbed` — what the collector sees in every state;
* `unmapped_stack_pushed` — a worker torn down with a fiber in its slab.
-/

namespace Quilon.Runtime

namespace FiberStacks

/-- Whether a tear-down finds the slab empty. -/
def undisturbed (event : Event) (worker : FiberStacks) : Bool :=
  match event with
  | .teardown => worker.fibers.flatten.isEmpty
  | _ => true

/-- What the collector needs.  While no switch of the worker is under way, its own scan starts at the
bottom of the stack that runs, and the snapshot has every other stack that is registered; what it
pushes is mapped; and the switches are disabled and enabled in turn. -/
structure Scanned (worker : FiberStacks) : Prop where
  bottom : worker.switchDepth = 0 → worker.bottom = worker.executing
  pushed : worker.switchDepth = 0 → ∀ stack ∈ worker.registered, worker.executing ≠ some stack →
    worker.Pushes stack
  mapped : ∀ stack, worker.Pushes stack → stack ∉ worker.dropped
  paired : worker.mispaired = false

/-! ### The ranges -/

/-- The snapshot has one range for each registered stack, and none for one that is unmapped. -/
structure Ledger (worker : FiberStacks) : Prop where
  known : ∀ id stack, worker.ranges id = some stack →
    id ∈ worker.reserved ∧ stack ∈ worker.registered ∧ stack < worker.allocated
  mapped : ∀ id stack, worker.ranges id = some stack → stack ∉ worker.dropped
  listed : ∀ stack ∈ worker.registered, ∃ id, worker.ranges id = some stack
  once : ∀ id id' stack, worker.ranges id = some stack → worker.ranges id' = some stack → id = id'
  unmapped : ∀ stack ∈ worker.dropped, stack < worker.allocated

variable {worker later : FiberStacks}

theorem Ledger.register (h : worker.Ledger) {id : Nat} (hfree : id ∉ worker.reserved) :
    (worker.register id).Ledger := by
  have hnew : ∀ other stack, (worker.register id).ranges other = some stack →
      other = id ∧ stack = worker.allocated ∨ other ≠ id ∧ worker.ranges other = some stack := by
    intro other stack hrange
    by_cases heq : other = id
    · rw [heq] at hrange
      have hsame : (worker.register id).ranges id = some worker.allocated := Function.update_self ..
      exact .inl ⟨heq, (Option.some.inj (hsame.symm.trans hrange)).symm⟩
    · have hsame : (worker.register id).ranges other = worker.ranges other :=
        Function.update_of_ne heq ..
      exact .inr ⟨heq, hsame.symm.trans hrange⟩
  refine ⟨?_, ?_, ?_, ?_, ?_⟩
  · intro other stack hrange
    rcases hnew other stack hrange with ⟨rfl, rfl⟩ | ⟨-, hrange⟩
    · exact ⟨List.mem_cons_self, List.mem_cons_self, Nat.lt_succ_self _⟩
    · obtain ⟨hreserved, hregistered, hlt⟩ := h.known other stack hrange
      exact ⟨List.mem_cons_of_mem _ hreserved, List.mem_cons_of_mem _ hregistered,
        Nat.lt_succ_of_lt hlt⟩
  · intro other stack hrange hdropped
    rcases hnew other stack hrange with ⟨-, rfl⟩ | ⟨-, hrange⟩
    · exact absurd (h.unmapped _ hdropped) (Nat.lt_irrefl _)
    · exact h.mapped other stack hrange hdropped
  · intro stack hmem
    rcases List.mem_cons.mp hmem with rfl | hmem
    · exact ⟨id, Function.update_self ..⟩
    · obtain ⟨other, hrange⟩ := h.listed stack hmem
      have hne : other ≠ id := by
        rintro rfl
        exact hfree (h.known other stack hrange).1
      exact ⟨other, (Function.update_of_ne hne ..).trans hrange⟩
  · intro other other' stack hrange hrange'
    rcases hnew other stack hrange with ⟨rfl, rfl⟩ | ⟨-, hrange⟩
    · rcases hnew other' _ hrange' with ⟨rfl, -⟩ | ⟨-, hrange'⟩
      · rfl
      · exact absurd (h.known other' _ hrange').2.2 (Nat.lt_irrefl _)
    · rcases hnew other' stack hrange' with ⟨-, rfl⟩ | ⟨-, hrange'⟩
      · exact absurd (h.known other _ hrange).2.2 (Nat.lt_irrefl _)
      · exact h.once other other' stack hrange hrange'
  · intro stack hdropped
    exact Nat.lt_succ_of_lt (h.unmapped stack hdropped)

theorem Ledger.unregister (h : worker.Ledger) {coroutine : Coroutine}
    (hrange : worker.ranges coroutine.id = some coroutine.stack) :
    (worker.unregister coroutine).Ledger ∧
      ∀ id, (worker.unregister coroutine).ranges id ≠ some coroutine.stack := by
  have hold : ∀ id stack, (worker.unregister coroutine).ranges id = some stack →
      stack ≠ coroutine.stack ∧ worker.ranges id = some stack := by
    intro id stack hsome
    by_cases heq : id = coroutine.id
    · have hnone : (worker.unregister coroutine).ranges id = none := by
        rw [heq]
        exact Function.update_self ..
      rw [hnone] at hsome
      cases hsome
    · have hsame : (worker.unregister coroutine).ranges id = worker.ranges id :=
        Function.update_of_ne heq ..
      rw [hsame] at hsome
      refine ⟨?_, hsome⟩
      rintro rfl
      exact heq (h.once id coroutine.id _ hsome hrange)
  refine ⟨⟨?_, ?_, ?_, ?_, h.unmapped⟩, ?_⟩
  · intro id stack hsome
    obtain ⟨hne, hsome⟩ := hold id stack hsome
    obtain ⟨hreserved, hregistered, hlt⟩ := h.known id stack hsome
    exact ⟨hreserved, List.mem_filter.mpr ⟨hregistered, decide_eq_true hne⟩, hlt⟩
  · intro id stack hsome
    exact h.mapped id stack (hold id stack hsome).2
  · intro stack hmem
    obtain ⟨hregistered, hne⟩ := List.mem_filter.mp hmem
    obtain ⟨id, hsome⟩ := h.listed stack hregistered
    refine ⟨id, (Function.update_of_ne ?_ ..).trans hsome⟩
    rintro rfl
    rw [hrange] at hsome
    exact of_decide_eq_true hne (Option.some.inj hsome).symm
  · intro id id' stack hsome hsome'
    exact h.once id id' stack (hold id stack hsome).2 (hold id' stack hsome').2
  · intro id hsome
    exact (hold id _ hsome).1 rfl

/-- Coroutines with ids of their own, each with its range in the snapshot. -/
structure Registered (ranges : Nat → Option Nat) (coroutines : List Coroutine) : Prop where
  ids : (coroutines.map Coroutine.id).Nodup
  ranged : ∀ coroutine ∈ coroutines, ranges coroutine.id = some coroutine.stack
  held : ∀ coroutine ∈ coroutines, ∀ id ∈ coroutine.held, id = coroutine.id

theorem Registered.perm {ranges : Nat → Option Nat} {coroutines coroutines' : List Coroutine}
    (h : Registered ranges coroutines) (hperm : coroutines'.Perm coroutines) :
    Registered ranges coroutines' where
  ids := (hperm.map Coroutine.id).nodup_iff.mpr h.ids
  ranged coroutine hmem := h.ranged coroutine (hperm.mem_iff.mp hmem)
  held coroutine hmem := h.held coroutine (hperm.mem_iff.mp hmem)

theorem Registered.sublist {ranges : Nat → Option Nat} {coroutines coroutines' : List Coroutine}
    (h : Registered ranges coroutines) (hsub : coroutines'.Sublist coroutines) :
    Registered ranges coroutines' where
  ids := (hsub.map Coroutine.id).nodup h.ids
  ranged coroutine hmem := h.ranged coroutine (hsub.subset hmem)
  held coroutine hmem := h.held coroutine (hsub.subset hmem)

theorem Registered.cons {coroutines : List Coroutine} {coroutine : Coroutine}
    (h : Registered worker.ranges coroutines) (hledger : worker.Ledger)
    (hfree : coroutine.id ∉ worker.reserved) (hstack : coroutine.stack = worker.allocated)
    (hheld : coroutine.held = none) :
    Registered (worker.register coroutine.id).ranges (coroutine :: coroutines) := by
  have hne : ∀ other ∈ coroutines, other.id ≠ coroutine.id := by
    intro other hmem heq
    exact hfree (heq ▸ (hledger.known _ _ (h.ranged other hmem)).1)
  refine ⟨?_, ?_, ?_⟩
  · rw [List.map_cons, List.nodup_cons]
    refine ⟨?_, h.ids⟩
    intro hmem
    obtain ⟨other, hother, heq⟩ := List.mem_map.mp hmem
    exact hne other hother heq
  · intro other hmem
    rcases List.mem_cons.mp hmem with rfl | hmem
    · rw [hstack]
      exact Function.update_self ..
    · exact (Function.update_of_ne (hne other hmem) ..).trans (h.ranged other hmem)
  · intro other hmem id hid
    rcases List.mem_cons.mp hmem with rfl | hmem
    · rw [hheld] at hid
      cases hid
    · exact h.held other hmem id hid

/-- A coroutine that jumps back keeps its id for its return. -/
theorem Registered.hold {ranges : Nat → Option Nat} {coroutines : List Coroutine}
    {coroutine : Coroutine} (h : Registered ranges (coroutine :: coroutines)) :
    Registered ranges ({ coroutine with held := some coroutine.id } :: coroutines) := by
  refine ⟨h.ids, ?_, ?_⟩
  · intro other hmem
    rcases List.mem_cons.mp hmem with rfl | hmem
    · exact h.ranged coroutine List.mem_cons_self
    · exact h.ranged other (List.mem_cons_of_mem _ hmem)
  · intro other hmem id hid
    rcases List.mem_cons.mp hmem with rfl | hmem
    · exact (Option.some.inj hid).symm
    · exact h.held other (List.mem_cons_of_mem _ hmem) id hid

/-- Without the coroutine that is unregistered. -/
theorem Registered.unregister {coroutines : List Coroutine} {coroutine : Coroutine}
    (h : Registered worker.ranges (coroutine :: coroutines)) :
    Registered (worker.unregister coroutine).ranges coroutines := by
  have hids := h.ids
  rw [List.map_cons, List.nodup_cons] at hids
  refine ⟨hids.2, ?_, fun other hmem => h.held other (List.mem_cons_of_mem _ hmem)⟩
  intro other hmem
  have hne : other.id ≠ coroutine.id := by
    intro heq
    exact hids.1 (heq ▸ List.mem_map_of_mem hmem)
  exact (Function.update_of_ne hne ..).trans (h.ranged other (List.mem_cons_of_mem _ hmem))

/-! ### What the switches keep to -/

/-- Whether a switch is under way, with collection held off. -/
def Point.switching : Point → Bool
  | .landed | .back _ => true
  | .running | .handling _ | .unregistered | .unmapped => false

/-- Whether the coroutine that the loop is at has ended and is unregistered. -/
def Point.ended : Point → Bool
  | .unregistered | .unmapped => true
  | .landed | .running | .back _ | .handling _ => false

/-- The coroutines that have entered and not left. -/
def entered (worker : FiberStacks) : List Coroutine :=
  match worker.point with
  | .landed => worker.outer.tail
  | _ => worker.outer

/-- The running fibers without one that has left; `resume_fiber` takes it out last. -/
def stillRunning (worker : FiberStacks) : List Nat :=
  match worker.point with
  | .back _ => worker.runningFibers.tail
  | _ => worker.runningFibers

/-- The coroutines of the worker that have not ended. -/
def coroutines (worker : FiberStacks) : List Coroutine :=
  worker.outer ++ (if worker.point.ended then [] else worker.inner) ++ worker.fibers.flatten

structure Tracks (worker : FiberStacks) : Prop where
  running : worker.running = worker.entered.map Coroutine.id
  bottom : worker.bottom = worker.entered.head?.map Coroutine.stack
  depth : worker.switchDepth = worker.point.switching.toNat
  paired : worker.mispaired = false
  runningFibers : worker.stillRunning = worker.outer.map Coroutine.id
  roster : Registered worker.ranges worker.coroutines
  ledger : worker.Ledger
  ended : worker.point.ended = true → ∀ coroutine ∈ worker.inner,
    worker.ranges coroutine.id = none ∧ coroutine.stack < worker.allocated ∧
      ∀ id, worker.ranges id ≠ some coroutine.stack

theorem Tracks.start : start.Tracks where
  running := rfl
  bottom := rfl
  depth := rfl
  paired := rfl
  runningFibers := rfl
  roster := ⟨List.nodup_nil, nofun, nofun⟩
  ledger := ⟨nofun, nofun, nofun, nofun, nofun⟩
  ended := nofun

/-- While no switch is under way, the collector's side is what is on the machine's stack. -/
theorem Tracks.resting (h : worker.Tracks) (hpoint : worker.point.switching = false) :
    worker.running = worker.outer.map Coroutine.id ∧
      worker.bottom = worker.outer.head?.map Coroutine.stack ∧ worker.switchDepth = 0 ∧
        worker.runningFibers = worker.outer.map Coroutine.id := by
  obtain ⟨hrunning, hbottom, hdepth, -, hfibers, -, -, -⟩ := h
  unfold entered at hrunning hbottom
  unfold stillRunning at hfibers
  cases hcases : worker.point with
  | landed | back _ =>
    rw [hcases] at hpoint
    cases hpoint
  | _ =>
    rw [hcases] at hrunning hbottom hdepth hfibers
    exact ⟨hrunning, hbottom, hdepth, hfibers⟩

/-- The code that runs resumes a coroutine that is none of those on the machine's stack. -/
theorem Tracks.resumeFiber (h : worker.Tracks) (hpoint : worker.point = .running)
    {coroutine : Coroutine} {guards : List Coroutine} {fibers : List (List Coroutine)}
    (hperm : (coroutine :: worker.outer ++ guards ++ fibers.flatten).Perm worker.coroutines) :
    ({ worker.resumeFiber coroutine guards with fibers := fibers } : FiberStacks).Tracks := by
  obtain ⟨hrunning, hbottom, hdepth, hfibers⟩ := h.resting (by rw [hpoint]; rfl)
  refine ⟨hrunning, hbottom, ?_, ?_, ?_, h.roster.perm hperm, ?_, nofun⟩
  · show worker.switchDepth + 1 = 1
    rw [hdepth]
  · show (worker.mispaired || decide (worker.switchDepth ≠ 0)) = false
    rw [h.paired, hdepth]
    rfl
  · show coroutine.id :: worker.runningFibers = _
    rw [hfibers]
    rfl
  · exact ⟨h.ledger.known, h.ledger.mapped, h.ledger.listed, h.ledger.once, h.ledger.unmapped⟩

/-- The id it enters under is its own, whoever says it. -/
theorem Tracks.land (h : worker.Tracks) (hpoint : worker.point = .landed) {coroutine : Coroutine}
    {outer : List Coroutine} (houter : worker.outer = coroutine :: outer)
    (hstep : worker.land coroutine = some later) : later.Tracks := by
  have hrunning := h.running
  have hdepth := h.depth
  have hfibers := h.runningFibers
  have hroster := h.roster
  simp only [entered, stillRunning, coroutines, hpoint, houter, Point.switching, Point.ended,
    Bool.toNat_true, List.tail_cons, List.map_cons, Bool.false_eq_true, if_false] at hrunning hdepth hfibers hroster
  have hmem : coroutine ∈ coroutine :: outer ++ worker.inner ++ worker.fibers.flatten :=
    List.mem_append_left _ List.mem_cons_self
  unfold FiberStacks.land at hstep
  split at hstep
  case h_1 => cases hstep
  case h_2 id hid =>
    have hid : id = coroutine.id := by
      cases hheld : coroutine.held with
      | some held =>
        rw [hheld] at hid
        obtain rfl := Option.some.inj hid
        exact hroster.held coroutine hmem held hheld
      | none =>
        rw [hheld, hfibers] at hid
        exact (Option.some.inj hid).symm
    rw [hid, enterFiber, hroster.ranged coroutine hmem] at hstep
    obtain rfl := Option.some.inj hstep
    refine ⟨?_, ?_, ?_, ?_, ?_, ?_, ?_, fun h => Bool.noConfusion h⟩
    · show coroutine.id :: worker.running = worker.outer.map Coroutine.id
      rw [hrunning, houter, List.map_cons]
    · show some coroutine.stack = worker.outer.head?.map Coroutine.stack
      rw [houter]
      rfl
    · show worker.switchDepth - 1 = 0
      rw [hdepth]
    · show (worker.mispaired || decide (worker.switchDepth ≠ 1)) = false
      rw [h.paired, hdepth]
      rfl
    · show worker.runningFibers = worker.outer.map Coroutine.id
      rw [hfibers, houter, List.map_cons]
    · rw [← houter] at hroster
      exact hroster
    · exact ⟨h.ledger.known, h.ledger.mapped, h.ledger.listed, h.ledger.once, h.ledger.unmapped⟩

/-- A coroutine jumps back: the one beneath it is on the machine's stack already. -/
theorem Tracks.leave (h : worker.Tracks) (hpoint : worker.point.switching = false)
    (hended : worker.point.ended = false) {coroutine : Coroutine} {outer : List Coroutine}
    {outcome : Outcome} (houter : worker.outer = coroutine :: outer)
    (hstep : worker.leave coroutine outer outcome = some later) : later.Tracks := by
  obtain ⟨hrunning, hbottom, hdepth, hfibers⟩ := h.resting hpoint
  have hroster := h.roster
  rw [coroutines, hended, if_neg nofun, houter] at hroster
  rw [houter, List.map_cons] at hrunning hfibers
  have hleft : worker.switchDisable.leaveFiber = some { worker.switchDisable with
      bottom := outer.head?.map Coroutine.stack, running := outer.map Coroutine.id } := by
    have htail : worker.switchDisable.running.tail = outer.map Coroutine.id := by
      show worker.running.tail = _
      rw [hrunning, List.tail_cons]
    unfold leaveFiber
    rw [htail]
    cases outer with
    | nil => rfl
    | cons next outer =>
      have hrange : worker.switchDisable.ranges next.id = some next.stack :=
        hroster.ranged next (by simp)
      simp only [List.map_cons, List.head?_cons, hrange, Option.map_some]
  unfold FiberStacks.leave at hstep
  rw [hleft, Option.map_some, hfibers, List.head?_cons] at hstep
  obtain rfl := Option.some.inj hstep
  refine ⟨rfl, rfl, ?_, ?_, ?_, ?_, ?_, nofun⟩
  · show worker.switchDepth + 1 = 1
    rw [hdepth]
  · show (worker.mispaired || decide (worker.switchDepth ≠ 0)) = false
    rw [h.paired, hdepth]
    rfl
  · show worker.runningFibers.tail = _
    rw [hfibers, List.tail_cons]
  · exact hroster.hold.perm (List.perm_middle.append_right _)
  · exact ⟨h.ledger.known, h.ledger.mapped, h.ledger.listed, h.ledger.once, h.ledger.unmapped⟩

theorem Tracks.switchBack (h : worker.Tracks) {outcome : Outcome}
    (hpoint : worker.point = .back outcome) : (worker.switchBack outcome).Tracks := by
  obtain ⟨hrunning, hbottom, hdepth, hpaired, hfibers, hroster, hledger, -⟩ := h
  simp only [entered, stillRunning, coroutines, hpoint, Point.switching, Point.ended, Bool.toNat_true]
    at hrunning hbottom hdepth hfibers hroster
  refine ⟨hrunning, hbottom, ?_, ?_, ?_, hroster, ?_, nofun⟩
  · show worker.switchDepth - 1 = 0
    rw [hdepth]
  · show (worker.mispaired || decide (worker.switchDepth ≠ 1)) = false
    rw [hpaired, hdepth]
    rfl
  · exact hfibers
  · exact ⟨hledger.known, hledger.mapped, hledger.listed, hledger.once, hledger.unmapped⟩

/-- The loop's coroutine has ended: those of guards that it was in, left on its stack, are lost, but
their stacks stay registered. -/
theorem Tracks.end_ (h : worker.Tracks) {outcome : Outcome}
    (hpoint : worker.point = .handling outcome) {child : Coroutine} {guards : List Coroutine}
    (hinner : worker.inner = child :: guards) :
    ({ worker.unregister child with inner := [child], point := .unregistered } :
      FiberStacks).Tracks := by
  obtain ⟨hrunning, hbottom, hdepth, hfibers⟩ := h.resting (by rw [hpoint]; rfl)
  have hroster := h.roster
  rw [coroutines, hpoint, hinner] at hroster
  have hfirst : Registered worker.ranges
      (child :: (worker.outer ++ guards ++ worker.fibers.flatten)) :=
    hroster.perm (List.perm_middle.symm.append_right _)
  have hrange := hfirst.ranged child List.mem_cons_self
  obtain ⟨hledger, hgone⟩ := h.ledger.unregister hrange
  refine ⟨hrunning, hbottom, hdepth, h.paired, hfibers, ?_, ?_, ?_⟩
  · have hrest := hfirst.unregister
    have hsub : (worker.outer ++ [] ++ worker.fibers.flatten).Sublist
        (worker.outer ++ guards ++ worker.fibers.flatten) :=
      ((List.nil_sublist guards).append_left _).append_right _
    exact hrest.sublist hsub
  · exact ⟨hledger.known, hledger.mapped, hledger.listed, hledger.once, hledger.unmapped⟩
  · intro _ coroutine hmem
    obtain rfl := List.mem_singleton.mp hmem
    exact ⟨Function.update_self .., (h.ledger.known _ _ hrange).2.2, hgone⟩

theorem Tracks.handle (h : worker.Tracks) {outcome : Outcome}
    (hpoint : worker.point = .handling outcome) (hstep : worker.handle outcome = some later) :
    later.Tracks := by
  obtain ⟨hrunning, hbottom, hdepth, hfibers⟩ := h.resting (by rw [hpoint]; rfl)
  unfold FiberStacks.handle at hstep
  split at hstep
  case h_1 => cases hstep
  case h_2 child guards hinner =>
    split at hstep
    case h_1 =>
      obtain rfl := Option.some.inj hstep
      exact h.end_ hpoint hinner
    case h_2 park houter =>
      rw [Option.ite_none_left_eq_some] at hstep
      obtain rfl := Option.some.inj hstep.2
      have hroster := h.roster
      rw [coroutines, hpoint, hinner] at hroster
      refine ⟨hrunning, hbottom, hdepth, h.paired, hfibers, ?_, ?_, nofun⟩
      · simp only [coroutines, Point.ended, if_false, Bool.false_eq_true, List.append_nil,
          List.flatten_cons] at hroster ⊢
        rwa [← List.append_assoc]
      · exact ⟨h.ledger.known, h.ledger.mapped, h.ledger.listed, h.ledger.once,
          h.ledger.unmapped⟩
    case h_3 park coroutine outer kind houter hkind =>
      split at hstep
      case isTrue =>
        obtain rfl := Option.some.inj hstep
        exact h.end_ hpoint hinner
      case isFalse => exact h.leave (by rw [hpoint]; rfl) (by rw [hpoint]; rfl) houter hstep
    case h_4 => cases hstep

/-- A new coroutine, of a fiber for the slab or of a guard. -/
theorem Tracks.register (h : worker.Tracks) (hpoint : worker.point = .running) {id : Nat}
    (hfree : id ∉ worker.reserved) (kind : Option GuardKind) {inner : List Coroutine}
    {fibers : List (List Coroutine)}
    (hperm : (worker.outer ++ inner ++ fibers.flatten).Perm
      ({ id := id, stack := worker.allocated, kind := kind, held := none } :: worker.coroutines)) :
    ({ worker.register id with inner := inner, fibers := fibers } : FiberStacks).Tracks := by
  obtain ⟨hrunning, hbottom, hdepth, hfibers⟩ := h.resting (by rw [hpoint]; rfl)
  have hledger := h.ledger.register hfree
  have hroster := (h.roster.cons h.ledger hfree rfl rfl).perm hperm
  refine ⟨?_, ?_, ?_, h.paired, ?_, ?_, ?_, ?_⟩
  · simp only [entered, FiberStacks.register, hpoint]
    exact hrunning
  · simp only [entered, FiberStacks.register, hpoint]
    exact hbottom
  · simp only [FiberStacks.register, hpoint]
    exact hdepth
  · simp only [stillRunning, FiberStacks.register, hpoint]
    exact hfibers
  · simp only [coroutines, FiberStacks.register, hpoint, Point.ended, Bool.false_eq_true, if_false]
    exact hroster
  · exact ⟨hledger.known, hledger.mapped, hledger.listed, hledger.once, hledger.unmapped⟩
  · simp only [FiberStacks.register, hpoint]
    exact nofun

theorem Tracks.stepRunning (h : worker.Tracks) (hpoint : worker.point = .running) {event : Event}
    (hundisturbed : undisturbed event worker = true)
    (hstep : worker.stepRunning event = some later) : later.Tracks := by
  have hcoroutines : worker.coroutines = worker.outer ++ worker.inner ++ worker.fibers.flatten := by
    rw [coroutines, hpoint]
    rfl
  have hswitching : worker.point.switching = false := by rw [hpoint]; rfl
  have hended : worker.point.ended = false := by rw [hpoint]; rfl
  unfold FiberStacks.stepRunning at hstep
  split at hstep
  case h_1 hinner =>
    rw [Option.ite_none_left_eq_some] at hstep
    obtain ⟨hfree, hstep⟩ := hstep
    obtain rfl := Option.some.inj hstep
    refine h.register hpoint hfree none ?_
    rw [hcoroutines, List.flatten_cons, List.singleton_append]
    exact List.perm_middle
  case h_2 index houter hinner =>
    split at hstep
    case h_1 coroutine guards hget =>
      obtain rfl := Option.some.inj hstep
      refine h.resumeFiber hpoint ?_
      obtain ⟨hlt, hget⟩ := List.getElem?_eq_some_iff.mp hget
      have hperm := (List.getElem_cons_eraseIdx_perm hlt).flatten
      rw [hget, List.flatten_cons, List.cons_append] at hperm
      rw [hcoroutines, houter, hinner]
      exact hperm
    case h_2 => cases hstep
  case h_3 first outer coroutine guards houter hinner =>
    obtain rfl := Option.some.inj hstep
    refine h.resumeFiber hpoint ?_
    rw [hcoroutines, hinner]
    exact List.perm_middle.symm.append_right _
  case h_4 id kind first outer houter hinner =>
    rw [Option.ite_none_left_eq_some] at hstep
    obtain ⟨hfree, hstep⟩ := hstep
    obtain rfl := Option.some.inj hstep
    refine h.register hpoint hfree (some kind) ?_
    rw [hcoroutines, hinner, List.append_nil]
    exact (List.perm_append_singleton _ _).append_right _
  case h_5 park coroutine outer houter hinner =>
    rw [Option.ite_none_left_eq_some] at hstep
    exact h.leave hswitching hended houter hstep.2
  case h_6 marker coroutine outer houter hinner =>
    rw [Option.ite_none_right_eq_some] at hstep
    exact h.leave hswitching hended houter hstep.2
  case h_7 coroutine outer houter hinner => exact h.leave hswitching hended houter hstep
  case h_8 houter hinner =>
    obtain rfl := Option.some.inj hstep
    obtain ⟨hrunning, hbottom, hdepth, hfibers⟩ := h.resting hswitching
    have hnone : worker.fibers.flatten = [] := List.isEmpty_iff.mp hundisturbed
    refine ⟨?_, ?_, ?_, h.paired, ?_, ?_, ?_, ?_⟩
    · simp only [entered, hpoint]
      exact hrunning
    · simp only [entered, hpoint]
      exact hbottom
    · exact h.depth
    · simp only [stillRunning, hpoint]
      exact hfibers
    · have hroster := h.roster
      rw [hcoroutines, hnone] at hroster
      simp only [coroutines, hpoint]
      exact hroster
    · rw [hnone]
      exact ⟨h.ledger.known, h.ledger.mapped, h.ledger.listed, h.ledger.once, h.ledger.unmapped⟩
    · exact h.ended
  case h_9 => cases hstep

theorem Tracks.drop (h : worker.Tracks) (hpoint : worker.point = .unregistered) :
    ({ worker with
      dropped := worker.inner.map Coroutine.stack ++ worker.dropped
      point := .unmapped } : FiberStacks).Tracks := by
  obtain ⟨hrunning, hbottom, hdepth, hfibers⟩ := h.resting (by rw [hpoint]; rfl)
  have hended := h.ended (by rw [hpoint]; rfl)
  have hroster := h.roster
  rw [coroutines, hpoint] at hroster
  refine ⟨hrunning, hbottom, hdepth, h.paired, hfibers, hroster, ?_, fun _ => hended⟩
  refine ⟨h.ledger.known, ?_, h.ledger.listed, h.ledger.once, ?_⟩
  · intro id stack hrange hdropped
    rcases List.mem_append.mp hdropped with hmem | hmem
    · obtain ⟨coroutine, hcoroutine, rfl⟩ := List.mem_map.mp hmem
      exact (hended coroutine hcoroutine).2.2 id hrange
    · exact h.ledger.mapped id stack hrange hmem
  · intro stack hdropped
    rcases List.mem_append.mp hdropped with hmem | hmem
    · obtain ⟨coroutine, hcoroutine, rfl⟩ := List.mem_map.mp hmem
      exact (hended coroutine hcoroutine).2.1
    · exact h.ledger.unmapped stack hmem

theorem Tracks.release (h : worker.Tracks) (hpoint : worker.point = .unmapped) :
    ({ worker with
      reserved := worker.reserved.filter (· ∉ worker.inner.map Coroutine.id)
      inner := []
      point := .running } : FiberStacks).Tracks := by
  obtain ⟨hrunning, hbottom, hdepth, hfibers⟩ := h.resting (by rw [hpoint]; rfl)
  have hended := h.ended (by rw [hpoint]; rfl)
  have hroster := h.roster
  rw [coroutines, hpoint] at hroster
  refine ⟨hrunning, hbottom, hdepth, h.paired, hfibers, hroster, ?_, nofun⟩
  refine ⟨?_, h.ledger.mapped, h.ledger.listed, h.ledger.once, h.ledger.unmapped⟩
  intro id stack hrange
  obtain ⟨hreserved, hregistered, hlt⟩ := h.ledger.known id stack hrange
  refine ⟨List.mem_filter.mpr ⟨hreserved, decide_eq_true ?_⟩, hregistered, hlt⟩
  intro hmem
  obtain ⟨coroutine, hcoroutine, rfl⟩ := List.mem_map.mp hmem
  rw [(hended coroutine hcoroutine).1] at hrange
  cases hrange

theorem Tracks.step (h : worker.Tracks) {event : Event}
    (hundisturbed : undisturbed event worker = true) (hstep : step event worker = some later) :
    later.Tracks := by
  unfold FiberStacks.step at hstep
  rw [Option.ite_none_left_eq_some] at hstep
  obtain ⟨-, hstep⟩ := hstep
  split at hstep
  case h_1 hpoint => exact h.stepRunning hpoint hundisturbed hstep
  case h_2 hpoint =>
    split at hstep
    case h_1 coroutine outer houter => exact h.land hpoint houter hstep
    case h_2 => cases hstep
  case h_3 outcome hpoint =>
    obtain rfl := Option.some.inj hstep
    exact h.switchBack hpoint
  case h_4 outcome hpoint => exact h.handle hpoint hstep
  case h_5 hpoint =>
    obtain rfl := Option.some.inj hstep
    exact h.drop hpoint
  case h_6 hpoint =>
    obtain rfl := Option.some.inj hstep
    exact h.release hpoint
  case h_7 => cases hstep

theorem Tracks.scanned (h : worker.Tracks) : worker.Scanned := by
  have hresting : worker.switchDepth = 0 → worker.point.switching = false := by
    intro hzero
    rw [h.depth] at hzero
    exact Bool.toNat_eq_zero.mp hzero
  refine ⟨?_, ?_, fun stack ⟨id, hrange, _⟩ => h.ledger.mapped id stack hrange, h.paired⟩
  · intro hzero
    exact (h.resting (hresting hzero)).2.1
  · intro hzero stack hmem hne
    obtain ⟨id, hrange⟩ := h.ledger.listed stack hmem
    refine ⟨id, hrange, ?_⟩
    rw [(h.resting (hresting hzero)).1]
    intro hhead
    -- the one range that is left out is that of the stack that runs
    cases houter : worker.outer with
    | nil =>
      rw [houter] at hhead
      cases hhead
    | cons coroutine outer =>
      rw [houter] at hhead
      obtain rfl : coroutine.id = id := Option.some.inj hhead
      have hcoroutine : coroutine ∈ worker.coroutines := by
        rw [coroutines, houter]
        exact List.mem_append_left _ (List.mem_append_left _ List.mem_cons_self)
      rw [h.roster.ranged coroutine hcoroutine] at hrange
      rw [executing, houter] at hne
      exact hne hrange

/-- A worker torn down with a fiber in its slab leaves the range of a stack that is unmapped. -/
theorem Tracks.not_scanned_of_disturbed (h : worker.Tracks) {event : Event}
    (hdisturbed : undisturbed event worker = false)
    (hstep : FiberStacks.step event worker = some later) : ¬later.Scanned := by
  cases event with
  | teardown =>
    unfold FiberStacks.step at hstep
    rw [Option.ite_none_left_eq_some] at hstep
    obtain ⟨-, hstep⟩ := hstep
    cases hpoint : worker.point with
    | running =>
      rw [hpoint] at hstep
      cases houter : worker.outer with
      | cons first outer => simp only [FiberStacks.stepRunning, houter, reduceCtorEq] at hstep
      | nil =>
        cases hinner : worker.inner with
        | cons first guards =>
          simp only [FiberStacks.stepRunning, houter, hinner, reduceCtorEq] at hstep
        | nil =>
          simp only [FiberStacks.stepRunning, houter, hinner] at hstep
          obtain rfl := Option.some.inj hstep
          intro hscanned
          obtain ⟨coroutine, hmem⟩ :=
            List.exists_mem_of_ne_nil _ (List.isEmpty_eq_false_iff.mp hdisturbed)
          have hcoroutine : coroutine ∈ worker.coroutines := List.mem_append_right _ hmem
          have hrunning : worker.running = [] := by
            rw [(h.resting (by rw [hpoint]; rfl)).1, houter]
            rfl
          refine hscanned.mapped coroutine.stack
            ⟨coroutine.id, h.roster.ranged coroutine hcoroutine, ?_⟩
            (List.mem_append_left _ (List.mem_map_of_mem hmem))
          show worker.running.head? ≠ some coroutine.id
          rw [hrunning]
          nofun
    | _ =>
      rw [hpoint] at hstep
      cases hstep
  | _ => cases hdisturbed

/-- In a run whose tear-down finds the slab empty the collector sees every stack; and of the steps
that may follow, a tear-down that does not is the one after which it does not. -/
theorem scanned_of_undisturbed
    (h : Run step (fun event worker => undisturbed event worker = true) start worker) :
    worker.Scanned ∧ ∀ event later, step event worker = some later →
      (later.Scanned ↔ undisturbed event worker = true) := by
  have htracks : worker.Tracks :=
    h.invariant .start fun _ _ _ h hallowed hstep => h.step hallowed hstep
  refine ⟨htracks.scanned, fun event later hstep => ⟨?_, ?_⟩⟩
  · intro hscanned
    rw [← Bool.not_eq_false]
    intro hdisturbed
    exact htracks.not_scanned_of_disturbed hdisturbed hstep hscanned
  · intro hundisturbed
    exact (htracks.step hundisturbed hstep).scanned

/-- A case in a fail-loud guard: its body ends with a marker, and the guard's parks with its fiber
and comes back. -/
theorem nested_guards : ∃ worker : FiberStacks,
    worker.dropped = [0, 1, 2] ∧ worker.registered = [] ∧ worker.Scanned := by
  obtain ⟨worker, hworker⟩ : ∃ worker, follow step undisturbed
      [.install 0, .resume 0, .land, .enterGuard 1 .fault, .reenter, .land,
        .enterGuard 2 (.case 7), .reenter, .land, .abort .caseAborted, .switchBack, .handle, .drop,
        .release, .park (.readiness 5), .switchBack, .handle, .switchBack, .handle, .resume 0,
        .land, .reenter, .land, .finish, .switchBack, .handle, .drop, .release, .finish,
        .switchBack, .handle, .drop, .release, .teardown] start = some worker := ⟨_, rfl⟩
  have hscanned :=
    (scanned_of_undisturbed (.of_follow (fun _ _ h => h) .start hworker)).1
  refine ⟨worker, ?_, ?_, hscanned⟩
  all_goals
    obtain rfl := Option.some.inj hworker
    rfl

/-- The dispatcher of a trap is parked when the worker that it is on is torn down. -/
theorem unmapped_stack_pushed : ¬∀ worker, Reachable step start worker → worker.Scanned := by
  intro hclaim
  obtain ⟨worker, hworker⟩ : ∃ worker, follow step (fun _ _ => true)
      [.install 0, .resume 0, .land, .park (.readiness 5), .switchBack, .handle, .teardown] start =
        some worker := ⟨_, rfl⟩
  have hscanned := hclaim worker (.of_follow (fun _ _ _ => trivial) .start hworker)
  obtain rfl := Option.some.inj hworker
  exact hscanned.mapped 0 ⟨0, rfl, nofun⟩ List.mem_cons_self

end FiberStacks

end Quilon.Runtime
