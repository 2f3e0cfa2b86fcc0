import Quilon.Library.Counting
import Quilon.Runtime.Connection
import Mathlib.Tactic.Common

/-!
# When the operations on a connection do not conflict

An operation keeps the stream borrowed while its fiber is parked, so one that begins in the meantime
takes a second mutable borrow.  As long as none does, only one operation at a time has the stream,
and the reads have begun in the order in which they were launched: the bytes go to them in turn.

Main results:

* `aborted_iff_of_step` — the steps that take a second borrow;
* `Consistent.step` — what the others keep;
* `orderly_of_undisturbed` — what holds in every state of an undisturbed run;
* `second_borrow` — a write while a read waits for its bytes.
-/

namespace Quilon.Runtime

namespace ConnectionState

/-- An operation that has begun and has not ended. -/
def Operation.waiting (operation : Operation) : Bool :=
  match operation.progress with
  | .parked | .woken => true
  | .launched | .done _ => false

/-- The bytes an operation has taken from the connection. -/
def Operation.received (operation : Operation) : List UInt8 :=
  match operation.progress with
  | .done text => text
  | .launched | .parked | .woken => []

/-- Whether a step in which an operation begins on the open connection finds no other that waits for
the socket. -/
def undisturbed (event : Event) (connection : ConnectionState) : Bool :=
  match event with
  | .turn _ =>
    match connection.ready.head?.bind (connection.operations[·]?) with
    | some operation =>
      operation.progress ≠ .launched || !connection.isOpen ||
        !connection.operations.any Operation.waiting
    | none => true
  | .write _ | .close => !connection.isOpen || !connection.operations.any Operation.waiting
  | .arrive _ | .launch _ | .wake _ => true

/-- What the operations on one connection owe each other: no second borrow of the stream, one fiber
at most on the token, and the bytes that have come are those of the reads, in the order of their
launches, and those that nobody has read. -/
structure Orderly (connection : ConnectionState) : Prop where
  sole : connection.aborted = false
  token : ∀ (index other : Nat) (operation operation' : Operation),
    connection.operations[index]? = some operation → operation.progress = .parked →
    connection.operations[other]? = some operation' → operation'.progress = .parked → index = other
  order : connection.arrived =
    connection.operations.flatMap Operation.received ++ connection.unread

/-! ### What an undisturbed step keeps -/

/-- Whether the operation's fiber has not run. -/
def isLaunched (connection : ConnectionState) (index : Nat) : Prop :=
  ∃ operation, connection.operations[index]? = some operation ∧ operation.progress = .launched

/-- Who has the stream, and which operations have begun: a read begins when those before it are
done. -/
structure Consistent (connection : ConnectionState) : Prop where
  borrower : ∀ (index : Nat) (operation : Operation),
    connection.operations[index]? = some operation →
      (operation.waiting = true ↔ connection.borrowed = some index)
  borrowed : ∀ index ∈ connection.borrowed, index < connection.operations.length
  begun : ∀ (index other : Nat) (operation operation' : Operation), index < other →
    connection.operations[index]? = some operation → (∀ text, operation.progress ≠ .done text) →
    connection.operations[other]? = some operation' → operation'.kind ≠ .write →
      operation'.progress = .launched
  writes : ∀ (index : Nat) (operation : Operation), connection.operations[index]? = some operation →
    operation.kind = .write → operation.received = []
  queued : ∀ index, connection.isLaunched index → index ∈ connection.ready
  known : ∀ index ∈ connection.ready, index < connection.operations.length
  ordered : connection.ready.Pairwise fun index other =>
    connection.isLaunched index → connection.isLaunched other → index < other
  closed : connection.isOpen = false → connection.borrowed = none
  sole : connection.aborted = false
  order : connection.arrived =
    connection.operations.flatMap Operation.received ++ connection.unread

variable {connection later : ConnectionState}

theorem Consistent.start : start.Consistent where
  borrower index operation h := by cases h
  borrowed index h := by cases h
  begun index other operation operation' hlt h := by cases h
  writes index operation h := by cases h
  queued index h := by
    obtain ⟨operation, h, -⟩ := h
    cases h
  known index h := by cases h
  ordered := .nil
  closed _ := rfl
  sole := rfl
  order := rfl

/-- The stream is borrowed as long as an operation waits. -/
theorem Consistent.isSome_borrowed (h : connection.Consistent) :
    connection.borrowed.isSome = connection.operations.any Operation.waiting := by
  rw [Bool.eq_iff_iff, List.any_eq_true, Option.isSome_iff_exists]
  constructor
  · rintro ⟨index, hindex⟩
    have hlt := h.borrowed index hindex
    have hget := List.getElem?_eq_getElem hlt
    exact ⟨_, List.getElem_mem hlt, (h.borrower index _ hget).mpr hindex⟩
  · rintro ⟨operation, hmem, hwaiting⟩
    obtain ⟨index, hget⟩ := List.mem_iff_getElem?.mp hmem
    exact ⟨index, (h.borrower index operation hget).mp hwaiting⟩

/-- What holds while the operation at `index` runs: it has the stream, or is about to take it, and
nobody else has. -/
structure Running (connection : ConnectionState) (index : Nat) (operation : Operation) : Prop where
  get : connection.operations[index]? = some operation
  fresh : ∀ text, operation.progress ≠ .done text
  alone : ∀ (other : Nat) (operation' : Operation), other ≠ index →
    connection.operations[other]? = some operation' → operation'.waiting = false
  first : operation.kind ≠ .write → ∀ (other : Nat) (operation' : Operation), other < index →
    connection.operations[other]? = some operation' → ∃ text, operation'.progress = .done text
  begun : ∀ (earlier other : Nat) (operation' operation'' : Operation), earlier < other →
    other ≠ index → connection.operations[earlier]? = some operation' →
    (∀ text, operation'.progress ≠ .done text) →
    connection.operations[other]? = some operation'' → operation''.kind ≠ .write →
      operation''.progress = .launched
  writes : ∀ (other : Nat) (operation' : Operation), connection.operations[other]? = some operation' →
    operation'.kind = .write → operation'.received = []
  queued : ∀ other, other ≠ index → connection.isLaunched other → other ∈ connection.ready
  known : ∀ other ∈ connection.ready, other < connection.operations.length
  ordered : connection.ready.Pairwise fun other other' =>
    connection.isLaunched other → connection.isLaunched other' → other < other'
  sole : connection.aborted = false
  order : connection.arrived =
    connection.operations.flatMap Operation.received ++ connection.unread

theorem received_of_fresh {operation : Operation} (h : ∀ text, operation.progress ≠ .done text) :
    operation.received = [] := by
  unfold Operation.received
  split
  case h_1 text hdone => exact absurd hdone (h text)
  all_goals rfl

/-- The operation that runs parks with the stream, or ends. -/
theorem Running.set {index : Nat} {operation : Operation} {progress : Progress}
    {borrowed : Option Nat} {unread : List UInt8} (h : connection.Running index operation)
    (hborrowed : ∀ other ∈ borrowed, other = index) (hlaunched : progress ≠ .launched)
    (hwaiting : ({ operation with progress := progress } : Operation).waiting = true ↔
      borrowed = some index)
    (hclosed : connection.isOpen = false → borrowed = none)
    (hwrite : operation.kind = .write →
      ({ operation with progress := progress } : Operation).received = [])
    (hunread : connection.unread =
      ({ operation with progress := progress } : Operation).received ++ unread) :
    ({ connection.setProgress index operation progress with
      borrowed := borrowed, unread := unread } : ConnectionState).Consistent := by
  have hlt : index < connection.operations.length := (List.getElem?_eq_some_iff.mp h.get).1
  have hself : (connection.operations.set index { operation with progress := progress })[index]? =
      some { operation with progress := progress } := List.getElem?_set_self hlt
  have hother : ∀ other, other ≠ index →
      (connection.operations.set index { operation with progress := progress })[other]? =
        connection.operations[other]? := fun other hne => List.getElem?_set_ne (Ne.symm hne)
  -- whose fiber has not run has not run before
  have hbefore : ∀ other, ({ connection.setProgress index operation progress with
      borrowed := borrowed, unread := unread } : ConnectionState).isLaunched other →
        other ≠ index ∧ connection.isLaunched other := by
    rintro other ⟨operation', hget, hprogress⟩
    by_cases heq : other = index
    · subst heq
      obtain rfl := Option.some.inj (hself.symm.trans hget)
      exact absurd hprogress hlaunched
    · exact ⟨heq, operation', (hother other heq).symm.trans hget, hprogress⟩
  refine ⟨?_, ?_, ?_, ?_, ?_, ?_, ?_, hclosed, h.sole, ?_⟩
  · intro other operation' hget
    by_cases heq : other = index
    · subst heq
      obtain rfl := Option.some.inj (hself.symm.trans hget)
      exact hwaiting
    · have hidle := h.alone other operation' heq ((hother other heq).symm.trans hget)
      rw [hidle]
      constructor
      · intro hfalse
        cases hfalse
      · intro hsome
        exact absurd (hborrowed other hsome) heq
  · intro other hsome
    rw [hborrowed other hsome]
    exact Nat.lt_of_lt_of_eq hlt List.length_set.symm
  · intro earlier other operation' operation'' hearlier hget hfresh hget' hread
    by_cases heq : other = index
    · subst heq
      have hne : earlier ≠ other := Nat.ne_of_lt hearlier
      obtain rfl := Option.some.inj (hself.symm.trans hget')
      obtain ⟨text, hdone⟩ :=
        h.first hread earlier operation' hearlier ((hother earlier hne).symm.trans hget)
      exact absurd hdone (hfresh text)
    · have hbehind := (hother other heq).symm.trans hget'
      by_cases hsame : earlier = index
      · subst hsame
        exact h.begun earlier other operation operation'' hearlier heq h.get h.fresh hbehind hread
      · have hfirst := (hother earlier hsame).symm.trans hget
        exact h.begun earlier other operation' operation'' hearlier heq hfirst hfresh hbehind hread
  · intro other operation' hget hkind
    by_cases heq : other = index
    · subst heq
      obtain rfl := Option.some.inj (hself.symm.trans hget)
      exact hwrite hkind
    · exact h.writes other operation' ((hother other heq).symm.trans hget) hkind
  · intro other hisLaunched
    obtain ⟨hne, hisLaunched'⟩ := hbefore other hisLaunched
    exact h.queued other hne hisLaunched'
  · intro other hmem
    exact Nat.lt_of_lt_of_eq (h.known other hmem) List.length_set.symm
  · exact h.ordered.imp fun hlt' hfirst hsecond =>
      hlt' (hbefore _ hfirst).2 (hbefore _ hsecond).2
  · have hlast : ∀ (other : Nat) (operation' : Operation), index < other →
        connection.operations[other]? = some operation' → operation'.received = [] := by
      intro other operation' hbehind hget
      by_cases hkind : operation'.kind = .write
      · exact h.writes other operation' hget hkind
      · have hne : other ≠ index := Nat.ne_of_gt hbehind
        have hprogress :=
          h.begun index other operation operation' hbehind hne h.get h.fresh hget hkind
        rw [Operation.received, hprogress]
    show connection.arrived = (connection.operations.set index
      { operation with progress := progress }).flatMap Operation.received ++ unread
    rw [flatMap_set_of_last h.get (received_of_fresh h.fresh) hlast, List.append_assoc, ← hunread]
    exact h.order

theorem Running.use {index : Nat} {operation : Operation} {outcome : Outcome}
    (h : connection.Running index operation) (hopen : connection.isOpen = true)
    (hstep : connection.use index operation outcome = some later) : later.Consistent := by
  have hclosed : ∀ borrowed : Option Nat, connection.isOpen = false → borrowed = none := by
    rw [hopen]
    nofun
  unfold ConnectionState.use at hstep
  split at hstep
  case h_1 =>
    obtain rfl := Option.some.inj hstep
    exact h.set (fun other hsome => (Option.some.inj hsome).symm) nofun (iff_of_true rfl rfl)
      (hclosed _) (fun _ => rfl) rfl
  case h_2 | h_3 =>
    obtain rfl := Option.some.inj hstep
    exact h.set nofun nofun (iff_of_false nofun nofun) (hclosed _) (fun _ => rfl) rfl
  case h_4 count hkind | h_5 count hkind =>
    rw [Option.ite_none_right_eq_some] at hstep
    obtain rfl := Option.some.inj hstep.2
    refine h.set nofun nofun (iff_of_false nofun nofun) (hclosed _) ?_ ?_
    · rw [hkind]
      nofun
    · exact (List.take_append_drop count connection.unread).symm
  all_goals cases hstep

/-- An operation that begins: it finds the connection closed, or its stream free. -/
theorem Running.take {index : Nat} {operation : Operation} {outcome : Outcome}
    (h : connection.Running index operation) (hborrowed : connection.borrowed = none)
    (hstep : connection.take index operation outcome = some later) : later.Consistent := by
  unfold ConnectionState.take at hstep
  split at hstep
  case isTrue hopen =>
    rw [hborrowed, if_neg nofun] at hstep
    exact h.use hopen hstep
  case isFalse =>
    obtain rfl := Option.some.inj hstep
    have hset : ({ connection.setProgress index operation (.done []) with
        borrowed := none, unread := connection.unread } : ConnectionState).Consistent :=
      h.set nofun nofun (iff_of_false nofun nofun) (fun _ => rfl) (fun _ => rfl) rfl
    rwa [← hborrowed] at hset

theorem Consistent.not_waiting (h : connection.Consistent) (hborrowed : connection.borrowed = none)
    {index : Nat} {operation : Operation} (hget : connection.operations[index]? = some operation) :
    operation.waiting = false := by
  rw [← Bool.not_eq_true, h.borrower index operation hget, hborrowed]
  nofun

/-- The head of the ready queue runs for the first time. -/
theorem Consistent.running_launched (h : connection.Consistent)
    (hborrowed : connection.borrowed = none) {index : Nat} {ready : List Nat}
    {operation : Operation} (hready : connection.ready = index :: ready)
    (hget : connection.operations[index]? = some operation)
    (hprogress : operation.progress = .launched) :
    ({ connection with ready := ready } : ConnectionState).Running index operation := by
  have hordered := h.ordered
  rw [hready, List.pairwise_cons] at hordered
  obtain ⟨hhead, htail⟩ := hordered
  refine ⟨hget, ?_, ?_, ?_, ?_, h.writes, ?_, ?_, htail, h.sole, h.order⟩
  · rw [hprogress]
    nofun
  · intro other operation' _ hget'
    exact h.not_waiting hborrowed hget'
  · -- a read that was launched before it stands before it in the queue
    intro _ other operation' hlt hget'
    have hidle := h.not_waiting hborrowed hget'
    cases hprogress' : operation'.progress with
    | done text => exact ⟨text, rfl⟩
    | launched =>
      have hmem := h.queued other ⟨operation', hget', hprogress'⟩
      rw [hready] at hmem
      rcases List.mem_cons.mp hmem with rfl | hmem
      · exact absurd hlt (Nat.lt_irrefl _)
      · have hbehind := hhead other hmem ⟨operation, hget, hprogress⟩ ⟨operation', hget', hprogress'⟩
        omega
    | _ =>
      rw [Operation.waiting, hprogress'] at hidle
      cases hidle
  · intro earlier other operation' operation'' hlt _
    exact h.begun earlier other operation' operation'' hlt
  · intro other hne hisLaunched
    have hmem := h.queued other hisLaunched
    rw [hready] at hmem
    exact (List.mem_cons.mp hmem).resolve_left hne
  · intro other hmem
    exact h.known other (hready ▸ List.mem_cons_of_mem _ hmem)

/-- The head of the ready queue runs again: it has the stream. -/
theorem Consistent.running_woken (h : connection.Consistent) {index : Nat} {ready : List Nat}
    {operation : Operation} (hready : connection.ready = index :: ready)
    (hget : connection.operations[index]? = some operation)
    (hprogress : operation.progress = .woken) :
    connection.isOpen = true ∧
      ({ connection with ready := ready } : ConnectionState).Running index operation := by
  have hwaiting : operation.waiting = true := by rw [Operation.waiting, hprogress]
  have hborrowed := (h.borrower index operation hget).mp hwaiting
  have hordered := h.ordered
  rw [hready, List.pairwise_cons] at hordered
  refine ⟨?_, hget, ?_, ?_, ?_, ?_, h.writes, ?_, ?_, hordered.2, h.sole, h.order⟩
  · rw [← Bool.not_eq_false]
    intro hclosed
    rw [h.closed hclosed] at hborrowed
    cases hborrowed
  · rw [hprogress]
    nofun
  · intro other operation' hne hget'
    rw [← Bool.not_eq_true, h.borrower other operation' hget', hborrowed]
    exact fun heq => hne (Option.some.inj heq).symm
  · -- it has begun, so whatever is not a write before it is done
    intro hread other operation' hlt hget'
    by_contra hnone
    push Not at hnone
    have hlaunched := h.begun other index operation' operation hlt hget' hnone hget hread
    rw [hprogress] at hlaunched
    cases hlaunched
  · intro earlier other operation' operation'' hlt _
    exact h.begun earlier other operation' operation'' hlt
  · intro other hne hisLaunched
    have hmem := h.queued other hisLaunched
    rw [hready] at hmem
    exact (List.mem_cons.mp hmem).resolve_left hne
  · intro other hmem
    exact h.known other (hready ▸ List.mem_cons_of_mem _ hmem)

/-- In an undisturbed step an operation that begins finds the stream free. -/
theorem Consistent.borrowed_eq_none (h : connection.Consistent)
    (hquiet : connection.operations.any Operation.waiting = false) :
    connection.borrowed = none := by
  rw [← h.isSome_borrowed] at hquiet
  exact Option.isSome_eq_false_iff.mp hquiet |> Option.isNone_iff_eq_none.mp

theorem Consistent.turn (h : connection.Consistent) {outcome : Outcome}
    (hundisturbed : undisturbed (.turn outcome) connection = true)
    (hstep : connection.turn outcome = some later) : later.Consistent := by
  unfold ConnectionState.turn at hstep
  split at hstep
  case h_1 => cases hstep
  case h_2 index ready hready =>
    split at hstep
    case h_1 => cases hstep
    case h_2 operation hget =>
      split at hstep
      case h_1 hprogress =>
        have hborrowed : connection.borrowed = none := by
          simp only [undisturbed, hready, List.head?_cons, Option.bind_some, hget, hprogress,
            ne_eq, not_true_eq_false, decide_false, Bool.false_or, Bool.or_eq_true,
            Bool.not_eq_true'] at hundisturbed
          rcases hundisturbed with hclosed | hquiet
          · exact h.closed hclosed
          · exact h.borrowed_eq_none hquiet
        exact (h.running_launched hborrowed hready hget hprogress).take hborrowed hstep
      case h_2 hprogress =>
        obtain ⟨hopen, hrunning⟩ := h.running_woken hready hget hprogress
        exact hrunning.use hopen hstep
      case h_3 | h_4 => cases hstep

theorem get_of_concat {operations : List Operation} {operation operation' : Operation} {other : Nat}
    (hne : other ≠ operations.length)
    (hget : (operations ++ [operation])[other]? = some operation') :
    operations[other]? = some operation' := by
  have hlt := (List.getElem?_eq_some_iff.mp hget).1
  rw [List.length_append, List.length_singleton] at hlt
  rwa [List.getElem?_append_left (by omega)] at hget

theorem Consistent.write (h : connection.Consistent) {outcome : Outcome}
    (hundisturbed : undisturbed (.write outcome) connection = true)
    (hstep : connection.write outcome = some later) : later.Consistent := by
  have hborrowed : connection.borrowed = none := by
    simp only [undisturbed, Bool.or_eq_true, Bool.not_eq_true'] at hundisturbed
    rcases hundisturbed with hclosed | hquiet
    · exact h.closed hclosed
    · exact h.borrowed_eq_none hquiet
  have hrunning : ({ connection with
      operations := connection.operations ++ [{ kind := .write, progress := .launched }] } :
        ConnectionState).Running connection.operations.length
          { kind := .write, progress := .launched } := by
    refine ⟨List.getElem?_concat_length, nofun, ?_, ?_, ?_, ?_, ?_, ?_, ?_, h.sole, ?_⟩
    · intro other operation' hne hget
      exact h.not_waiting hborrowed (get_of_concat hne hget)
    · intro hread
      exact absurd rfl hread
    · intro earlier other operation' operation'' hlt hne hget hfresh hget'
      have hgetBefore := get_of_concat hne hget'
      have hlength := (List.getElem?_eq_some_iff.mp hgetBefore).1
      exact h.begun earlier other operation' operation'' hlt
        (get_of_concat (by omega) hget) hfresh hgetBefore
    · intro other operation' hget hkind
      by_cases heq : other = connection.operations.length
      · subst heq
        obtain rfl := Option.some.inj (List.getElem?_concat_length.symm.trans hget)
        rfl
      · exact h.writes other operation' (get_of_concat heq hget) hkind
    · rintro other hne ⟨operation', hget, hprogress⟩
      exact h.queued other ⟨operation', get_of_concat hne hget, hprogress⟩
    · intro other hmem
      have := h.known other hmem
      rw [List.length_append]
      omega
    · refine h.ordered.imp_of_mem ?_
      rintro other other' hmem hmem' hordered ⟨operation', hget, hprogress⟩
        ⟨operation'', hget', hprogress'⟩
      have hlt := h.known other hmem
      have hlt' := h.known other' hmem'
      exact hordered ⟨operation', get_of_concat (by omega) hget, hprogress⟩
        ⟨operation'', get_of_concat (by omega) hget', hprogress'⟩
    · rw [List.flatMap_append]
      show _ = _ ++ [] ++ _
      rw [List.append_nil]
      exact h.order
  exact hrunning.take hborrowed hstep

theorem Consistent.close (h : connection.Consistent)
    (hundisturbed : undisturbed .close connection = true) : connection.close.Consistent := by
  have hborrowed : connection.borrowed = none := by
    simp only [undisturbed, Bool.or_eq_true, Bool.not_eq_true'] at hundisturbed
    rcases hundisturbed with hclosed | hquiet
    · exact h.closed hclosed
    · exact h.borrowed_eq_none hquiet
  unfold ConnectionState.close
  split
  case isTrue =>
    rw [if_neg (by rw [hborrowed]; nofun)]
    exact ⟨h.borrower, h.borrowed, h.begun, h.writes, h.queued, h.known, h.ordered,
      fun _ => hborrowed, h.sole, h.order⟩
  case isFalse => exact h

theorem Consistent.launch (h : connection.Consistent) (kind : Kind) :
    (connection.launch kind).Consistent := by
  have hlast : (connection.launch kind).operations[connection.operations.length]? =
      some { kind := kind, progress := .launched } := List.getElem?_concat_length
  have hnew : ∀ {other : Nat} {operation' : Operation},
      (connection.launch kind).operations[other]? = some operation' →
        connection.operations[other]? = some operation' ∨
          other = connection.operations.length ∧
            operation' = { kind := kind, progress := .launched } := by
    intro other operation' hget
    by_cases heq : other = connection.operations.length
    · subst heq
      exact .inr ⟨rfl, (Option.some.inj (hlast.symm.trans hget)).symm⟩
    · exact .inl (get_of_concat heq hget)
  refine ⟨?_, ?_, ?_, ?_, ?_, ?_, ?_, h.closed, h.sole, ?_⟩
  · intro other operation' hget
    rcases hnew hget with hget | ⟨rfl, rfl⟩
    · exact h.borrower other operation' hget
    · refine iff_of_false nofun fun hborrowed => ?_
      exact absurd (h.borrowed _ hborrowed) (Nat.lt_irrefl _)
  · intro other hborrowed
    have := h.borrowed other hborrowed
    simp only [ConnectionState.launch, List.length_append]
    omega
  · intro earlier other operation' operation'' hlt hget hfresh hget' hread
    rcases hnew hget' with hget' | ⟨-, rfl⟩
    · have hlength := (List.getElem?_eq_some_iff.mp hget').1
      rcases hnew hget with hget | ⟨heq, -⟩
      · exact h.begun earlier other operation' operation'' hlt hget hfresh hget' hread
      · omega
    · rfl
  · intro other operation' hget hkind
    rcases hnew hget with hget | ⟨-, rfl⟩
    · exact h.writes other operation' hget hkind
    · rfl
  · rintro other ⟨operation', hget, hprogress⟩
    rcases hnew hget with hget | ⟨rfl, -⟩
    · exact List.mem_append_left _ (h.queued other ⟨operation', hget, hprogress⟩)
    · exact List.mem_append_right _ List.mem_cons_self
  · intro other hmem
    rcases List.mem_append.mp hmem with hmem | hmem
    · have := h.known other hmem
      simp only [ConnectionState.launch, List.length_append]
      omega
    · rw [List.mem_singleton.mp hmem]
      simp only [ConnectionState.launch, List.length_append, List.length_singleton]
      omega
  · refine List.pairwise_append.mpr ⟨?_, List.pairwise_singleton _ _, ?_⟩
    · refine h.ordered.imp_of_mem ?_
      rintro other other' hmem hmem' hordered ⟨operation', hget, hprogress⟩
        ⟨operation'', hget', hprogress'⟩
      have hlt := h.known other hmem
      have hlt' := h.known other' hmem'
      exact hordered ⟨operation', get_of_concat (by omega) hget, hprogress⟩
        ⟨operation'', get_of_concat (by omega) hget', hprogress'⟩
    · intro other hmem other' hmem' _ _
      rw [List.mem_singleton.mp hmem']
      exact h.known other hmem
  · simp only [ConnectionState.launch, List.flatMap_append]
    show _ = _ ++ [] ++ _
    rw [List.append_nil]
    exact h.order

/-- A fiber that is woken keeps the stream. -/
theorem Consistent.wake (h : connection.Consistent) {index : Nat}
    (hstep : connection.wake index = some later) : later.Consistent := by
  unfold ConnectionState.wake at hstep
  split at hstep
  case h_1 => cases hstep
  case h_2 operation hget =>
    rw [Option.ite_none_right_eq_some] at hstep
    obtain ⟨hparked, hstep⟩ := hstep
    obtain rfl := Option.some.inj hstep
    have hlt : index < connection.operations.length := (List.getElem?_eq_some_iff.mp hget).1
    have hold : ∀ {other : Nat} {operation' : Operation},
        (connection.operations.set index { operation with progress := .woken })[other]? =
          some operation' →
        connection.operations[other]? = some operation' ∨
          other = index ∧ operation' = { operation with progress := .woken } := by
      intro other operation' hother
      by_cases heq : other = index
      · subst heq
        rw [List.getElem?_set_self hlt] at hother
        exact .inr ⟨rfl, (Option.some.inj hother).symm⟩
      · rw [List.getElem?_set_ne (Ne.symm heq)] at hother
        exact .inl hother
    have hlaunched : ∀ other, ({ connection.setProgress index operation .woken with
        ready := connection.ready ++ [index] } : ConnectionState).isLaunched other →
          connection.isLaunched other := by
      rintro other ⟨operation', hother, hprogress⟩
      rcases hold hother with hother | ⟨-, rfl⟩
      · exact ⟨operation', hother, hprogress⟩
      · cases hprogress
    have hfresh : ∀ text, operation.progress ≠ .done text := by rw [hparked]; nofun
    refine ⟨?_, ?_, ?_, ?_, ?_, ?_, ?_, h.closed, h.sole, ?_⟩
    · intro other operation' hother
      rcases hold hother with hother | ⟨rfl, rfl⟩
      · exact h.borrower other operation' hother
      · refine iff_of_true rfl ((h.borrower other operation hget).mp ?_)
        rw [Operation.waiting, hparked]
    · intro other hborrowed
      exact Nat.lt_of_lt_of_eq (h.borrowed other hborrowed) List.length_set.symm
    · intro earlier other operation' operation'' hlt' hother hfresh' hother' hread
      rcases hold hother' with hbehind | ⟨rfl, rfl⟩
      · rcases hold hother with hfirst | ⟨rfl, rfl⟩
        · exact h.begun earlier other operation' operation'' hlt' hfirst hfresh' hbehind hread
        · exact h.begun earlier other operation operation'' hlt' hget hfresh hbehind hread
      · -- it has begun already, so nothing before it still runs
        exfalso
        rcases hold hother with hother | ⟨rfl, -⟩
        · have hprogress :=
            h.begun earlier other operation' operation hlt' hother hfresh' hget hread
          rw [hparked] at hprogress
          cases hprogress
        · omega
    · intro other operation' hother hkind
      rcases hold hother with hother | ⟨-, rfl⟩
      · exact h.writes other operation' hother hkind
      · rfl
    · intro other hisLaunched
      exact List.mem_append_left _ (h.queued other (hlaunched other hisLaunched))
    · intro other hmem
      refine Nat.lt_of_lt_of_eq ?_ List.length_set.symm
      rcases List.mem_append.mp hmem with hmem | hmem
      · exact h.known other hmem
      · rw [List.mem_singleton.mp hmem]
        exact hlt
    · refine List.pairwise_append.mpr ⟨?_, List.pairwise_singleton _ _, ?_⟩
      · exact h.ordered.imp fun hordered hfirst hsecond =>
          hordered (hlaunched _ hfirst) (hlaunched _ hsecond)
      · intro other _ other' hmem _ hsecond
        obtain ⟨operation', hother, hprogress⟩ := hlaunched _ hsecond
        rw [List.mem_singleton.mp hmem, hget] at hother
        obtain rfl := Option.some.inj hother
        rw [hparked] at hprogress
        cases hprogress
    · have hflat : (connection.operations.set index { operation with progress := .woken }).flatMap
          Operation.received = connection.operations.flatMap Operation.received := by
        refine flatMap_set_of_eq hget ?_
        rw [received_of_fresh hfresh, Operation.received]
      exact hflat ▸ h.order

theorem Consistent.step (h : connection.Consistent) {event : Event}
    (hundisturbed : undisturbed event connection = true)
    (hstep : step event connection = some later) : later.Consistent := by
  unfold ConnectionState.step at hstep
  rw [Option.ite_none_left_eq_some] at hstep
  obtain ⟨-, hstep⟩ := hstep
  split at hstep
  case h_1 bytes =>
    obtain rfl := Option.some.inj hstep
    refine ⟨h.borrower, h.borrowed, h.begun, h.writes, h.queued, h.known, h.ordered, h.closed,
      h.sole, ?_⟩
    show connection.arrived ++ bytes = _ ++ (connection.unread ++ bytes)
    rw [h.order, List.append_assoc]
  case h_2 timed =>
    obtain rfl := Option.some.inj hstep
    exact h.launch _
  case h_3 => exact h.turn hundisturbed hstep
  case h_4 => exact h.write hundisturbed hstep
  case h_5 =>
    obtain rfl := Option.some.inj hstep
    exact h.close hundisturbed
  case h_6 => exact h.wake hstep

theorem Consistent.orderly (h : connection.Consistent) : connection.Orderly := by
  refine ⟨h.sole, ?_, h.order⟩
  intro index other operation operation' hget hparked hget' hparked'
  have hborrowed := (h.borrower index operation hget).mp (by rw [Operation.waiting, hparked])
  have hborrowed' := (h.borrower other operation' hget').mp (by rw [Operation.waiting, hparked'])
  exact Option.some.inj (hborrowed.symm.trans hborrowed')

/-- A step that is not undisturbed is the second borrow. -/
theorem Consistent.aborted_of_disturbed (h : connection.Consistent) {event : Event}
    (hdisturbed : undisturbed event connection = false)
    (hstep : ConnectionState.step event connection = some later) : later.aborted = true := by
  unfold ConnectionState.step at hstep
  rw [Option.ite_none_left_eq_some] at hstep
  obtain ⟨-, hstep⟩ := hstep
  cases event with
  | arrive bytes => cases hdisturbed
  | launch timed => cases hdisturbed
  | wake index => cases hdisturbed
  | close =>
    simp only [undisturbed, Bool.or_eq_false_iff, Bool.not_eq_false'] at hdisturbed
    obtain ⟨hopen, hwaiting⟩ := hdisturbed
    obtain rfl := Option.some.inj hstep
    rw [ConnectionState.close, if_pos hopen, if_pos (h.isSome_borrowed.trans hwaiting)]
  | write outcome =>
    simp only [undisturbed, Bool.or_eq_false_iff, Bool.not_eq_false'] at hdisturbed
    obtain ⟨hopen, hwaiting⟩ := hdisturbed
    simp only [ConnectionState.write, ConnectionState.take, hopen, h.isSome_borrowed.trans hwaiting,
      if_true] at hstep
    obtain rfl := Option.some.inj hstep
    rfl
  | turn outcome =>
    dsimp only at hstep
    unfold ConnectionState.turn at hstep
    split at hstep
    case h_1 => cases hstep
    case h_2 index ready hready =>
      split at hstep
      case h_1 => cases hstep
      case h_2 operation hget =>
        simp only [undisturbed, hready, List.head?_cons, Option.bind_some, hget,
          Bool.or_eq_false_iff, decide_eq_false_iff_not, ne_eq, Decidable.not_not,
          Bool.not_eq_false'] at hdisturbed
        obtain ⟨⟨hlaunched, hopen⟩, hwaiting⟩ := hdisturbed
        rw [hlaunched] at hstep
        simp only [ConnectionState.take, hopen, h.isSome_borrowed.trans hwaiting, if_true] at hstep
        obtain rfl := Option.some.inj hstep
        rfl

/-- In an undisturbed run the operations are orderly; and of the steps that may follow, those that
are not undisturbed are the ones that take a second borrow. -/
theorem orderly_of_undisturbed
    (h : Run step (fun event connection => undisturbed event connection = true) start connection) :
    connection.Orderly ∧ ∀ event later, step event connection = some later →
      (later.aborted = true ↔ undisturbed event connection = false) := by
  have hconsistent : connection.Consistent :=
    h.invariant .start fun _ _ _ h hallowed hstep => h.step hallowed hstep
  refine ⟨hconsistent.orderly, fun event later hstep => ⟨?_, ?_⟩⟩
  · intro haborted
    rw [← Bool.not_eq_true]
    intro hundisturbed
    have hsole := (hconsistent.step hundisturbed hstep).sole
    rw [haborted] at hsole
    cases hsole
  · intro hdisturbed
    exact hconsistent.aborted_of_disturbed hdisturbed hstep

/-- Two reads launched together, of which only the second has to wait, a write and a close. -/
theorem two_reads : ∃ connection : ConnectionState,
    connection.operations.map Operation.received = [[1, 2], [3, 4], []] ∧ connection.Orderly := by
  obtain ⟨connection, hconnection⟩ : ∃ connection, follow step undisturbed
      [.launch false, .launch true, .arrive [1, 2, 3], .turn (.bytes 2), .turn .wouldBlock,
        .arrive [4], .wake 1, .turn (.bytes 2), .write .finished, .close] start =
      some connection := ⟨_, rfl⟩
  have horderly :=
    (orderly_of_undisturbed (.of_follow (fun _ _ h => h) .start hconnection)).1
  refine ⟨connection, ?_, horderly⟩
  obtain rfl := Option.some.inj hconnection
  rfl

/-- A write while a read waits for its bytes takes a second borrow of the stream. -/
theorem second_borrow : ¬∀ connection, Reachable step start connection → connection.Orderly := by
  intro hclaim
  obtain ⟨connection, hconnection⟩ : ∃ connection, follow step (fun _ _ => true)
      [.launch false, .turn .wouldBlock, .write .finished] start = some connection := ⟨_, rfl⟩
  have hsole := (hclaim connection (.of_follow (fun _ _ _ => trivial) .start hconnection)).sole
  obtain rfl := Option.some.inj hconnection
  cases hsole

end ConnectionState

end Quilon.Runtime
