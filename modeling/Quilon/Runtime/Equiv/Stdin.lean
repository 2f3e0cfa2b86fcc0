import Quilon.Library.Counting
import Quilon.Library.Segments
import Quilon.Runtime.Stdin
import Mathlib.Tactic.Common

/-!
# Concurrent reads of stdin take the lines in turn

The producer whose ticket is served is the only one inside the gate, and what it has in hand, with
what the gate and the descriptor still have, is the rest of the stream.  A producer that waits is
registered with the gate as long as its ticket is not served, and its token is completed by then.

Main results:

* `takeLine_eq_some`, `takeLine_eq_none_iff` — what `take_line` takes;
* `Ordered.step` — one producer inside, with the line of its turn;
* `Heard.step` — no wake is lost;
* `Ordered.finishes` — every read can come to its end;
* `reads_in_order` — what every run of the reads keeps.
-/

namespace Quilon.Runtime

namespace Stdin

/-- The `k`-th line of the stream: what stands before its `k`-th newline, and not the carriage return
at its end; what follows the last newline, as it stands; and then nothing. -/
def lineOf (stream : List UInt8) (k : Nat) : List UInt8 :=
  let segments := stream.splitOn newline
  match segments[k]? with
  | none => []
  | some segment =>
    if k + 1 < segments.length ∧ segment.getLast? = some carriageReturn then segment.dropLast
    else segment

/-- What has been read and not been given to a producer, and how many lines have been; `phase` is that
of the producer whose ticket is served. -/
def heldBy (gate : Gate) : Option Phase → List UInt8 × Nat
  | some (.inside (.scanning buffer)) | some (.inside (.reading buffer))
  | some (.inside (.blocked buffer)) => (buffer, gate.serving)
  | some (.inside (.storing buffer _)) => (buffer, gate.serving + 1)
  | some (.inside (.releasing _)) => (gate.leftover, gate.serving + 1)
  | _ => (gate.leftover, gate.serving)

def held (stdin : Stdin) : List UInt8 × Nat :=
  heldBy stdin.gate (stdin.producers[stdin.gate.serving]?.map Producer.phase)

/-- What the reads keep; `producers` has them in launch order.  No byte is lost or given twice: what
is held and what the descriptor has still to give is what follows the lines that were given. -/
structure Serves (stream : List UInt8) (stdin : Stdin) : Prop where
  alone : ∀ (index other : Nat) (producer producer' : Producer) (stage stage' : Stage),
    stdin.producers[index]? = some producer → producer.phase = .inside stage →
    stdin.producers[other]? = some producer' → producer'.phase = .inside stage' → index = other
  lines : ∀ (index : Nat) (producer : Producer) (line : List UInt8),
    stdin.producers[index]? = some producer → producer.phase = .yielded line →
      line = lineOf stream index
  unread : stdin.held.1 ++ stdin.input = remaining newline stream stdin.held.2
  finishes : ∃ later, Run step (fun event _ => event ≠ .launch) stdin later ∧
    later.producers.length = stdin.producers.length ∧
      ∀ producer ∈ later.producers, ∃ line, producer.phase = .yielded line

/-! ### Lines -/

theorem takeLine_eq_none_iff {buffer : List UInt8} :
    takeLine buffer = none ↔ newline ∉ buffer := by
  rw [← List.idxOf?_eq_none_iff]
  unfold takeLine
  split
  case h_1 hnone => simp only [hnone]
  case h_2 index hindex => simp only [hindex, reduceCtorEq]

theorem takeLine_eq_some {buffer line rest : List UInt8} (h : takeLine buffer = some (line, rest)) :
    ∃ segment, newline ∉ segment ∧ buffer = segment ++ newline :: rest ∧
      line = if segment.getLast? = some carriageReturn then segment.dropLast else segment := by
  unfold takeLine at h
  split at h
  case h_1 => cases h
  case h_2 index hindex =>
    obtain ⟨hlt, hget, hbefore⟩ := List.idxOf?_eq_some_iff.mp hindex
    have hsplit : buffer.take (index + 1) = buffer.take index ++ [newline] := by
      rw [List.take_add_one, List.getElem?_eq_getElem hlt, hget]
      rfl
    cases h
    refine ⟨buffer.take index, ?_, ?_, ?_⟩
    · intro hmem
      obtain ⟨position, hposition, heq⟩ := List.mem_take_iff_getElem.mp hmem
      exact hbefore position (by omega) heq
    · conv_lhs => rw [← List.take_append_drop (index + 1) buffer, hsplit]
      rw [List.append_assoc, List.singleton_append]
    · rw [hsplit, List.dropLast_concat]

/-- A line that is taken from what is in hand is the next line of the stream. -/
theorem lineOf_of_takeLine {stream buffer input line rest : List UInt8} {k : Nat}
    (hrest : buffer ++ input = remaining newline stream k)
    (h : takeLine buffer = some (line, rest)) :
    line = lineOf stream k ∧ rest ++ input = remaining newline stream (k + 1) := by
  obtain ⟨segment, hsegment, rfl, hline⟩ := takeLine_eq_some h
  rw [List.append_assoc, List.cons_append] at hrest
  obtain ⟨hget, hlt, hnext⟩ := remaining_of_terminated hrest.symm hsegment
  refine ⟨?_, hnext.symm⟩
  simp only [lineOf, hget, hlt, true_and]
  exact hline

/-- At the end of the stream the last line is what is in hand. -/
theorem lineOf_of_end {stream buffer : List UInt8} {k : Nat}
    (hrest : buffer = remaining newline stream k) (hbuffer : newline ∉ buffer) :
    buffer = lineOf stream k ∧ remaining newline stream (k + 1) = [] := by
  obtain ⟨hlength, hget, hnext⟩ := remaining_of_not_mem (hrest ▸ hbuffer)
  refine ⟨?_, hnext⟩
  rw [hrest, ← hget, lineOf]
  split
  case h_1 hnone => rw [hnone]; rfl
  case h_2 segment hsome => rw [hsome, if_neg (by omega)]; rfl

/-! ### One producer inside -/

/-- Where the ticket of a producer stands to the one that is served. -/
def Placed (gate : Gate) (index : Nat) : Phase → Prop
  | .unplaced | .queued | .registered | .parked => gate.serving ≤ index
  | .inside (.waking _) => index + 1 = gate.serving ∧ gate.locked = true
  | .inside _ => index = gate.serving ∧ gate.locked = false
  | .yielded _ => index < gate.serving

/-- What a producer has in hand: the line of its turn, or no newline while it reads. -/
def Carries (stream : List UInt8) (index : Nat) : Phase → Prop
  | .inside (.storing _ line) | .inside (.releasing line) | .inside (.waking line)
  | .yielded line => line = lineOf stream index
  | .inside (.reading buffer) | .inside (.blocked buffer) => newline ∉ buffer
  | _ => True

structure Ordered (stream : List UInt8) (stdin : Stdin) : Prop where
  next : stdin.gate.nextTicket = stdin.producers.length
  served : stdin.gate.serving ≤ stdin.producers.length
  placed : ∀ (index : Nat) (producer : Producer), stdin.producers[index]? = some producer →
    producer.ticket = index ∧ Placed stdin.gate index producer.phase ∧
      Carries stream index producer.phase
  locked : stdin.gate.locked = true → ∃ (index : Nat) (producer : Producer) (line : List UInt8),
    stdin.producers[index]? = some producer ∧ producer.phase = .inside (.waking line)
  unread : stdin.held.1 ++ stdin.input = remaining newline stream stdin.held.2

variable {stream : List UInt8} {stdin stdin' : Stdin}

theorem Ordered.start (stream : List UInt8) : (start stream).Ordered stream where
  next := rfl
  served := Nat.le_refl _
  placed index producer h := by cases h
  locked h := by cases h
  unread := remaining_zero.symm

/-- Outside the gate a producer has nothing in hand. -/
def Phase.outside : Phase → Bool
  | .inside _ => false
  | _ => true

theorem heldBy_of_outside {gate : Gate} {phase : Option Phase}
    (h : ∀ phase' ∈ phase, phase'.outside = true) :
    heldBy gate phase = (gate.leftover, gate.serving) := by
  cases phase with
  | none => rfl
  | some phase =>
    have := h phase rfl
    cases phase <;> first | rfl | cases this

theorem held_of_get {producer : Producer}
    (h : stdin.producers[stdin.gate.serving]? = some producer) :
    stdin.held = heldBy stdin.gate (some producer.phase) := by
  rw [held, h, Option.map_some]

/-- What a step of the producer at `index` has to keep for the order to be kept. -/
theorem Ordered.setPhase (h : stdin.Ordered stream) {index : Nat} {producer later : Producer}
    (hget : stdin.producers[index]? = some producer)
    (hproducers : stdin'.producers = stdin.producers.set index later)
    (hticket : later.ticket = producer.ticket)
    (hnext : stdin'.gate.nextTicket = stdin.gate.nextTicket)
    (hserved : stdin'.gate.serving ≤ stdin.producers.length)
    (hplaced : Placed stdin'.gate index later.phase)
    (hcarries : Carries stream index later.phase)
    (hothers : ∀ other phase, other ≠ index → Placed stdin.gate other phase →
      Placed stdin'.gate other phase)
    (hlocked : stdin'.gate.locked = true → (∃ line, later.phase = .inside (.waking line)) ∨
      stdin.gate.locked = true ∧ ∀ line, producer.phase ≠ .inside (.waking line))
    (hunread : stdin'.held.1 ++ stdin'.input = remaining newline stream stdin'.held.2) :
    stdin'.Ordered stream := by
  have hlt : index < stdin.producers.length := (List.getElem?_eq_some_iff.mp hget).1
  have hself : (stdin.producers.set index later)[index]? = some later := by
    rw [List.getElem?_set_self hlt]
  refine ⟨?_, ?_, ?_, ?_, hunread⟩
  · rw [hnext, hproducers, List.length_set]
    exact h.next
  · rw [hproducers, List.length_set]
    exact hserved
  · intro other producer' hother
    rw [hproducers] at hother
    by_cases heq : other = index
    · subst heq
      obtain rfl := Option.some.inj (hself.symm.trans hother)
      exact ⟨hticket.trans (h.placed other producer hget).1, hplaced, hcarries⟩
    · rw [List.getElem?_set_ne (Ne.symm heq)] at hother
      obtain ⟨hticket', hplaced', hcarries'⟩ := h.placed other producer' hother
      exact ⟨hticket', hothers other _ heq hplaced', hcarries'⟩
  · intro hlock
    rw [hproducers]
    rcases hlocked hlock with ⟨line, hwaking⟩ | ⟨hbefore, hne⟩
    · exact ⟨index, later, line, hself, hwaking⟩
    · obtain ⟨other, producer', line, hother, hwaking⟩ := h.locked hbefore
      have hneq : index ≠ other := by
        rintro rfl
        obtain rfl := Option.some.inj (hget.symm.trans hother)
        exact hne line hwaking
      exact ⟨other, producer', line, by rw [List.getElem?_set_ne hneq, hother], hwaking⟩

/-- The same for a step that leaves the gate as it is and takes no producer out of it. -/
theorem Ordered.keepGate (h : stdin.Ordered stream) {index : Nat} {producer later : Producer}
    (hget : stdin.producers[index]? = some producer)
    (hproducers : stdin'.producers = stdin.producers.set index later)
    (hticket : later.ticket = producer.ticket)
    (hgate : stdin'.gate = stdin.gate) (hquiet : ∀ line, producer.phase ≠ .inside (.waking line))
    (hplaced : Placed stdin.gate index later.phase) (hcarries : Carries stream index later.phase)
    (hunread : stdin'.held.1 ++ stdin'.input = remaining newline stream stdin'.held.2) :
    stdin'.Ordered stream := by
  refine h.setPhase hget hproducers hticket ?_ ?_ ?_ hcarries ?_ ?_ hunread
  · rw [hgate]
  · rw [hgate]
    exact h.served
  · rw [hgate]
    exact hplaced
  · intro other phase _ hphase
    rw [hgate]
    exact hphase
  · intro hlock
    rw [hgate] at hlock
    exact .inr ⟨hlock, hquiet⟩

/-- A step of one producer that changes nothing about what is in hand. -/
theorem held_of_set {index : Nat} {producer later : Producer}
    (hget : stdin.producers[index]? = some producer)
    (hproducers : stdin'.producers = stdin.producers.set index later)
    (hserving : stdin'.gate.serving = stdin.gate.serving)
    (hphase : heldBy stdin'.gate (some later.phase) = heldBy stdin.gate (some producer.phase))
    (hleftover : stdin'.gate.leftover = stdin.gate.leftover) : stdin'.held = stdin.held := by
  have hlt : index < stdin.producers.length := (List.getElem?_eq_some_iff.mp hget).1
  by_cases heq : index = stdin.gate.serving
  · subst heq
    rw [held_of_get hget, ← hphase]
    apply held_of_get
    rw [hproducers, hserving, List.getElem?_set_self hlt]
  · rw [held, held, hproducers, hserving, List.getElem?_set_ne heq]
    unfold heldBy
    rw [hserving, hleftover]

theorem Ordered.launch (h : stdin.Ordered stream) (hstep : stdin.launch = some stdin') :
    stdin'.Ordered stream := by
  unfold Stdin.launch at hstep
  split at hstep
  case isTrue => cases hstep
  case isFalse hlock =>
    obtain rfl := Option.some.inj hstep
    have hserved := h.served
    refine ⟨?_, ?_, ?_, fun hlock' => absurd hlock' hlock, ?_⟩
    · show stdin.gate.nextTicket + 1 = _
      rw [List.length_append, List.length_singleton, h.next]
    · show stdin.gate.serving ≤ _
      rw [List.length_append, List.length_singleton]
      omega
    · intro index producer hget
      rcases Nat.lt_or_ge index stdin.producers.length with hlt | hge
      · rw [List.getElem?_append_left hlt] at hget
        exact h.placed index producer hget
      · rw [List.getElem?_append_right hge, List.getElem?_singleton] at hget
        split at hget
        case isFalse => cases hget
        case isTrue hzero =>
          obtain rfl := Option.some.inj hget
          have hindex : index = stdin.producers.length := by omega
          refine ⟨?_, ?_, trivial⟩
          · rw [hindex]
            exact h.next
          · show stdin.gate.serving ≤ index
            omega
    · -- a producer that was not there before has nothing in hand
      have hheld : ({ stdin with
          gate := { stdin.gate with nextTicket := stdin.gate.nextTicket + 1 }
          producers := stdin.producers ++
            [{ ticket := stdin.gate.nextTicket, worker := 0, phase := .unplaced }] } :
            Stdin).held = stdin.held := by
        rcases Nat.lt_or_ge stdin.gate.serving stdin.producers.length with hlt | hge
        · unfold held
          dsimp only
          rw [List.getElem?_append_left hlt]
          rfl
        · have hserving : stdin.producers.length = stdin.gate.serving := by omega
          unfold held
          dsimp only
          rw [List.getElem?_append_right hge, List.getElem?_eq_none hge, hserving, Nat.sub_self]
          rfl
      rw [hheld]
      exact h.unread

theorem Ordered.collect (h : stdin.Ordered stream) {worker : Nat}
    (hstep : stdin.collect worker = some stdin') : stdin'.Ordered stream := by
  unfold Stdin.collect at hstep
  split at hstep
  case isFalse => cases hstep
  case isTrue =>
    obtain rfl := Option.some.inj hstep
    refine ⟨?_, ?_, ?_, ?_, ?_⟩
    · rw [List.length_mapIdx]
      exact h.next
    · rw [List.length_mapIdx]
      exact h.served
    · intro index later hget
      rw [List.getElem?_mapIdx] at hget
      obtain ⟨producer, hproducer, rfl⟩ := Option.map_eq_some_iff.mp hget
      obtain ⟨hticket, hplaced, hcarries⟩ := h.placed index producer hproducer
      split
      case isTrue hparked =>
        rw [hparked.2] at hplaced
        exact ⟨hticket, hplaced, trivial⟩
      case isFalse => exact ⟨hticket, hplaced, hcarries⟩
    · intro hlock
      obtain ⟨index, producer, line, hget, hwaking⟩ := h.locked hlock
      refine ⟨index, producer, line, ?_, hwaking⟩
      rw [List.getElem?_mapIdx, hget, Option.map_some, if_neg]
      rintro ⟨-, hparked⟩
      rw [hwaking] at hparked
      cases hparked
    · have hunread := h.unread
      unfold held at hunread ⊢
      dsimp only
      rw [List.getElem?_mapIdx]
      cases hget : stdin.producers[stdin.gate.serving]? with
      | none =>
        rw [hget] at hunread
        exact hunread
      | some producer =>
        rw [hget, Option.map_some] at hunread
        rw [Option.map_some, Option.map_some]
        split
        case isTrue hparked =>
          rw [hparked.2] at hunread
          exact hunread
        case isFalse => exact hunread

/-- The producer inside the gate is the one whose ticket is served. -/
theorem Ordered.serving (h : stdin.Ordered stream) {index : Nat} {producer : Producer}
    {stage : Stage} (hget : stdin.producers[index]? = some producer)
    (hphase : producer.phase = .inside stage) (hwaking : ∀ line, stage ≠ .waking line) :
    index = stdin.gate.serving ∧ stdin.gate.locked = false := by
  have hplaced := (h.placed index producer hget).2.1
  rw [hphase] at hplaced
  cases stage with
  | waking line => exact absurd rfl (hwaking line)
  | _ => exact hplaced

/-- A step from one stage to the next with the ticket still served. -/
theorem Ordered.nextStage (h : stdin.Ordered stream) {index : Nat} {producer : Producer}
    {stage later : Stage} (hget : stdin.producers[index]? = some producer)
    (hphase : producer.phase = .inside stage)
    (hproducers : stdin'.producers =
      stdin.producers.set index { producer with phase := .inside later })
    (hwaking : ∀ line, stage ≠ .waking line) (hlater : ∀ line, later ≠ .waking line)
    (hnext : stdin'.gate.nextTicket = stdin.gate.nextTicket)
    (hserving : stdin'.gate.serving = stdin.gate.serving)
    (hlocked : stdin'.gate.locked = stdin.gate.locked)
    (hcarries : Carries stream index (.inside later))
    (hunread : (heldBy stdin.gate (some producer.phase)).1 ++ stdin.input =
        remaining newline stream (heldBy stdin.gate (some producer.phase)).2 →
      (heldBy stdin'.gate (some (.inside later))).1 ++ stdin'.input =
        remaining newline stream (heldBy stdin'.gate (some (.inside later))).2) :
    stdin'.Ordered stream := by
  obtain ⟨rfl, hunlocked⟩ := h.serving hget hphase hwaking
  have hlt : stdin.gate.serving < stdin.producers.length := (List.getElem?_eq_some_iff.mp hget).1
  have hplaced : Placed stdin'.gate stdin.gate.serving (.inside later) := by
    cases later with
    | waking line => exact absurd rfl (hlater line)
    | _ => exact ⟨hserving.symm, hlocked.trans hunlocked⟩
  have hget' : stdin'.producers[stdin'.gate.serving]? =
      some { producer with phase := .inside later } := by
    rw [hproducers, hserving, List.getElem?_set_self hlt]
  refine h.setPhase hget hproducers rfl hnext ?_ hplaced hcarries ?_ ?_ ?_
  · rw [hserving]
    exact h.served
  · intro other phase _ hother
    unfold Placed
    rw [hserving, hlocked]
    exact hother
  · intro hlock
    rw [hlocked, hunlocked] at hlock
    cases hlock
  · rw [held_of_get hget']
    apply hunread
    have hheld := h.unread
    rw [held_of_get hget] at hheld
    exact hheld

theorem Ordered.check (h : stdin.Ordered stream) {index : Nat} {producer : Producer}
    (hget : stdin.producers[index]? = some producer)
    (hstep : stdin.check index producer = some stdin') : stdin'.Ordered stream := by
  unfold Stdin.check at hstep
  split at hstep
  case isFalse => cases hstep
  case isTrue hguard =>
    obtain ⟨hqueued, -, hunlocked⟩ := hguard
    obtain ⟨hticket, hplaced, -⟩ := h.placed index producer hget
    have hquiet : ∀ line, producer.phase ≠ .inside (.waking line) := by
      rw [hqueued]
      intro line hline
      cases hline
    split at hstep
    case isTrue hserving =>
      obtain rfl := Option.some.inj hstep
      have hheld : (stdin.setPhase index producer (.inside .entered)).held = stdin.held :=
        held_of_set hget rfl rfl (by rw [hqueued]; rfl) rfl
      refine h.keepGate hget rfl rfl rfl hquiet ?_ trivial (hheld ▸ h.unread)
      exact ⟨hticket.symm.trans hserving.symm, by rwa [Bool.not_eq_true] at hunlocked⟩
    case isFalse hserving =>
      obtain rfl := Option.some.inj hstep
      rw [hqueued] at hplaced
      refine h.setPhase hget rfl rfl rfl h.served hplaced trivial (fun _ _ _ hphase => hphase)
        (fun hlock => absurd hlock hunlocked) ?_
      have hheld : ({ stdin.setPhase index producer .registered with
          gate := { stdin.gate with waiters := stdin.gate.waiters ++ [index] } } : Stdin).held =
            stdin.held :=
        held_of_set hget rfl rfl (by rw [hqueued]; rfl) rfl
      exact hheld ▸ h.unread

theorem Ordered.advance (h : stdin.Ordered stream) {index : Nat} {producer : Producer}
    {stage : Stage} (hget : stdin.producers[index]? = some producer)
    (hphase : producer.phase = .inside stage)
    (hstep : stdin.advance index producer stage = some stdin') : stdin'.Ordered stream := by
  obtain ⟨-, hplaced, hcarries⟩ := h.placed index producer hget
  rw [hphase] at hcarries
  cases stage with
  | entered =>
    simp only [Stdin.advance, Option.ite_none_left_eq_some] at hstep
    obtain rfl := Option.some.inj hstep.2
    refine h.nextStage hget hphase rfl nofun nofun rfl rfl rfl trivial ?_
    rw [hphase]
    exact id
  | scanning buffer =>
    simp only [Stdin.advance] at hstep
    split at hstep
    case h_1 line rest hline =>
      obtain rfl := Option.some.inj hstep
      have hserving := (h.serving hget hphase nofun).1
      have hrest : buffer ++ stdin.input = remaining newline stream index := by
        have hunread := h.unread
        rwa [held_of_get (hserving ▸ hget), hphase, heldBy, ← hserving] at hunread
      have htaken := lineOf_of_takeLine hrest hline
      refine h.nextStage hget hphase rfl nofun nofun rfl rfl rfl htaken.1 ?_
      intro _
      rw [heldBy]
      exact hserving ▸ htaken.2
    case h_2 hline =>
      obtain rfl := Option.some.inj hstep
      refine h.nextStage hget hphase rfl nofun nofun rfl rfl rfl ?_ ?_
      · exact takeLine_eq_none_iff.mp hline
      · rw [hphase]
        exact id
  | storing buffer line =>
    simp only [Stdin.advance, Option.ite_none_left_eq_some] at hstep
    obtain rfl := Option.some.inj hstep.2
    refine h.nextStage hget hphase rfl nofun nofun rfl rfl rfl hcarries ?_
    rw [hphase]
    exact id
  | releasing line =>
    simp only [Stdin.advance, Option.ite_none_left_eq_some] at hstep
    obtain rfl := Option.some.inj hstep.2
    obtain ⟨hserving, hunlocked⟩ := h.serving hget hphase nofun
    have hlt : index < stdin.producers.length := (List.getElem?_eq_some_iff.mp hget).1
    refine h.setPhase hget rfl rfl rfl ?_ ?_ hcarries ?_ ?_ ?_
    · show stdin.gate.serving + 1 ≤ _
      omega
    · exact ⟨by rw [hserving], rfl⟩
    · intro other phase hne hother
      -- nobody else is inside, and whose turn is over has yielded
      cases phase with
      | inside stage =>
        cases stage with
        | waking line =>
          rw [hother.2] at hunlocked
          cases hunlocked
        | _ => exact absurd (hother.1.trans hserving.symm) hne
      | yielded line => exact Nat.lt_succ_of_lt hother
      | _ =>
        have hle : stdin.gate.serving ≤ other := hother
        show stdin.gate.serving + 1 ≤ other
        omega
    · intro _
      exact .inl ⟨line, rfl⟩
    · have hrest := h.unread
      rw [held_of_get (hserving ▸ hget), hphase] at hrest
      rw [held, heldBy_of_outside]
      · exact hrest
      · intro phase hnextPhase
        obtain ⟨producer', hget', rfl⟩ := Option.map_eq_some_iff.mp hnextPhase
        have hne : index ≠ stdin.gate.serving + 1 := by omega
        have hother := (h.placed _ producer' ((List.getElem?_set_ne hne).symm.trans hget')).2.1
        cases hphase' : producer'.phase with
        | inside stage =>
          rw [hphase'] at hother
          cases stage with
          | waking line =>
            rw [hother.2] at hunlocked
            cases hunlocked
          | _ =>
            have := hother.1
            omega
        | _ => rfl
  | waking line =>
    rw [hphase] at hplaced
    simp only [Stdin.advance] at hstep
    split at hstep
    case h_1 waiter waiters hwaiters =>
      split at hstep
      case h_1 woken hwoken =>
        obtain rfl := Option.some.inj hstep
        exact ⟨h.next, h.served, h.placed, h.locked, h.unread⟩
      case h_2 => cases hstep
    case h_2 =>
      obtain rfl := Option.some.inj hstep
      refine h.setPhase hget rfl rfl rfl h.served ?_ hcarries ?_ nofun ?_
      · show index < stdin.gate.serving
        have := hplaced.1
        omega
      · intro other phase hne hother
        have := hplaced.1
        cases phase with
        | inside stage =>
          cases stage with
          | waking line' =>
            have := hother.1
            omega
          | _ =>
            have hunlocked := hother.2
            rw [hplaced.2] at hunlocked
            cases hunlocked
        | _ => exact hother
      · have hheld : ({ stdin.setPhase index producer (.yielded line) with
            gate := { stdin.gate with locked := false } } : Stdin).held = stdin.held :=
          held_of_set hget rfl rfl (by rw [hphase]; rfl) rfl
        exact hheld ▸ h.unread
  | reading _ => cases hstep
  | blocked _ => cases hstep

theorem Ordered.read (h : stdin.Ordered stream) {index : Nat} {producer : Producer}
    {buffer : List UInt8} {result : ReadResult} (hget : stdin.producers[index]? = some producer)
    (hphase : producer.phase = .inside (.reading buffer))
    (hstep : stdin.read index producer buffer result = some stdin') : stdin'.Ordered stream := by
  have hserving := (h.serving hget hphase nofun).1
  have hrest : buffer ++ stdin.input = remaining newline stream index := by
    have hunread := h.unread
    rwa [held_of_get (hserving ▸ hget), hphase, heldBy, ← hserving] at hunread
  have hcarries := (h.placed index producer hget).2.2
  rw [hphase] at hcarries
  unfold Stdin.read at hstep
  split at hstep
  case h_1 =>
    obtain rfl := Option.some.inj hstep
    refine h.nextStage hget hphase rfl nofun nofun rfl rfl rfl hcarries ?_
    rw [hphase]
    exact id
  case h_2 =>
    obtain rfl := Option.some.inj hstep
    exact h
  case h_3 =>
    rw [Option.ite_none_right_eq_some] at hstep
    obtain ⟨hend, hstep⟩ := hstep
    obtain rfl := Option.some.inj hstep
    rw [hend, List.append_nil] at hrest
    obtain ⟨hline, hnext⟩ := lineOf_of_end hrest hcarries
    refine h.nextStage hget hphase rfl nofun nofun rfl rfl rfl hline ?_
    intro _
    show [] ++ stdin.input = remaining newline stream (stdin.gate.serving + 1)
    rw [hend, ← hserving, hnext]
    rfl
  case h_4 count hcount =>
    rw [Option.ite_none_right_eq_some] at hstep
    obtain ⟨-, hstep⟩ := hstep
    -- what is read moves from the descriptor to the producer's hand
    have hmoved : buffer ++ stdin.input.take count ++ stdin.input.drop count =
        remaining newline stream index := by
      rw [List.append_assoc, List.take_append_drop]
      exact hrest
    dsimp only at hstep
    cases hline : takeLine (buffer ++ stdin.input.take count) with
    | none =>
      rw [hline] at hstep
      obtain rfl := Option.some.inj hstep
      refine h.nextStage hget hphase rfl nofun nofun rfl rfl rfl ?_ ?_
      · exact takeLine_eq_none_iff.mp hline
      · intro _
        rw [heldBy]
        exact hserving ▸ hmoved
    | some taken =>
      obtain ⟨line, rest⟩ := taken
      rw [hline] at hstep
      obtain rfl := Option.some.inj hstep
      have htaken := lineOf_of_takeLine hmoved hline
      refine h.nextStage hget hphase rfl nofun nofun rfl rfl rfl htaken.1 ?_
      intro _
      rw [heldBy]
      exact hserving ▸ htaken.2

theorem Ordered.stepProducer (h : stdin.Ordered stream) {event : Event} {index : Nat}
    {producer : Producer} (hget : stdin.producers[index]? = some producer)
    (hstep : stdin.stepProducer event index producer = some stdin') : stdin'.Ordered stream := by
  obtain ⟨-, hplaced, -⟩ := h.placed index producer hget
  unfold Stdin.stepProducer at hstep
  split at hstep
  case h_1 worker hphase =>
    obtain rfl := Option.some.inj hstep
    rw [hphase] at hplaced
    refine h.keepGate hget rfl rfl rfl (by rw [hphase]; nofun) hplaced trivial ?_
    have hheld : (stdin.setPhase index { producer with worker := worker } .queued).held =
        stdin.held :=
      held_of_set hget rfl rfl (by rw [hphase]; rfl) rfl
    exact hheld ▸ h.unread
  case h_2 => exact h.check hget hstep
  case h_3 hphase =>
    obtain rfl := Option.some.inj hstep
    rw [hphase] at hplaced
    refine h.keepGate hget rfl rfl rfl (by rw [hphase]; nofun) hplaced trivial ?_
    have hheld : (stdin.setPhase index producer .parked).held = stdin.held :=
      held_of_set hget rfl rfl (by rw [hphase]; rfl) rfl
    exact hheld ▸ h.unread
  case h_4 stage hphase => exact h.advance hget hphase hstep
  case h_5 buffer hphase => exact h.read hget hphase hstep
  case h_6 buffer hphase =>
    rw [Option.ite_none_right_eq_some] at hstep
    obtain rfl := Option.some.inj hstep.2
    have hcarries := (h.placed index producer hget).2.2
    rw [hphase] at hcarries
    refine h.nextStage hget hphase rfl nofun nofun rfl rfl rfl hcarries ?_
    rw [hphase]
    exact id
  case h_7 => cases hstep

theorem Ordered.step (h : stdin.Ordered stream) {event : Event}
    (hstep : step event stdin = some stdin') : stdin'.Ordered stream := by
  unfold Stdin.step at hstep
  split at hstep
  case h_1 => exact h.launch hstep
  case h_2 => exact h.collect hstep
  all_goals
    split at hstep
    case h_1 hget => exact h.stepProducer hget hstep
    case h_2 => cases hstep

/-! ### No wake is lost -/

/-- Whether the producer has registered with the gate. -/
def Phase.waiting : Phase → Bool
  | .registered | .parked => true
  | _ => false

/-- Who waits is woken: a producer that is registered or parked is among the waiters, or its token is
completed; and while nobody holds the lock, no waiter's ticket is served. -/
structure Heard (stdin : Stdin) : Prop where
  waiting : ∀ (index : Nat) (producer : Producer), stdin.producers[index]? = some producer →
    producer.phase.waiting = true →
      index ∈ stdin.gate.waiters ∨ index ∈ stdin.completed producer.worker
  known : ∀ waiter ∈ stdin.gate.waiters, waiter < stdin.producers.length
  behind : stdin.gate.locked = false → ∀ waiter ∈ stdin.gate.waiters, stdin.gate.serving < waiter

theorem Heard.start (stream : List UInt8) : (start stream).Heard where
  waiting index producer h := by cases h
  known waiter h := by cases h
  behind _ waiter h := by cases h

theorem Heard.setPhase (h : stdin.Heard) {index : Nat} {producer later : Producer}
    (hget : stdin.producers[index]? = some producer)
    (hproducers : stdin'.producers = stdin.producers.set index later)
    (hcompleted : stdin'.completed = stdin.completed)
    (hwaiters : ∀ waiter ∈ stdin.gate.waiters, waiter ∈ stdin'.gate.waiters)
    (hlater : later.phase.waiting = true →
      index ∈ stdin'.gate.waiters ∨ producer.phase.waiting = true ∧ later.worker = producer.worker)
    (hknown : ∀ waiter ∈ stdin'.gate.waiters, waiter < stdin.producers.length)
    (hbehind : stdin'.gate.locked = false →
      ∀ waiter ∈ stdin'.gate.waiters, stdin'.gate.serving < waiter) : stdin'.Heard := by
  refine ⟨?_, ?_, hbehind⟩
  · intro other producer' hother hwaiting
    rw [hproducers] at hother
    rw [hcompleted]
    by_cases heq : other = index
    · subst heq
      have hlt := (List.getElem?_eq_some_iff.mp hget).1
      rw [List.getElem?_set_self hlt] at hother
      obtain rfl := Option.some.inj hother
      rcases hlater hwaiting with hregistered | ⟨hbefore, hworker⟩
      · exact .inl hregistered
      · rw [hworker]
        exact (h.waiting other producer hget hbefore).imp_left (hwaiters other)
    · rw [List.getElem?_set_ne (Ne.symm heq)] at hother
      exact (h.waiting other producer' hother hwaiting).imp_left (hwaiters other)
  · rw [hproducers, List.length_set]
    exact hknown

/-- A step of one producer that stops waiting, or was waiting, under a gate that stays. -/
theorem Heard.keepGate (h : stdin.Heard) {index : Nat} {producer later : Producer}
    (hget : stdin.producers[index]? = some producer)
    (hproducers : stdin'.producers = stdin.producers.set index later)
    (hcompleted : stdin'.completed = stdin.completed)
    (hwaiters : stdin'.gate.waiters = stdin.gate.waiters)
    (hlater : later.phase.waiting = true →
      producer.phase.waiting = true ∧ later.worker = producer.worker)
    (hbehind : stdin'.gate.locked = false →
      stdin.gate.locked = false ∧ stdin'.gate.serving = stdin.gate.serving) : stdin'.Heard := by
  refine h.setPhase hget hproducers hcompleted ?_ (fun hwaiting => .inr (hlater hwaiting)) ?_ ?_
  · rw [hwaiters]
    exact fun _ hmem => hmem
  · rw [hwaiters]
    exact h.known
  · intro hlock
    obtain ⟨hbefore, hserving⟩ := hbehind hlock
    rw [hwaiters, hserving]
    exact h.behind hbefore

theorem Heard.launch (h : stdin.Heard) (hstep : stdin.launch = some stdin') : stdin'.Heard := by
  unfold Stdin.launch at hstep
  split at hstep
  case isTrue => cases hstep
  case isFalse =>
    obtain rfl := Option.some.inj hstep
    refine ⟨?_, ?_, h.behind⟩
    · intro index producer hget hwaiting
      rcases Nat.lt_or_ge index stdin.producers.length with hlt | hge
      · rw [List.getElem?_append_left hlt] at hget
        exact h.waiting index producer hget hwaiting
      · rw [List.getElem?_append_right hge, List.getElem?_singleton] at hget
        split at hget
        case isFalse => cases hget
        case isTrue =>
          obtain rfl := Option.some.inj hget
          cases hwaiting
    · intro waiter hmem
      have := h.known waiter hmem
      rw [List.length_append]
      omega

theorem Heard.collect (h : stdin.Heard) {worker : Nat}
    (hstep : stdin.collect worker = some stdin') : stdin'.Heard := by
  unfold Stdin.collect at hstep
  split at hstep
  case isFalse => cases hstep
  case isTrue hguard =>
    obtain ⟨hidle, -⟩ := hguard
    obtain rfl := Option.some.inj hstep
    refine ⟨?_, ?_, h.behind⟩
    · intro index later hget hwaiting
      rw [List.getElem?_mapIdx] at hget
      obtain ⟨producer, hproducer, rfl⟩ := Option.map_eq_some_iff.mp hget
      split at hwaiting
      case isTrue => cases hwaiting
      case isFalse hkept =>
        rw [if_neg hkept]
        refine (h.waiting index producer hproducer hwaiting).imp_right fun hmem => ?_
        by_cases hworker : producer.worker = worker
        · -- it has its token, so it is not parked; and the worker runs none that is registered
          exfalso
          subst hworker
          have hrunning := List.all_eq_true.mp hidle producer (List.mem_of_getElem? hproducer)
          cases hphase : producer.phase <;> simp_all [Phase.waiting, Phase.running]
        · show index ∈ Function.update stdin.completed worker [] producer.worker
          rw [Function.update_of_ne hworker]
          exact hmem
    · rw [List.length_mapIdx]
      exact h.known

theorem Heard.check (h : stdin.Heard) (hordered : stdin.Ordered stream) {index : Nat}
    {producer : Producer} (hget : stdin.producers[index]? = some producer)
    (hstep : stdin.check index producer = some stdin') : stdin'.Heard := by
  unfold Stdin.check at hstep
  split at hstep
  case isFalse => cases hstep
  case isTrue hguard =>
    obtain ⟨hqueued, -, hunlocked⟩ := hguard
    split at hstep
    case isTrue =>
      obtain rfl := Option.some.inj hstep
      exact h.keepGate hget rfl rfl rfl nofun fun hlock => ⟨hlock, rfl⟩
    case isFalse hserving =>
      obtain rfl := Option.some.inj hstep
      have hlt := (List.getElem?_eq_some_iff.mp hget).1
      obtain ⟨hticket, hplaced, -⟩ := hordered.placed index producer hget
      rw [hqueued] at hplaced
      have hle : stdin.gate.serving ≤ index := hplaced
      refine h.setPhase hget rfl rfl ?_ ?_ ?_ ?_
      · exact fun _ hmem => List.mem_append_left _ hmem
      · exact fun _ => .inl (List.mem_append_right _ List.mem_cons_self)
      · intro waiter hmem
        rcases List.mem_append.mp hmem with hmem | hmem
        · exact h.known waiter hmem
        · rw [List.mem_singleton.mp hmem]
          exact hlt
      · intro hlock waiter hmem
        rcases List.mem_append.mp hmem with hmem | hmem
        · exact h.behind hlock waiter hmem
        · rw [List.mem_singleton.mp hmem]
          show stdin.gate.serving < index
          omega

theorem Heard.advance (h : stdin.Heard) (hordered : stdin.Ordered stream) {index : Nat}
    {producer : Producer} {stage : Stage} (hget : stdin.producers[index]? = some producer)
    (hphase : producer.phase = .inside stage)
    (hstep : stdin.advance index producer stage = some stdin') : stdin'.Heard := by
  cases stage with
  | entered =>
    simp only [Stdin.advance, Option.ite_none_left_eq_some] at hstep
    obtain rfl := Option.some.inj hstep.2
    exact h.keepGate hget rfl rfl rfl nofun fun hlock => ⟨hlock, rfl⟩
  | scanning buffer =>
    simp only [Stdin.advance] at hstep
    split at hstep
    all_goals
      obtain rfl := Option.some.inj hstep
      exact h.keepGate hget rfl rfl rfl nofun fun hlock => ⟨hlock, rfl⟩
  | storing buffer line =>
    simp only [Stdin.advance, Option.ite_none_left_eq_some] at hstep
    obtain rfl := Option.some.inj hstep.2
    exact h.keepGate hget rfl rfl rfl nofun fun hlock => ⟨hlock, rfl⟩
  | releasing line =>
    simp only [Stdin.advance, Option.ite_none_left_eq_some] at hstep
    obtain rfl := Option.some.inj hstep.2
    exact h.keepGate hget rfl rfl rfl nofun nofun
  | waking line =>
    simp only [Stdin.advance] at hstep
    split at hstep
    case h_1 waiter waiters hwaiters =>
      split at hstep
      case h_1 woken hwoken =>
        obtain rfl := Option.some.inj hstep
        have hlocked : stdin.gate.locked = true := by
          have hplaced := (hordered.placed index producer hget).2.1
          rw [hphase] at hplaced
          exact hplaced.2
        refine ⟨?_, ?_, ?_⟩
        · intro other producer' hother hwaiting
          show other ∈ waiters ∨ other ∈ Function.update stdin.completed woken.worker
            (stdin.completed woken.worker ++ [waiter]) producer'.worker
          by_cases hworker : producer'.worker = woken.worker
          · rw [hworker, Function.update_self, List.mem_append, List.mem_singleton]
            rcases h.waiting other producer' hother hwaiting with hmem | hmem
            · rw [hwaiters] at hmem
              rcases List.mem_cons.mp hmem with heq | hmem
              · exact .inr (.inr heq)
              · exact .inl hmem
            · exact .inr (.inl (hworker ▸ hmem))
          · rw [Function.update_of_ne hworker]
            rcases h.waiting other producer' hother hwaiting with hmem | hmem
            · rw [hwaiters] at hmem
              rcases List.mem_cons.mp hmem with rfl | hmem
              · rw [hwoken] at hother
                exact absurd (congrArg Producer.worker (Option.some.inj hother).symm) hworker
              · exact .inl hmem
            · exact .inr hmem
        · intro other hmem
          exact h.known other (hwaiters ▸ List.mem_cons_of_mem _ hmem)
        · intro hlock
          rw [hlocked] at hlock
          cases hlock
      case h_2 => cases hstep
    case h_2 hnone =>
      obtain rfl := Option.some.inj hstep
      refine h.setPhase hget rfl rfl (fun _ hmem => hmem) nofun h.known ?_
      intro _ waiter hmem
      rw [hnone] at hmem
      cases hmem
  | reading _ => cases hstep
  | blocked _ => cases hstep

theorem Heard.read (h : stdin.Heard) {index : Nat} {producer : Producer} {buffer : List UInt8}
    {result : ReadResult} (hget : stdin.producers[index]? = some producer)
    (hstep : stdin.read index producer buffer result = some stdin') : stdin'.Heard := by
  unfold Stdin.read at hstep
  split at hstep
  case h_1 =>
    obtain rfl := Option.some.inj hstep
    exact h.keepGate hget rfl rfl rfl nofun fun hlock => ⟨hlock, rfl⟩
  case h_2 =>
    obtain rfl := Option.some.inj hstep
    exact h
  case h_3 =>
    rw [Option.ite_none_right_eq_some] at hstep
    obtain rfl := Option.some.inj hstep.2
    exact h.keepGate hget rfl rfl rfl nofun fun hlock => ⟨hlock, rfl⟩
  case h_4 =>
    rw [Option.ite_none_right_eq_some] at hstep
    obtain rfl := Option.some.inj hstep.2
    exact h.keepGate hget rfl rfl rfl nofun fun hlock => ⟨hlock, rfl⟩

theorem Heard.stepProducer (h : stdin.Heard) (hordered : stdin.Ordered stream) {event : Event}
    {index : Nat} {producer : Producer} (hget : stdin.producers[index]? = some producer)
    (hstep : stdin.stepProducer event index producer = some stdin') : stdin'.Heard := by
  unfold Stdin.stepProducer at hstep
  split at hstep
  case h_1 =>
    obtain rfl := Option.some.inj hstep
    exact h.keepGate hget rfl rfl rfl nofun fun hlock => ⟨hlock, rfl⟩
  case h_2 => exact h.check hordered hget hstep
  case h_3 hphase =>
    obtain rfl := Option.some.inj hstep
    refine h.keepGate hget rfl rfl rfl (fun _ => ⟨?_, rfl⟩) fun hlock => ⟨hlock, rfl⟩
    rw [hphase]
    rfl
  case h_4 hphase => exact h.advance hordered hget hphase hstep
  case h_5 => exact h.read hget hstep
  case h_6 =>
    rw [Option.ite_none_right_eq_some] at hstep
    obtain rfl := Option.some.inj hstep.2
    exact h.keepGate hget rfl rfl rfl nofun fun hlock => ⟨hlock, rfl⟩
  case h_7 => cases hstep

theorem Heard.step (h : stdin.Heard) (hordered : stdin.Ordered stream) {event : Event}
    (hstep : step event stdin = some stdin') : stdin'.Heard := by
  unfold Stdin.step at hstep
  split at hstep
  case h_1 => exact h.launch hstep
  case h_2 => exact h.collect hstep
  all_goals
    split at hstep
    case h_1 hget => exact h.stepProducer hordered hget hstep
    case h_2 => cases hstep

/-! ### Every read comes to its end -/

/-- How far the producer whose ticket is served is from the end of its turn. -/
def Phase.rank : Phase → Nat
  | .registered => 12
  | .unplaced | .parked => 11
  | .queued => 10
  | .inside .entered => 9
  | .inside (.scanning _) => 8
  | .inside (.blocked _) => 7
  | .inside (.reading _) => 6
  | .inside (.storing _ _) => 5
  | .inside (.releasing _) => 4
  | .inside (.waking _) => 3
  | .yielded _ => 0

theorem Phase.rank_le (phase : Phase) : phase.rank ≤ 12 := by
  cases phase with
  | inside stage => cases stage <;> (simp only [Phase.rank]; omega)
  | _ => simp only [Phase.rank]; omega

/-- The tickets that are not served yet. -/
def ahead (stdin : Stdin) : Nat :=
  stdin.producers.length - stdin.gate.serving

def turn (stdin : Stdin) : Nat :=
  if stdin.gate.locked then 13
  else (stdin.producers[stdin.gate.serving]?.map fun producer => producer.phase.rank).getD 0

/-- The producers that have still to park, and those that have still to be woken. -/
def unsettled (stdin : Stdin) : Nat :=
  stdin.producers.countP (fun producer => producer.phase = .registered) + stdin.gate.waiters.length

/-- What is left to do is less, in the lexicographic order. -/
def Nearer (later stdin : Stdin) : Prop :=
  later.ahead < stdin.ahead ∨ later.ahead = stdin.ahead ∧
    (later.turn < stdin.turn ∨ later.turn = stdin.turn ∧
      (later.input.length < stdin.input.length ∨ later.input.length = stdin.input.length ∧
        later.unsettled < stdin.unsettled))

theorem turn_of_get (hunlocked : stdin.gate.locked = false) {producer : Producer}
    (hget : stdin.producers[stdin.gate.serving]? = some producer) :
    stdin.turn = producer.phase.rank := by
  rw [turn, hunlocked, hget]
  rfl

theorem turn_of_set {producer later : Producer}
    (hget : stdin.producers[stdin.gate.serving]? = some producer)
    (hproducers : stdin'.producers = stdin.producers.set stdin.gate.serving later)
    (hserving : stdin'.gate.serving = stdin.gate.serving)
    (hunlocked' : stdin'.gate.locked = false) : stdin'.turn = later.phase.rank := by
  have hlt : stdin.gate.serving < stdin.producers.length := (List.getElem?_eq_some_iff.mp hget).1
  apply turn_of_get hunlocked'
  rw [hproducers, hserving, List.getElem?_set_self hlt]

/-- A step of the producer whose turn it is. -/
theorem nearer_of_rank {producer later : Producer}
    (hget : stdin.producers[stdin.gate.serving]? = some producer)
    (hproducers : stdin'.producers = stdin.producers.set stdin.gate.serving later)
    (hserving : stdin'.gate.serving = stdin.gate.serving)
    (hunlocked : stdin.gate.locked = false) (hunlocked' : stdin'.gate.locked = false)
    (hrank : later.phase.rank < producer.phase.rank) : Nearer stdin' stdin := by
  refine .inr ⟨?_, .inl ?_⟩
  · rw [ahead, ahead, hproducers, hserving, List.length_set]
  · rw [turn_of_get hunlocked hget, turn_of_set hget hproducers hserving hunlocked']
    exact hrank

/-- A step of the producer whose turn it is, that takes from the descriptor. -/
theorem nearer_of_input {producer later : Producer}
    (hget : stdin.producers[stdin.gate.serving]? = some producer)
    (hproducers : stdin'.producers = stdin.producers.set stdin.gate.serving later)
    (hserving : stdin'.gate.serving = stdin.gate.serving)
    (hunlocked : stdin.gate.locked = false) (hunlocked' : stdin'.gate.locked = false)
    (hrank : later.phase.rank = producer.phase.rank)
    (hinput : stdin'.input.length < stdin.input.length) : Nearer stdin' stdin := by
  refine .inr ⟨?_, .inr ⟨?_, .inl hinput⟩⟩
  · rw [ahead, ahead, hproducers, hserving, List.length_set]
  · rw [turn_of_get hunlocked hget, turn_of_set hget hproducers hserving hunlocked']
    exact hrank

/-- What a step that brings the reads nearer to their end is. -/
def Proceeds (stdin : Stdin) : Prop :=
  ∃ event later, event ≠ .launch ∧ step event stdin = some later ∧
    later.producers.length = stdin.producers.length ∧ Nearer later stdin

/-- A worker that runs a producer while it is the turn of one that does not run: the producer it
runs has registered, and parks. -/
theorem Ordered.proceeds_of_busy (h : stdin.Ordered stream) (hunlocked : stdin.gate.locked = false)
    {producer : Producer} (hget : stdin.producers[stdin.gate.serving]? = some producer)
    (hrunning : producer.phase.running = false) {worker : Nat} (hbusy : stdin.idle worker = false) :
    stdin.Proceeds := by
  obtain ⟨running, hmem, hworker⟩ := List.all_eq_false.mp hbusy
  obtain ⟨index, hindex⟩ := List.mem_iff_getElem?.mp hmem
  have hne : index ≠ stdin.gate.serving := by
    rintro rfl
    obtain rfl := Option.some.inj (hget.symm.trans hindex)
    simp [hrunning] at hworker
  have hregistered : running.phase = .registered := by
    have hplaced := (h.placed index running hindex).2.1
    cases hphase : running.phase with
    | registered => rfl
    | inside stage =>
      rw [hphase] at hplaced
      cases stage with
      | waking line =>
        have := hplaced.2
        rw [hunlocked] at this
        cases this
      | _ => exact absurd hplaced.1 hne
    | _ =>
      rw [hphase] at hworker
      simp [Phase.running] at hworker
  refine ⟨.park index, stdin.setPhase index running .parked, nofun, ?_, ?_, ?_⟩
  · simp only [Stdin.step, hindex, Stdin.stepProducer, hregistered]
  · rw [Stdin.setPhase, List.length_set]
  · refine .inr ⟨?_, .inr ⟨?_, .inr ⟨rfl, ?_⟩⟩⟩
    · rw [ahead, Stdin.setPhase, List.length_set]
      rfl
    · unfold turn
      simp only [Stdin.setPhase, List.getElem?_set_ne hne]
    · have hcount := countP_set_add (fun producer : Producer => producer.phase = .registered) hindex
        { running with phase := .parked }
      simp only [hregistered] at hcount
      simp only [unsettled, Stdin.setPhase]
      simp at hcount ⊢
      omega

/-- While the lock is held, the one who holds it wakes the next waiter or lets go of it. -/
theorem Ordered.proceeds_of_locked (h : stdin.Ordered stream) (hheard : stdin.Heard)
    (hlocked : stdin.gate.locked = true) : stdin.Proceeds := by
  obtain ⟨index, producer, line, hget, hphase⟩ := h.locked hlocked
  have hturn : stdin.turn = 13 := by rw [turn, hlocked, if_pos rfl]
  cases hwaiters : stdin.gate.waiters with
  | nil =>
    refine ⟨.advance index, { stdin.setPhase index producer (.yielded line) with
      gate := { stdin.gate with locked := false } }, nofun, ?_, ?_, ?_⟩
    · simp only [Stdin.step, hget, Stdin.stepProducer, hphase, Stdin.advance, hwaiters]
    · exact List.length_set
    · refine .inr ⟨?_, .inl ?_⟩
      · rw [ahead, ahead, Stdin.setPhase, List.length_set]
      · rw [hturn, turn, if_neg nofun]
        cases hserving : (stdin.setPhase index producer (.yielded line)).producers[
            stdin.gate.serving]? with
        | none => simp
        | some producer' =>
          have := producer'.phase.rank_le
          simp only [Option.map_some, Option.getD_some]
          omega
  | cons waiter waiters =>
    have hlt := hheard.known waiter (by rw [hwaiters]; exact List.mem_cons_self)
    have hwoken : stdin.producers[waiter]? = some stdin.producers[waiter] :=
      List.getElem?_eq_getElem hlt
    refine ⟨.advance index, { stdin with
      gate := { stdin.gate with waiters := waiters }
      completed := Function.update stdin.completed stdin.producers[waiter].worker
        (stdin.completed stdin.producers[waiter].worker ++ [waiter]) }, nofun, ?_, rfl, ?_⟩
    · simp only [Stdin.step, hget, Stdin.stepProducer, hphase, Stdin.advance, hwaiters, hwoken]
    · refine .inr ⟨rfl, .inr ⟨rfl, .inr ⟨rfl, ?_⟩⟩⟩
      simp only [unsettled, hwaiters, List.length_cons]
      omega

/-- A `read` that gives something, or the end: either there is a line now, or less to read. -/
theorem proceeds_of_reading (hunlocked : stdin.gate.locked = false) {producer : Producer}
    {buffer : List UInt8}
    (hget : stdin.producers[stdin.gate.serving]? = some producer)
    (hphase : producer.phase = .inside (.reading buffer)) : stdin.Proceeds := by
  have hrank : producer.phase.rank = 6 := by rw [hphase]; rfl
  cases hinput : stdin.input with
  | nil =>
    refine ⟨.read stdin.gate.serving (.bytes 0),
      stdin.setPhase stdin.gate.serving producer (.inside (.storing [] buffer)), nofun, ?_,
      List.length_set, nearer_of_rank hget rfl rfl hunlocked hunlocked ?_⟩
    · simp only [Stdin.step, hget, Stdin.stepProducer, hphase, Stdin.read, hinput, if_true]
    · rw [hrank]
      show 5 < 6
      omega
  | cons byte input =>
    have hallowed : 1 ≤ chunkSize ∧ 1 ≤ stdin.input.length := by
      rw [hinput]
      exact ⟨by decide, Nat.le_add_left _ _⟩
    cases hline : takeLine (buffer ++ stdin.input.take 1) with
    | none =>
      refine ⟨.read stdin.gate.serving (.bytes 1), { stdin.setPhase stdin.gate.serving producer
        (.inside (.reading (buffer ++ stdin.input.take 1))) with input := stdin.input.drop 1 },
        nofun, ?_, List.length_set, nearer_of_input hget rfl rfl hunlocked hunlocked ?_ ?_⟩
      · simp only [Stdin.step, hget, Stdin.stepProducer, hphase, Stdin.read, hallowed, hline,
          and_self, if_true]
      · rw [hrank]
        rfl
      · rw [List.length_drop]
        omega
    | some taken =>
      obtain ⟨line, rest⟩ := taken
      refine ⟨.read stdin.gate.serving (.bytes 1), { stdin.setPhase stdin.gate.serving producer
        (.inside (.storing rest line)) with input := stdin.input.drop 1 }, nofun, ?_,
        List.length_set, nearer_of_rank hget rfl rfl hunlocked hunlocked ?_⟩
      · simp only [Stdin.step, hget, Stdin.stepProducer, hphase, Stdin.read, hallowed, hline,
          and_self, if_true]
      · rw [hrank]
        show 5 < 6
        omega

theorem collect_eq_some {worker : Nat} (hidle : stdin.idle worker = true)
    (hsome : stdin.completed worker ≠ []) :
    stdin.collect worker = some { stdin with
      producers := stdin.producers.mapIdx fun index producer =>
        if index ∈ stdin.completed worker ∧ producer.phase = .parked then
          { producer with phase := .queued }
        else producer
      completed := Function.update stdin.completed worker [] } :=
  if_pos ⟨hidle, hsome⟩

/-- The tokens that are completed are collected when the worker runs no producer. -/
theorem Ordered.proceeds_of_parked (h : stdin.Ordered stream) (hheard : stdin.Heard)
    (hunlocked : stdin.gate.locked = false) {producer : Producer}
    (hget : stdin.producers[stdin.gate.serving]? = some producer)
    (hphase : producer.phase = .parked) : stdin.Proceeds := by
  cases hidle : stdin.idle producer.worker with
  | false => exact h.proceeds_of_busy hunlocked hget (by rw [hphase]; rfl) hidle
  | true =>
    have hcompleted : stdin.gate.serving ∈ stdin.completed producer.worker := by
      rcases hheard.waiting _ producer hget (by rw [hphase]; rfl) with hmem | hmem
      · exact absurd (hheard.behind hunlocked _ hmem) (Nat.lt_irrefl _)
      · exact hmem
    have hsome : stdin.completed producer.worker ≠ [] := List.ne_nil_of_mem hcompleted
    have hcollect := collect_eq_some hidle hsome
    refine ⟨.collect producer.worker, _, nofun, hcollect, List.length_mapIdx, ?_⟩
    refine .inr ⟨?_, .inl ?_⟩
    · rw [ahead, ahead, List.length_mapIdx]
    · rw [turn_of_get hunlocked hget, hphase, turn, if_neg (by rw [hunlocked]; nofun),
        List.getElem?_mapIdx, hget, Option.map_some, if_pos ⟨hcompleted, hphase⟩]
      show 10 < 11
      omega

theorem Ordered.proceeds_of_unlocked (h : stdin.Ordered stream) (hheard : stdin.Heard)
    (hunlocked : stdin.gate.locked = false)
    (hserving : stdin.gate.serving < stdin.producers.length) : stdin.Proceeds := by
  have hget := List.getElem?_eq_getElem hserving
  obtain ⟨hticket, hplaced, -⟩ := h.placed _ _ hget
  have hfree : ¬stdin.gate.locked = true := by rw [hunlocked]; nofun
  generalize stdin.producers[stdin.gate.serving] = producer at hget hplaced hticket
  cases hphase : producer.phase with
  | unplaced =>
    refine ⟨.place stdin.gate.serving 0, stdin.setPhase stdin.gate.serving
      { producer with worker := 0 } .queued, nofun, ?_, List.length_set,
      nearer_of_rank hget rfl rfl hunlocked hunlocked ?_⟩
    · simp only [Stdin.step, hget, Stdin.stepProducer, hphase]
    · rw [hphase]
      show 10 < 11
      omega
  | queued =>
    cases hidle : stdin.idle producer.worker with
    | false => exact h.proceeds_of_busy hunlocked hget (by rw [hphase]; rfl) hidle
    | true =>
      refine ⟨.check stdin.gate.serving, stdin.setPhase stdin.gate.serving producer
        (.inside .entered), nofun, ?_, List.length_set,
        nearer_of_rank hget rfl rfl hunlocked hunlocked ?_⟩
      · simp only [Stdin.step, hget, Stdin.stepProducer, Stdin.check, hphase, hidle,
          hunlocked, hticket, Bool.false_eq_true, not_false_eq_true, and_self, if_true]
      · rw [hphase]
        show 9 < 10
        omega
  | registered =>
    refine ⟨.park stdin.gate.serving, stdin.setPhase stdin.gate.serving producer .parked, nofun, ?_,
      List.length_set, nearer_of_rank hget rfl rfl hunlocked hunlocked ?_⟩
    · simp only [Stdin.step, hget, Stdin.stepProducer, hphase]
    · rw [hphase]
      show 11 < 12
      omega
  | parked => exact h.proceeds_of_parked hheard hunlocked hget hphase
  | yielded line =>
    rw [hphase] at hplaced
    exact absurd hplaced (Nat.lt_irrefl _)
  | inside stage =>
    cases stage with
    | entered =>
      refine ⟨.advance stdin.gate.serving, { stdin.setPhase stdin.gate.serving producer
        (.inside (.scanning stdin.gate.leftover)) with
          gate := { stdin.gate with leftover := [] } }, nofun, ?_, List.length_set,
        nearer_of_rank hget rfl rfl hunlocked hunlocked ?_⟩
      · simp only [Stdin.step, hget, Stdin.stepProducer, hphase, Stdin.advance, if_neg hfree]
      · rw [hphase]
        show 8 < 9
        omega
    | scanning buffer =>
      cases hline : takeLine buffer with
      | none =>
        refine ⟨.advance stdin.gate.serving, stdin.setPhase stdin.gate.serving producer
          (.inside (.reading buffer)), nofun, ?_, List.length_set,
          nearer_of_rank hget rfl rfl hunlocked hunlocked ?_⟩
        · simp only [Stdin.step, hget, Stdin.stepProducer, hphase, Stdin.advance, hline]
        · rw [hphase]
          show 6 < 8
          omega
      | some taken =>
        refine ⟨.advance stdin.gate.serving, stdin.setPhase stdin.gate.serving producer
          (.inside (.storing taken.2 taken.1)), nofun, ?_, List.length_set,
          nearer_of_rank hget rfl rfl hunlocked hunlocked ?_⟩
        · simp only [Stdin.step, hget, Stdin.stepProducer, hphase, Stdin.advance, hline]
        · rw [hphase]
          show 5 < 8
          omega
    | reading buffer => exact proceeds_of_reading hunlocked hget hphase
    | blocked buffer =>
      cases hidle : stdin.idle producer.worker with
      | false => exact h.proceeds_of_busy hunlocked hget (by rw [hphase]; rfl) hidle
      | true =>
        refine ⟨.ready stdin.gate.serving, stdin.setPhase stdin.gate.serving producer
          (.inside (.reading buffer)), nofun, ?_, List.length_set,
          nearer_of_rank hget rfl rfl hunlocked hunlocked ?_⟩
        · simp only [Stdin.step, hget, Stdin.stepProducer, hphase, hidle, if_true]
        · rw [hphase]
          show 6 < 7
          omega
    | storing buffer line =>
      refine ⟨.advance stdin.gate.serving, { stdin.setPhase stdin.gate.serving producer
        (.inside (.releasing line)) with gate := { stdin.gate with leftover := buffer } },
        nofun, ?_, List.length_set, nearer_of_rank hget rfl rfl hunlocked hunlocked ?_⟩
      · simp only [Stdin.step, hget, Stdin.stepProducer, hphase, Stdin.advance, if_neg hfree]
      · rw [hphase]
        show 4 < 5
        omega
    | releasing line =>
      refine ⟨.advance stdin.gate.serving, { stdin.setPhase stdin.gate.serving producer
        (.inside (.waking line)) with
          gate := { stdin.gate with serving := stdin.gate.serving + 1, locked := true } },
        nofun, ?_, List.length_set, .inl ?_⟩
      · simp only [Stdin.step, hget, Stdin.stepProducer, hphase, Stdin.advance, if_neg hfree]
      · simp only [ahead, Stdin.setPhase, List.length_set]
        omega
    | waking line =>
      rw [hphase] at hplaced
      exact absurd hplaced.2 hfree

/-- The reads that are launched can all come to their end, with no more of them launched. -/
theorem Ordered.finishes {base stdin : Stdin} (h : stdin.Ordered stream) (hheard : stdin.Heard)
    (hrun : Run Stdin.step (fun event _ => event ≠ .launch) base stdin) :
    ∃ later, Run Stdin.step (fun event _ => event ≠ .launch) base later ∧
      later.producers.length = stdin.producers.length ∧
        ∀ producer ∈ later.producers, ∃ line, producer.phase = .yielded line := by
  by_cases hmore : stdin.gate.locked = true ∨ stdin.gate.serving < stdin.producers.length
  · have hproceeds : stdin.Proceeds := by
      by_cases hlocked : stdin.gate.locked = true
      · exact h.proceeds_of_locked hheard hlocked
      · rw [Bool.not_eq_true] at hlocked
        exact h.proceeds_of_unlocked hheard hlocked
          (hmore.resolve_left (by rw [hlocked]; nofun))
    obtain ⟨event, next, hlaunch, hstep, hlength, hnearer⟩ := hproceeds
    obtain ⟨later, hlater, hlength', hyielded⟩ :=
      (h.step hstep).finishes (hheard.step h hstep) (.next event hrun hlaunch hstep)
    exact ⟨later, hlater, hlength'.trans hlength, hyielded⟩
  · refine ⟨stdin, hrun, rfl, ?_⟩
    push Not at hmore
    obtain ⟨hfree, hserving⟩ := hmore
    intro producer hmem
    obtain ⟨index, hget⟩ := List.mem_iff_getElem?.mp hmem
    have hlt := (List.getElem?_eq_some_iff.mp hget).1
    have hplaced := (h.placed index producer hget).2.1
    cases hphase : producer.phase with
    | yielded line => exact ⟨line, rfl⟩
    | inside stage =>
      rw [hphase] at hplaced
      cases stage with
      | waking line => exact absurd hplaced.2 hfree
      | _ =>
        have := hplaced.1
        omega
    | _ =>
      rw [hphase] at hplaced
      have hle : stdin.gate.serving ≤ index := hplaced
      omega
termination_by (stdin.ahead, stdin.turn, stdin.input.length, stdin.unsettled)
decreasing_by
  simp only [Prod.lex_def]
  exact hnearer

/-- While the lock is held, the ticket that is served is that of the next producer. -/
theorem add_of_placed_inside {gate : Gate} {index : Nat} {stage : Stage}
    (h : Placed gate index (.inside stage)) : index + gate.locked.toNat = gate.serving := by
  cases stage with
  | waking line =>
    obtain ⟨hserving, hlocked⟩ := h
    rw [hlocked]
    exact hserving
  | _ =>
    obtain ⟨hserving, hlocked⟩ := h
    rw [hlocked]
    exact hserving

theorem Ordered.alone (h : stdin.Ordered stream) {index other : Nat} {producer producer' : Producer}
    {stage stage' : Stage} (hget : stdin.producers[index]? = some producer)
    (hphase : producer.phase = .inside stage) (hget' : stdin.producers[other]? = some producer')
    (hphase' : producer'.phase = .inside stage') : index = other := by
  have hplaced := (h.placed index producer hget).2.1
  have hplaced' := (h.placed other producer' hget').2.1
  rw [hphase] at hplaced
  rw [hphase'] at hplaced'
  have hserving := add_of_placed_inside hplaced
  have hserving' := add_of_placed_inside hplaced'
  omega

theorem Ordered.of_reaches (h : Reaches stream stdin) : stdin.Ordered stream :=
  Run.invariant (Ordered.start stream) (fun _ _ _ hordered _ hstep => hordered.step hstep) h

theorem Heard.of_reaches (h : Reaches stream stdin) : stdin.Heard :=
  Run.strengthen (fun _ hrun => Ordered.of_reaches hrun) (Heard.start stream)
    (fun _ _ _ hordered hheard _ hstep => hheard.step hordered hstep) h

/-- In every run of the reads, one producer at a time is inside the gate, the read that is launched
`k`-th gives the `k`-th line, no byte is lost or given twice, and every read can come to its end. -/
theorem reads_in_order (h : Reaches stream stdin) : stdin.Serves stream := by
  have hordered := Ordered.of_reaches h
  refine ⟨?_, ?_, hordered.unread, hordered.finishes (Heard.of_reaches h) .start⟩
  · intro index other producer producer' stage stage' hget hphase hget' hphase'
    exact hordered.alone hget hphase hget' hphase'
  · intro index producer line hget hphase
    have hcarries := (hordered.placed index producer hget).2.2
    rw [hphase] at hcarries
    exact hcarries

/-- Two reads on two workers: the second waits for its turn, and for what the first has left. -/
theorem two_lines : ∃ stdin, Reaches [97, 13, 10, 98] stdin ∧
    stdin.producers.map Producer.phase = [.yielded [97], .yielded [98]] ∧
      stdin.Serves [97, 13, 10, 98] := by
  obtain ⟨stdin, hstdin⟩ : ∃ stdin, follow step (fun _ _ => true)
      [.launch, .launch, .place 1 1, .check 1, .place 0 0, .park 1, .check 0, .advance 0,
        .advance 0, .read 0 .wouldBlock, .ready 0, .read 0 (.bytes 4), .advance 0, .advance 0,
        .advance 0, .advance 0, .collect 1, .check 1, .advance 1, .advance 1, .read 1 (.bytes 0),
        .advance 1, .advance 1, .advance 1] (start [97, 13, 10, 98]) = some stdin := ⟨_, rfl⟩
  have hreaches : Reaches [97, 13, 10, 98] stdin :=
    .of_follow (fun _ _ _ => trivial) .start hstdin
  refine ⟨stdin, hreaches, ?_, reads_in_order hreaches⟩
  obtain rfl := Option.some.inj hstdin
  rfl

end Stdin

end Quilon.Runtime
