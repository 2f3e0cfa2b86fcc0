import Quilon.Deferral.Equiv.Walk

/-!
# What a visit adds

The forces a visit records, and the globals it finds stored a deferred value, are those of the parts
it goes over, whatever was on record before (`analyzeRound_adds`).

* `Part.Covers` — which parts a visit goes over;
* `Part.Forces`, `Part.Stores` — what the walk records of each.
-/

namespace Quilon

/-! ### The parts of a walk -/

section

variable (round : Round)

/-- `inner` is visited within the visit of the part, or is the part. -/
inductive Part.Covers : Part → Part → Prop where
  | self (part : Part) : Covers part part
  | part {part inner deeper : Part} : inner ∈ parts round part.scope part.expression →
      Covers inner deeper → Covers part deeper

/-- The value is reported deferred. -/
def Part.Reports (part : Part) : Prop :=
  (visit round part.expression part.scope .initial).1 = true

/-- The value is forced where it is. -/
def Part.Forces (part : Part) : Prop :=
  part.Reports round ∧
    match part.role with
    | .operand => True
    | .body _ _ => True
    | .initialiser isMutable _ _ => isMutable = false
    | .value => False
    | .binding _ _ => False

/-- A deferred value is stored in the top-level binding `name`: by its `:=` declaration, or by a
recorded reassignment. -/
def Part.Stores (part : Part) (name : String) : Prop :=
  part.Reports round ∧
    match part.role with
    | .initialiser isMutable stored _ => isMutable = true ∧ stored = name
    | .binding stored span => stored = name ∧ span ∈ round.topLevelReassignments
    | .operand => False
    | .value => False
    | .body _ _ => False

def ForcesAny (ps : List Part) (span : Span) : Prop :=
  ∃ part ∈ ps, ∃ inner, part.Covers round inner ∧ inner.Forces round ∧ inner.expression.span = span

def StoresAny (ps : List Part) (name : String) : Prop :=
  ∃ part ∈ ps, ∃ inner, part.Covers round inner ∧ inner.Stores round name

end

variable {round : Round}

theorem reports_iff {part : Part} :
    part.Reports round ↔ delivers round part.scope part.expression = true := by
  rw [Part.Reports, visit_fst]

theorem forcesAny_cons {part : Part} {ps : List Part} {span : Span} :
    ForcesAny round (part :: ps) span ↔ (part.Forces round ∧ part.expression.span = span) ∨
      ForcesAny round (parts round part.scope part.expression) span ∨ ForcesAny round ps span := by
  constructor
  · rintro ⟨first, hfirst, inner, hcovers, hforces⟩
    obtain rfl | hrest := List.mem_cons.mp hfirst
    · cases hcovers with
      | self => exact Or.inl hforces
      | part hpart hcovers => exact Or.inr (Or.inl ⟨_, hpart, inner, hcovers, hforces⟩)
    · exact Or.inr (Or.inr ⟨first, hrest, inner, hcovers, hforces⟩)
  · rintro (hforces | ⟨first, hfirst, inner, hcovers, hforces⟩ |
      ⟨first, hfirst, inner, hcovers, hforces⟩)
    · exact ⟨part, List.mem_cons_self, part, .self part, hforces⟩
    · exact ⟨part, List.mem_cons_self, inner, .part hfirst hcovers, hforces⟩
    · exact ⟨first, List.mem_cons_of_mem _ hfirst, inner, hcovers, hforces⟩

theorem storesAny_cons {part : Part} {ps : List Part} {name : String} :
    StoresAny round (part :: ps) name ↔ part.Stores round name ∨
      StoresAny round (parts round part.scope part.expression) name ∨ StoresAny round ps name := by
  constructor
  · rintro ⟨first, hfirst, inner, hcovers, hstores⟩
    obtain rfl | hrest := List.mem_cons.mp hfirst
    · cases hcovers with
      | self => exact Or.inl hstores
      | part hpart hcovers => exact Or.inr (Or.inl ⟨_, hpart, inner, hcovers, hstores⟩)
    · exact Or.inr (Or.inr ⟨first, hrest, inner, hcovers, hstores⟩)
  · rintro (hstores | ⟨first, hfirst, inner, hcovers, hstores⟩ |
      ⟨first, hfirst, inner, hcovers, hstores⟩)
    · exact ⟨part, List.mem_cons_self, part, .self part, hstores⟩
    · exact ⟨part, List.mem_cons_self, inner, .part hfirst hcovers, hstores⟩
    · exact ⟨first, List.mem_cons_of_mem _ hfirst, inner, hcovers, hstores⟩

/-! ### Records -/

/-- The walk went on from `taint` to `taint'`, with these forces and these stores. -/
structure Contributes (round : Round) (forces : Span → Prop) (stores : String → Prop)
    (taint taint' : Taint) : Prop where
  forceSites : ∀ span, span ∈ taint'.forceSites ↔ span ∈ taint.forceSites ∨ forces span
  newlyDeferredGlobals : ∀ name, name ∈ taint'.newlyDeferredGlobals ↔
    name ∈ taint.newlyDeferredGlobals ∨ stores name ∧ name ∉ round.deferredGlobals

namespace Contributes

variable {forces forces' : Span → Prop} {stores stores' : String → Prop}
  {taint taint' taint'' : Taint}

theorem trans (h : Contributes round forces stores taint taint')
    (h' : Contributes round forces' stores' taint' taint'') :
    Contributes round (fun span => forces span ∨ forces' span)
      (fun name => stores name ∨ stores' name)
      taint taint'' := by
  refine ⟨fun span => ?_, fun name => ?_⟩
  · rw [h'.forceSites, h.forceSites, or_assoc]
  · rw [h'.newlyDeferredGlobals, h.newlyDeferredGlobals, or_assoc, or_and_right]

theorem congr (h : Contributes round forces stores taint taint')
    (hforces : ∀ span, forces span ↔ forces' span) (hstores : ∀ name, stores name ↔ stores' name) :
    Contributes round forces' stores' taint taint' := by
  refine ⟨fun span => ?_, fun name => ?_⟩
  · rw [h.forceSites, hforces]
  · rw [h.newlyDeferredGlobals, hstores]

/-- Records of other kinds do not count. -/
theorem of_eq (h : Contributes round forces stores taint taint')
    (hforce : taint''.forceSites = taint'.forceSites)
    (hnew : taint''.newlyDeferredGlobals = taint'.newlyDeferredGlobals) :
    Contributes round forces stores taint taint'' := by
  refine ⟨fun span => ?_, fun name => ?_⟩
  · rw [hforce, h.forceSites]
  · rw [hnew, h.newlyDeferredGlobals]

theorem of_eq_before (h : Contributes round forces stores taint' taint'')
    (hforce : taint'.forceSites = taint.forceSites)
    (hnew : taint'.newlyDeferredGlobals = taint.newlyDeferredGlobals) :
    Contributes round forces stores taint taint'' := by
  refine ⟨fun span => ?_, fun name => ?_⟩
  · rw [h.forceSites, hforce]
  · rw [h.newlyDeferredGlobals, hnew]

theorem checkAtomicReassignment (h : Contributes round forces stores taint taint') (name : String)
    (span : Span) (sites waits : Nat) :
    Contributes round forces stores taint
      (taint'.checkAtomicReassignment round name span sites waits) := by
  apply h.of_eq <;>
  · unfold Taint.checkAtomicReassignment
    split
    · rfl
    · split
      · rfl
      · split <;> rfl

theorem leaveFunction (h : Contributes round forces stores taint taint') (before : Taint)
    (name : String) : Contributes round forces stores taint (before.leaveFunction taint' name) := by
  apply h.of_eq <;>
  · unfold Taint.leaveFunction Taint.recordWaitingFunction
    dsimp only
    split
    · rfl
    · split
      · rfl
      · split <;> rfl

theorem recordCall (h : Contributes round forces stores taint taint') (function : Expression)
    (arguments : List Expression) (memberCall : Bool) (waits : Nat) :
    Contributes round forces stores taint
      (taint'.recordCall round function arguments memberCall waits) := by
  have hdrop : ∀ t : Taint, (t.dropHandlerWaits function waits).forceSites = t.forceSites ∧
      (t.dropHandlerWaits function waits).newlyDeferredGlobals = t.newlyDeferredGlobals := by
    intro t
    unfold Taint.dropHandlerWaits
    split <;> exact ⟨rfl, rfl⟩
  have hwait : ∀ t : Taint,
      (t.recordTransitiveWait round function memberCall).forceSites = t.forceSites ∧
      (t.recordTransitiveWait round function memberCall).newlyDeferredGlobals =
        t.newlyDeferredGlobals := by
    intro t
    unfold Taint.recordTransitiveWait Taint.pushWait
    dsimp only
    repeat' split
    all_goals exact ⟨rfl, rfl⟩
  have hproducer : ∀ t : Taint,
      (t.recordProducer function arguments memberCall).forceSites = t.forceSites ∧
      (t.recordProducer function arguments memberCall).newlyDeferredGlobals =
        t.newlyDeferredGlobals := by
    intro t
    unfold Taint.recordProducer
    repeat' split
    all_goals exact ⟨rfl, rfl⟩
  have hlaunch : ∀ t : Taint,
      (t.markLaunchScope function arguments memberCall).forceSites = t.forceSites ∧
      (t.markLaunchScope function arguments memberCall).newlyDeferredGlobals =
        t.newlyDeferredGlobals := by
    intro t
    unfold Taint.markLaunchScope
    repeat' split
    all_goals exact ⟨rfl, rfl⟩
  exact (((h.of_eq (hdrop _).1 (hdrop _).2).of_eq (hwait _).1 (hwait _).2).of_eq (hproducer _).1
    (hproducer _).2).of_eq (hlaunch _).1 (hlaunch _).2

theorem insertForce (h : Contributes round forces stores taint taint') (span : Span) :
    Contributes round (fun other => forces other ∨ span = other) stores taint
      (taint'.insertForce span) := by
  refine ⟨fun other => ?_, h.newlyDeferredGlobals⟩
  show other ∈ taint'.forceSites.insert span ↔ _
  rw [List.mem_insert_iff, h.forceSites, or_comm, or_assoc, eq_comm (a := other)]

theorem markGlobalDeferred (h : Contributes round forces stores taint taint') (name : String) :
    Contributes round forces (fun other => stores other ∨ name = other) taint
      (taint'.markGlobalDeferred round name) := by
  unfold Taint.markGlobalDeferred
  by_cases hknown : round.deferredGlobals.contains name = true
  · rw [if_pos hknown]
    refine ⟨h.forceSites, fun other => ?_⟩
    rw [h.newlyDeferredGlobals]
    have hmem : name ∈ round.deferredGlobals := List.contains_iff_mem.mp hknown
    constructor
    · rintro (hold | ⟨hstores, hnot⟩)
      · exact Or.inl hold
      · exact Or.inr ⟨Or.inl hstores, hnot⟩
    · rintro (hold | ⟨hstores | rfl, hnot⟩)
      · exact Or.inl hold
      · exact Or.inr ⟨hstores, hnot⟩
      · exact absurd hmem hnot
  · rw [if_neg hknown]
    refine ⟨h.forceSites, fun other => ?_⟩
    show other ∈ taint'.newlyDeferredGlobals.insert name ↔ _
    rw [List.mem_insert_iff, h.newlyDeferredGlobals]
    have hnot : name ∉ round.deferredGlobals := mt List.contains_iff_mem.mpr hknown
    constructor
    · rintro (rfl | hold | ⟨hstores, hother⟩)
      · exact Or.inr ⟨Or.inr rfl, hnot⟩
      · exact Or.inl hold
      · exact Or.inr ⟨Or.inl hstores, hother⟩
    · rintro (hold | ⟨hstores | rfl, hother⟩)
      · exact Or.inr (Or.inl hold)
      · exact Or.inr (Or.inr ⟨hstores, hother⟩)
      · exact Or.inl rfl

end Contributes

/-! ### The walk -/

section Walk

variable (round)

/-- What the visit of an expression adds is what its parts do. -/
def VisitAdds (e : Expression) : Prop :=
  ∀ scope taint, Contributes round (ForcesAny round (parts round scope e))
    (StoresAny round (parts round scope e)) taint (visit round e scope taint).2

variable {round}

theorem strict_adds {forces : Span → Prop} {stores : String → Prop} {scope : Scope}
    {e : Expression} {taint taint' : Taint}
    (h : Contributes round forces stores taint (visit round e scope taint').2) :
    Contributes round (fun span => forces span ∨ delivers round scope e = true ∧ e.span = span)
      stores
      taint (Taint.strict (visit round e scope taint') e.span) := by
  rw [Taint.strict, visit_fst]
  cases hdelivers : delivers round scope e with
  | true =>
    rw [if_pos rfl]
    refine (h.insertForce e.span).congr (fun span => ?_) fun name => Iff.rfl
    simp
  | false =>
    rw [if_neg Bool.false_ne_true]
    refine h.congr (fun span => ?_) fun name => Iff.rfl
    simp

/-- One part adds what it does itself and what the parts in it do. -/
theorem visitPart_adds {part : Part} (h : VisitAdds round part.expression) (taint : Taint) :
    Contributes round
      (fun span => part.Forces round ∧ part.expression.span = span ∨
        ForcesAny round (parts round part.scope part.expression) span)
      (fun name => part.Stores round name ∨
        StoresAny round (parts round part.scope part.expression) name)
      taint (visitPart round taint part) := by
  obtain ⟨scope, e, role⟩ := part
  cases role with
  | operand =>
    refine (strict_adds (h scope taint)).congr (fun span => ?_) fun name => ?_
    · simp only [Part.Forces, reports_iff, and_true]
      exact or_comm
    · simp only [Part.Stores, and_false, false_or]
  | value =>
    refine (h scope taint).congr (fun span => ?_) fun name => ?_
    · simp only [Part.Forces, and_false, false_and, false_or]
    · simp only [Part.Stores, and_false, false_or]
  | binding name span =>
    have hvalue := (h scope taint).checkAtomicReassignment name span taint.forceSites.length
      taint.transitiveWaits.length
    simp only [visitPart, visit_fst]
    by_cases hstored : (delivers round scope e && round.topLevelReassignments.contains span) = true
    · rw [if_pos hstored]
      rw [Bool.and_eq_true, List.contains_iff_mem] at hstored
      refine (hvalue.markGlobalDeferred name).congr (fun span => ?_) fun other => ?_
      · simp only [Part.Forces, and_false, false_and, false_or]
      · simp only [Part.Stores, reports_iff, hstored, and_true, true_and]
        exact or_comm
    · rw [if_neg hstored]
      rw [Bool.and_eq_true, List.contains_iff_mem] at hstored
      refine hvalue.congr (fun span => ?_) fun other => ?_
      · simp only [Part.Forces, and_false, false_and, false_or]
      · simp only [Part.Stores, reports_iff]
        constructor
        · exact Or.inr
        · rintro (⟨hdelivers, -, hspan⟩ | hinner)
          · exact absurd ⟨hdelivers, hspan⟩ hstored
          · exact hinner
  | body name track =>
    have hentered : Contributes round _ _ taint _ :=
      (strict_adds (h scope (taint.enterFunction name track))).of_eq_before rfl rfl
    refine (hentered.leaveFunction taint name).congr (fun span => ?_) fun other => ?_
    · simp only [Part.Forces, reports_iff, and_true]
      exact or_comm
    · simp only [Part.Stores, and_false, false_or]
  | initialiser isMutable name span =>
    have hvalue := (h scope taint).checkAtomicReassignment name span taint.forceSites.length
      taint.transitiveWaits.length
    simp only [visitPart, visit_fst]
    cases hdelivers : delivers round scope e with
    | false =>
      rw [if_neg Bool.false_ne_true]
      refine hvalue.congr (fun span => ?_) fun other => ?_
      · simp [Part.Forces, reports_iff, hdelivers]
      · simp [Part.Stores, reports_iff, hdelivers]
    | true =>
      rw [if_pos rfl]
      cases isMutable with
      | true =>
        rw [if_pos rfl]
        refine (hvalue.markGlobalDeferred name).congr (fun span => ?_) fun other => ?_
        · simp [Part.Forces]
        · simp only [Part.Stores, reports_iff, hdelivers, true_and]
          exact or_comm
      | false =>
        rw [if_neg Bool.false_ne_true]
        refine (hvalue.insertForce e.span).congr (fun span => ?_) fun other => ?_
        · simp only [Part.Forces, reports_iff, hdelivers, true_and]
          exact or_comm
        · simp [Part.Stores]

theorem visitFold_adds {ps : List Part} (h : ∀ part ∈ ps, VisitAdds round part.expression)
    (taint : Taint) :
    Contributes round (ForcesAny round ps) (StoresAny round ps) taint
      (visitFold round taint ps) := by
  induction ps generalizing taint with
  | nil =>
    refine ⟨fun span => ?_, fun name => ?_⟩
    · simp [ForcesAny, visitFold]
    · simp [StoresAny, visitFold]
  | cons part ps ih =>
    obtain ⟨hpart, hps⟩ := List.forall_mem_cons.mp h
    refine ((visitPart_adds hpart taint).trans (ih hps _)).congr (fun span => ?_) fun name => ?_
    · rw [forcesAny_cons, or_assoc]
    · rw [storesAny_cons, or_assoc]

theorem closed_adds {forces : Span → Prop} {stores : String → Prop} {taint visited : Taint}
    (h : Contributes round forces stores taint visited) (scope : Scope) (before : Taint)
    (e : Expression) :
    Contributes round forces stores taint (closed round scope before visited e) := by
  cases e with
  | call function arguments memberCall span => exact h.recordCall function arguments memberCall _
  | block => exact h.of_eq rfl rfl
  | _ => exact h

variable (round)

theorem visit_adds (e : Expression) : VisitAdds round e := by
  induction e using Expression.childrenInduction with
  | h e ih =>
    intro scope taint
    have hparts : Contributes round _ _ (opened taint e)
        (visitFold round (opened taint e) (parts round scope e)) :=
      visitFold_adds (fun part hpart => ih _ (mem_children_of_mem_parts hpart)) _
    have hopened : (opened taint e).forceSites = taint.forceSites ∧
        (opened taint e).newlyDeferredGlobals = taint.newlyDeferredGlobals := by
      cases e <;> exact ⟨rfl, rfl⟩
    rw [visit_snd]
    exact closed_adds (hparts.of_eq_before hopened.1 hopened.2) scope taint e

/-- **A round records the forces and the stores of the program's parts, and nothing else.** -/
theorem analyzeRound_adds (program : Program) :
    Contributes round (ForcesAny round (program.items.flatMap itemParts))
      (StoresAny round (program.items.flatMap itemParts)) .initial
      (analyzeRound round program) := by
  rw [analyzeRound_eq]
  exact visitFold_adds (fun part _ => visit_adds round part.expression) .initial

theorem mem_forceSites_analyzeRound (program : Program) (span : Span) :
    span ∈ (analyzeRound round program).forceSites ↔
      ForcesAny round (program.items.flatMap itemParts) span := by
  rw [(analyzeRound_adds round program).forceSites]
  exact or_iff_right List.not_mem_nil

theorem mem_newlyDeferredGlobals_analyzeRound (program : Program) (name : String) :
    name ∈ (analyzeRound round program).newlyDeferredGlobals ↔
      StoresAny round (program.items.flatMap itemParts) name ∧ name ∉ round.deferredGlobals := by
  rw [(analyzeRound_adds round program).newlyDeferredGlobals]
  exact or_iff_right List.not_mem_nil

end Walk

end Quilon
