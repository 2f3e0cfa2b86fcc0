import Quilon.Deferral.Equiv.Walk

/-!
# What a finished round has recorded

When a round adds no deferred global, everything it visited is on record: a strict slot whose value
is delivered deferred is a force site, and a top-level binding that is stored a deferred value is a
deferred global.  `Visited` says that an expression was visited in a scope, and passes from an
expression to its parts.

Main results:

* `Visited.part` — what the record says of each part of a visited expression;
* `Finished.recorded` — every item of the program is visited.
-/

namespace Quilon

/-- A round that ends the analysis, and its record. -/
structure Finished (round : Round) (final : Taint) (program : Program) : Prop where
  eq : final = analyzeRound round program
  noneNew : final.newlyDeferredGlobals = []

section Finished

variable {round : Round} {final : Taint} {program : Program}

variable (round final) in
/-- `e` was visited in `scope`. -/
def Visited (scope : Scope) (e : Expression) : Prop :=
  ∃ taint, Grows (visit round e scope taint).2 final

variable (round final) in
/-- What the record says of a part. -/
structure Part.Recorded (part : Part) : Prop where
  visited : Visited round final part.scope part.expression
  forced : part.role = .operand ∨ (∃ name track, part.role = .body name track) →
    delivers round part.scope part.expression = true → part.expression.span ∈ final.forceSites
  stored : ∀ name span, part.role = .binding name span →
    delivers round part.scope part.expression = true → span ∈ round.topLevelReassignments →
    name ∈ round.deferredGlobals
  initialised : ∀ isMutable name span, part.role = .initialiser isMutable name span →
    delivers round part.scope part.expression = true →
    if isMutable then name ∈ round.deferredGlobals
    else part.expression.span ∈ final.forceSites

theorem mem_forceSites_strict {visited : Bool × Taint} {span : Span} (h : visited.1 = true) :
    span ∈ (Taint.strict visited span).forceSites := by
  rw [Taint.strict, if_pos h]
  exact List.mem_insert_self

/-- In a finished round a global is only marked when it is known to be deferred. -/
theorem mem_deferredGlobals_of_mark {taint : Taint} {name : String}
    (h : Grows (taint.markGlobalDeferred round name) final) (hfinal : final.newlyDeferredGlobals = []) :
    name ∈ round.deferredGlobals := by
  by_contra hname
  have hmark : name ∈ (taint.markGlobalDeferred round name).newlyDeferredGlobals := by
    rw [Taint.markGlobalDeferred, if_neg (by simpa using hname)]
    exact List.mem_insert_self
  have hmem := h.newlyDeferredGlobals hmark
  rw [hfinal] at hmem
  cases hmem

theorem recorded_of_grows {part : Part} {taint : Taint}
    (h : Grows (visitPart round taint part) final) (hfinal : final.newlyDeferredGlobals = []) :
    part.Recorded round final := by
  obtain ⟨scope, e, role⟩ := part
  cases role with
  | operand =>
    refine ⟨⟨taint, ?_⟩, fun _ hdelivers => ?_, by simp, by simp⟩
    · exact (Grows.refl.strict e.span).trans h
    · apply h.forceSites.subset
      exact mem_forceSites_strict ((visit_fst round e scope taint).trans hdelivers)
  | value => exact ⟨⟨taint, h⟩, by simp, by simp, by simp⟩
  | binding name span =>
    simp only [visitPart] at h
    split at h
    case isTrue hmark =>
      refine ⟨⟨taint, ?_⟩, by simp, ?_, by simp⟩
      · exact (Grows.checkAtomicReassignment round _ name span _ _).trans
          ((Grows.markGlobalDeferred _ name).trans h)
      · rintro _ _ heq - -
        obtain ⟨rfl, rfl⟩ := Role.binding.inj heq
        exact mem_deferredGlobals_of_mark h hfinal
    case isFalse hmark =>
      refine ⟨⟨taint, (Grows.checkAtomicReassignment round _ name span _ _).trans h⟩, by simp, ?_,
        by simp⟩
      rintro _ _ heq hdelivers hspan
      obtain ⟨rfl, rfl⟩ := Role.binding.inj heq
      exact absurd (by simp [visit_fst, show delivers round scope e = true from hdelivers, hspan]) hmark
  | body name track =>
    have hvisited := (Grows.leaveFunction taint _ name).trans h
    refine ⟨⟨taint.enterFunction name track, ?_⟩, fun _ hdelivers => ?_, by simp, by simp⟩
    · exact (Grows.refl.strict e.span).trans hvisited
    · apply hvisited.forceSites.subset
      exact mem_forceSites_strict ((visit_fst round e scope _).trans hdelivers)
  | initialiser isMutable name span =>
    have hchecked := Grows.checkAtomicReassignment round (visit round e scope taint).2 name span
      taint.forceSites.length taint.transitiveWaits.length
    simp only [visitPart, visit_fst] at h
    cases hdelivers : delivers round scope e with
    | false =>
      rw [hdelivers, if_neg Bool.false_ne_true] at h
      exact ⟨⟨taint, hchecked.trans h⟩, by simp, by simp, by simp [hdelivers]⟩
    | true =>
      rw [hdelivers, if_pos rfl] at h
      cases isMutable with
      | true =>
        rw [if_pos rfl] at h
        refine ⟨⟨taint, hchecked.trans ((Grows.markGlobalDeferred _ name).trans h)⟩, by simp,
          by simp, ?_⟩
        rintro _ _ _ heq -
        obtain ⟨rfl, rfl, rfl⟩ := Role.initialiser.inj heq
        exact mem_deferredGlobals_of_mark h hfinal
      | false =>
        rw [if_neg Bool.false_ne_true] at h
        refine ⟨⟨taint, hchecked.trans ((Grows.insertForce _ _).trans h)⟩, by simp, by simp, ?_⟩
        rintro _ _ _ heq -
        obtain ⟨rfl, rfl, rfl⟩ := Role.initialiser.inj heq
        exact h.forceSites.subset List.mem_insert_self

/-- **What the record says of the parts of a visited expression.** -/
theorem Visited.part {scope : Scope} {e : Expression} {part : Part}
    (h : Visited round final scope e) (hfinal : final.newlyDeferredGlobals = [])
    (hpart : part ∈ parts round scope e) : part.Recorded round final := by
  obtain ⟨taint, hgrows⟩ := h
  obtain ⟨before, hbefore⟩ := grows_of_mem_parts hpart taint
  exact recorded_of_grows (hbefore.trans hgrows) hfinal

theorem Visited.child {scope : Scope} {e c : Expression} (h : Visited round final scope e)
    (hfinal : final.newlyDeferredGlobals = []) (hc : c ∈ e.children) :
    ∃ inner, Visited round final inner c := by
  rw [← map_parts round scope e] at hc
  obtain ⟨part, hpart, rfl⟩ := List.mem_map.mp hc
  exact ⟨part.scope, (h.part hfinal hpart).visited⟩

theorem Visited.within {scope : Scope} {e c : Expression} (h : Visited round final scope e)
    (hfinal : final.newlyDeferredGlobals = []) (hc : Within e c) :
    ∃ inner, Visited round final inner c := by
  induction hc with
  | refl => exact ⟨scope, h⟩
  | child _ hc ih =>
    obtain ⟨inner, hinner⟩ := ih
    exact hinner.child hfinal hc

/-- Every item is visited. -/
theorem Finished.recorded (h : Finished round final program) {item : Item}
    (hitem : item ∈ program.items) {part : Part} (hpart : part ∈ itemParts item) :
    part.Recorded round final := by
  have hmem : part ∈ program.items.flatMap itemParts := List.mem_flatMap.mpr ⟨item, hitem, hpart⟩
  obtain ⟨before, hbefore⟩ := grows_of_mem_fold round hmem .initial
  rw [← analyzeRound_eq, ← h.eq] at hbefore
  exact recorded_of_grows hbefore h.noneNew

end Finished

end Quilon
