import Quilon.Deferral.Equiv.Adds
import Quilon.Deferral.Equiv.LaunchScopes
import Quilon.Library.Saturation

/-!
# The fixed point over the deferred globals

A walk under more deferred globals reports more values deferred (`delivers_mono`), so the rounds of
`analyze` saturate a monotone rule: they end, at the least set that is closed under it, and neither
the set nor what the last round records depends on the order of the program's items.
-/

namespace Quilon

/-! ### More deferred globals -/

/-- More globals are deferred. -/
structure Round.Le (round round' : Round) : Prop where
  deferredGlobals : round.deferredGlobals ⊆ round'.deferredGlobals
  topLevelReassignments : round.topLevelReassignments = round'.topLevelReassignments

/-- The same names, and more of them deferred. -/
def ScopeLe (scope scope' : Scope) : Prop :=
  List.Forall₂ (fun bound bound' => bound.1 = bound'.1 ∧ (bound.2 = true → bound'.2 = true))
    scope scope'

/-- The same part in a larger scope. -/
structure Part.Le (part part' : Part) : Prop where
  scope : ScopeLe part.scope part'.scope
  expression : part.expression = part'.expression
  role : part.role = part'.role

section

variable {round round' : Round}

theorem isDeferred_mono (hround : round.Le round') {scope scope' : Scope}
    (hscope : ScopeLe scope scope') {name : String} (h : round.isDeferred scope name = true) :
    round'.isDeferred scope' name = true := by
  rw [Round.isDeferred] at h ⊢
  induction hscope with
  | nil =>
    rw [List.lookup_nil] at h ⊢
    dsimp only at h ⊢
    rw [List.contains_iff_mem] at h ⊢
    exact hround.deferredGlobals h
  | @cons bound bound' scope scope' hbound hrest ih =>
    obtain ⟨key, deferred⟩ := bound
    obtain ⟨key', deferred'⟩ := bound'
    obtain ⟨rfl, hmore⟩ := hbound
    rw [List.lookup_cons] at h ⊢
    cases hkey : name == key with
    | true =>
      rw [hkey] at h
      exact hmore h
    | false =>
      rw [hkey] at h
      exact ih h

theorem deliversArms_mono {arms : List MatchArm} {scope scope' : Scope}
    (h : ∀ e ∈ arms.map (·.body),
      delivers round scope e = true → delivers round' scope' e = true)
    (harms : deliversArms round scope arms = true) : deliversArms round' scope' arms = true := by
  induction arms with
  | nil => exact harms
  | cons arm arms ih =>
    obtain ⟨pattern, body, span⟩ := arm
    obtain ⟨hbody, hrest⟩ := List.forall_mem_cons.mp h
    rw [deliversArms, Bool.or_eq_true] at harms ⊢
    obtain harms | harms := harms
    · exact Or.inl (hbody harms)
    · exact Or.inr (ih hrest harms)

theorem deliversStatements_mono {statements : List Statement}
    (h : ∀ e ∈ statements.flatMap Statement.children, ∀ scope scope', ScopeLe scope scope' →
      delivers round scope e = true → delivers round' scope' e = true)
    {scope scope' : Scope} (hscope : ScopeLe scope scope')
    (hdelivers : deliversStatements round scope statements = true) :
    deliversStatements round' scope' statements = true := by
  induction statements generalizing scope scope' with
  | nil => exact hdelivers
  | cons statement statements ih =>
    rw [List.flatMap_cons, List.forall_mem_append] at h
    obtain ⟨hstatement, hrest⟩ := h
    cases statement with
    | expression e =>
      cases statements with
      | nil =>
        rw [deliversStatements] at hdelivers ⊢
        exact hstatement e List.mem_cons_self scope scope' hscope hdelivers
      | cons next rest =>
        rw [deliversStatements] at hdelivers ⊢
        · exact ih hrest hscope hdelivers
        all_goals simp
    | item item =>
      cases item with
      | variableDeclaration v =>
        obtain ⟨isMutable, name, ty, value, exported, atomic, span⟩ := v
        rw [deliversStatements] at hdelivers ⊢
        have hvalue := hstatement value List.mem_cons_self scope scope' hscope
        have hnext : ScopeLe ((name, delivers round scope value) :: scope)
            ((name, delivers round' scope' value) :: scope') := .cons ⟨rfl, hvalue⟩ hscope
        exact ih hrest hnext hdelivers
      | functionDeclaration f =>
        rw [deliversStatements] at hdelivers ⊢
        · exact ih hrest hscope hdelivers
        all_goals simp
      | typeDeclaration t =>
        rw [deliversStatements] at hdelivers ⊢
        · exact ih hrest hscope hdelivers
        all_goals simp
      | trapDeclaration trap =>
        rw [deliversStatements] at hdelivers ⊢
        · exact ih hrest hscope hdelivers
        all_goals simp

/-- **Under more deferred globals, more values are delivered deferred.** -/
theorem delivers_mono (hround : round.Le round') {e : Expression} {scope scope' : Scope}
    (hscope : ScopeLe scope scope') (h : delivers round scope e = true) :
    delivers round' scope' e = true := by
  induction e using Expression.childrenInduction generalizing scope scope' with
  | h e ih =>
    cases e with
    | identifier name span => exact isDeferred_mono hround hscope h
    | call function arguments memberCall span => exact h
    | ifThenElse condition then_ else_ span =>
      rw [delivers, Bool.or_eq_true] at h ⊢
      obtain h | h := h
      · exact Or.inl (ih then_ (by simp [Expression.children]) hscope h)
      · exact Or.inr (ih else_ (by simp [Expression.children]) hscope h)
    | match_ scrutinee arms span =>
      rw [delivers] at h ⊢
      exact deliversArms_mono (fun e he => ih e (List.mem_cons_of_mem _ he) hscope) h
    | block statements span =>
      rw [delivers] at h ⊢
      exact deliversStatements_mono (fun e he _ _ hle => ih e he hle) hscope h
    | _ => exact h

theorem Part.Le.reports {part part' : Part} (h : part.Le part') (hround : round.Le round')
    (hreports : part.Reports round) : part'.Reports round' := by
  rw [reports_iff] at hreports ⊢
  rw [← h.expression]
  exact delivers_mono hround h.scope hreports

theorem Part.Le.forces {part part' : Part} (h : part.Le part') (hround : round.Le round')
    (hforces : part.Forces round) : part'.Forces round' := by
  refine ⟨h.reports hround hforces.1, ?_⟩
  rw [← h.role]
  exact hforces.2

theorem Part.Le.stores {part part' : Part} (h : part.Le part') (hround : round.Le round')
    {name : String} (hstores : part.Stores round name) : part'.Stores round' name := by
  refine ⟨h.reports hround hstores.1, ?_⟩
  rw [← h.role, ← hround.topLevelReassignments]
  exact hstores.2

theorem ScopeLe.refl (scope : Scope) : ScopeLe scope scope :=
  List.forall₂_same.mpr fun _ _ => ⟨rfl, id⟩

theorem Part.Le.refl (part : Part) : part.Le part := ⟨.refl _, rfl, rfl⟩

theorem map_le {α : Type} {f f' : α → Part} (h : ∀ a, (f a).Le (f' a)) (list : List α) :
    List.Forall₂ Part.Le (list.map f) (list.map f') := by
  induction list with
  | nil => exact .nil
  | cons a list ih => exact .cons (h a) ih

theorem statementParts_le (hround : round.Le round') {scope scope' : Scope}
    (hscope : ScopeLe scope scope') (statements : List Statement) :
    List.Forall₂ Part.Le (statementParts round scope statements)
      (statementParts round' scope' statements) := by
  induction statements generalizing scope scope' with
  | nil => exact .nil
  | cons statement statements ih =>
    cases statement with
    | expression e => exact .cons ⟨hscope, rfl, rfl⟩ (ih hscope)
    | item item =>
      cases item with
      | variableDeclaration v =>
        have hnext : ScopeLe ((v.name, delivers round scope v.value) :: scope)
            ((v.name, delivers round' scope' v.value) :: scope') :=
          .cons ⟨rfl, delivers_mono hround hscope⟩ hscope
        exact .cons ⟨hscope, rfl, rfl⟩ (ih hnext)
      | functionDeclaration f => exact .cons (.refl _) (ih hscope)
      | typeDeclaration t =>
        exact List.rel_append (map_le (fun _ => .refl _) _) (ih hscope)
      | trapDeclaration trap => exact ih hscope

/-- The same parts are visited, in larger scopes. -/
theorem parts_le (hround : round.Le round') {scope scope' : Scope} (hscope : ScopeLe scope scope')
    (e : Expression) : List.Forall₂ Part.Le (parts round scope e) (parts round' scope' e) := by
  have hpart : ∀ (e : Expression) (role : Role), Part.Le ⟨scope, e, role⟩ ⟨scope', e, role⟩ :=
    fun _ _ => ⟨hscope, rfl, rfl⟩
  cases e with
  | ifThenElse condition then_ else_ span =>
    exact .cons (hpart _ _) (.cons (hpart _ _) (.cons (hpart _ _) .nil))
  | match_ scrutinee arms span => exact .cons (hpart _ _) (map_le (fun _ => hpart _ _) arms)
  | block statements span => exact statementParts_le hround hscope statements
  | _ => exact map_le (fun _ => hpart _ _) _

theorem Part.Covers.mono (hround : round.Le round') {part inner part' : Part}
    (h : part.Covers round inner) (hpart : part.Le part') :
    ∃ inner', part'.Covers round' inner' ∧ inner.Le inner' := by
  induction h generalizing part' with
  | self part => exact ⟨part', .self part', hpart⟩
  | @part part inner deeper hinner _ ih =>
    have hparts := parts_le hround hpart.scope part.expression
    rw [hpart.expression] at hparts hinner
    obtain ⟨i, hi, rfl⟩ := List.getElem_of_mem hinner
    have hi' : i < (parts round' part'.scope part'.expression).length := hparts.length_eq ▸ hi
    obtain ⟨deeper', hcovers, hle⟩ := ih (hparts.get hi hi')
    exact ⟨deeper', .part (List.getElem_mem hi') hcovers, hle⟩

theorem ForcesAny.mono (hround : round.Le round') {ps ps' : List Part} (hps : ps ⊆ ps')
    {span : Span} (h : ForcesAny round ps span) : ForcesAny round' ps' span := by
  obtain ⟨part, hpart, inner, hcovers, hforces, hspan⟩ := h
  obtain ⟨inner', hcovers', hle⟩ := hcovers.mono hround (.refl part)
  refine ⟨part, hps hpart, inner', hcovers', hle.forces hround hforces, ?_⟩
  rw [← hle.expression, hspan]

theorem StoresAny.mono (hround : round.Le round') {ps ps' : List Part} (hps : ps ⊆ ps')
    {name : String} (h : StoresAny round ps name) : StoresAny round' ps' name := by
  obtain ⟨part, hpart, inner, hcovers, hstores⟩ := h
  obtain ⟨inner', hcovers', hle⟩ := hcovers.mono hround (.refl part)
  exact ⟨part, hps hpart, inner', hcovers', hle.stores hround hstores⟩

end

/-! ### The names that can be stored -/

/-- The name that a part binds. -/
def Role.bound : Role → List String
  | .binding name _ => [name]
  | .initialiser _ name _ => [name]
  | .operand => []
  | .value => []
  | .body _ _ => []

theorem mem_bound_of_stores {round : Round} {part : Part} {name : String}
    (h : part.Stores round name) : name ∈ part.role.bound := by
  obtain ⟨scope, e, role⟩ := part
  obtain ⟨-, hrole⟩ := h
  cases role with
  | initialiser isMutable stored span => exact List.mem_singleton.mpr hrole.2.symm
  | binding stored span => exact List.mem_singleton.mpr hrole.1.symm
  | _ => exact hrole.elim

def Statement.boundNames : Statement → List String
  | .item (.variableDeclaration v) => [v.name]
  | _ => []

/-- The names that the statements of a block bind. -/
def Expression.statementNames : Expression → List String
  | .block statements _ => statements.flatMap Statement.boundNames
  | _ => []

/-- The names that the blocks of an expression bind. -/
def Expression.boundNames (e : Expression) : List String :=
  e.statementNames ++ e.children.attach.flatMap fun c => c.1.boundNames
termination_by sizeOf e
decreasing_by exact sizeOf_lt_of_mem_children c.2

theorem mem_boundNames_of_child {e c : Expression} (hc : c ∈ e.children) {name : String}
    (h : name ∈ c.boundNames) : name ∈ e.boundNames := by
  rw [Expression.boundNames]
  exact List.mem_append_right _ (List.mem_flatMap.mpr ⟨⟨c, hc⟩, List.mem_attach _ _, h⟩)

theorem bound_statementParts {round : Round} {scope : Scope} {statements : List Statement}
    {part : Part} (h : part ∈ statementParts round scope statements) {name : String}
    (hname : name ∈ part.role.bound) : name ∈ statements.flatMap Statement.boundNames := by
  induction statements generalizing scope with
  | nil => cases h
  | cons statement statements ih =>
    rw [List.flatMap_cons]
    cases statement with
    | expression e =>
      obtain rfl | hrest := List.mem_cons.mp h
      · cases hname
      · exact List.mem_append_right _ (ih hrest)
    | item item =>
      cases item with
      | variableDeclaration v =>
        obtain rfl | hrest := List.mem_cons.mp h
        · exact List.mem_append_left _ hname
        · exact List.mem_append_right _ (ih hrest)
      | functionDeclaration f =>
        obtain rfl | hrest := List.mem_cons.mp h
        · cases hname
        · exact List.mem_append_right _ (ih hrest)
      | typeDeclaration t =>
        obtain hmethod | hrest := List.mem_append.mp h
        · obtain ⟨method, -, rfl⟩ := List.mem_map.mp hmethod
          cases hname
        · exact List.mem_append_right _ (ih hrest)
      | trapDeclaration trap => exact List.mem_append_right _ (ih h)

theorem bound_parts {round : Round} {scope : Scope} {e : Expression} {part : Part}
    (h : part ∈ parts round scope e) {name : String} (hname : name ∈ part.role.bound) :
    name ∈ e.boundNames := by
  rw [Expression.boundNames]
  refine List.mem_append_left _ ?_
  cases e with
  | block statements span => exact bound_statementParts h hname
  | ifThenElse condition then_ else_ span =>
    simp only [parts, List.mem_cons, List.not_mem_nil, or_false] at h
    obtain rfl | rfl | rfl := h <;> cases hname
  | match_ scrutinee arms span =>
    obtain rfl | harm := List.mem_cons.mp h
    · cases hname
    · obtain ⟨arm, -, rfl⟩ := List.mem_map.mp harm
      cases hname
  | _ =>
    obtain ⟨c, -, rfl⟩ := List.mem_map.mp h
    cases hname

theorem Part.Covers.bound {round : Round} {part inner : Part} (h : part.Covers round inner)
    {name : String} (hname : name ∈ inner.role.bound) :
    name ∈ part.role.bound ++ part.expression.boundNames := by
  induction h with
  | self part => exact List.mem_append_left _ hname
  | @part part inner deeper hinner _ ih =>
    obtain hrole | hdeeper := List.mem_append.mp (ih hname)
    · exact List.mem_append_right _ (bound_parts hinner hrole)
    · exact List.mem_append_right _
        (mem_boundNames_of_child (mem_children_of_mem_parts hinner) hdeeper)

def Program.boundNames (program : Program) : List String :=
  (program.items.flatMap itemParts).flatMap fun part =>
    part.role.bound ++ part.expression.boundNames

/-! ### Nothing deferred to begin with -/

/-- A call that hands back a deferred value occurs in the program. -/
def Program.CallsProducer (program : Program) : Prop :=
  ∃ function arguments memberCall span,
    program.Contains (.call function arguments memberCall span) ∧
      producesDeferred function arguments memberCall = true

section

variable {round : Round}

/-- No call in `e` hands back a deferred value. -/
def Ready (e : Expression) : Prop :=
  ∀ function arguments memberCall span, Within e (.call function arguments memberCall span) →
    producesDeferred function arguments memberCall = false

theorem Ready.child {e c : Expression} (h : Ready e) (hc : c ∈ e.children) : Ready c :=
  fun _ _ _ _ hcall => h _ _ _ _ (Within.trans (.child .refl hc) hcall)

/-- None of the names is deferred. -/
def AllReady (scope : Scope) : Prop := ∀ bound ∈ scope, bound.2 = false

theorem isDeferred_eq_false (hglobals : round.deferredGlobals = []) {scope : Scope}
    (hscope : AllReady scope) (name : String) : round.isDeferred scope name = false := by
  rw [Round.isDeferred]
  cases hlookup : scope.lookup name with
  | none =>
    rw [hglobals]
    rfl
  | some deferred =>
    obtain ⟨before, after, rfl, -⟩ := List.lookup_eq_some_iff.mp hlookup
    exact hscope _ (List.mem_append_right before List.mem_cons_self)

theorem deliversArms_eq_false {arms : List MatchArm} {scope : Scope}
    (h : ∀ e ∈ arms.map (·.body), delivers round scope e = false) :
    deliversArms round scope arms = false := by
  induction arms with
  | nil => rfl
  | cons arm arms ih =>
    obtain ⟨pattern, body, span⟩ := arm
    obtain ⟨hbody, hrest⟩ := List.forall_mem_cons.mp h
    rw [deliversArms, hbody, ih hrest]
    rfl

theorem deliversStatements_eq_false {statements : List Statement}
    (h : ∀ e ∈ statements.flatMap Statement.children, ∀ scope, AllReady scope →
      delivers round scope e = false) {scope : Scope} (hscope : AllReady scope) :
    deliversStatements round scope statements = false := by
  induction statements generalizing scope with
  | nil => rfl
  | cons statement statements ih =>
    rw [List.flatMap_cons, List.forall_mem_append] at h
    obtain ⟨hstatement, hrest⟩ := h
    cases statement with
    | expression e =>
      cases statements with
      | nil =>
        rw [deliversStatements]
        exact hstatement e List.mem_cons_self scope hscope
      | cons next rest =>
        rw [deliversStatements]
        · exact ih hrest hscope
        all_goals simp
    | item item =>
      cases item with
      | variableDeclaration v =>
        obtain ⟨isMutable, name, ty, value, exported, atomic, span⟩ := v
        rw [deliversStatements]
        have hvalue := hstatement value List.mem_cons_self scope hscope
        exact ih hrest (List.forall_mem_cons.mpr ⟨hvalue, hscope⟩)
      | functionDeclaration f =>
        rw [deliversStatements]
        · exact ih hrest hscope
        all_goals simp
      | typeDeclaration t =>
        rw [deliversStatements]
        · exact ih hrest hscope
        all_goals simp
      | trapDeclaration trap =>
        rw [deliversStatements]
        · exact ih hrest hscope
        all_goals simp

/-- Without a call that hands one back there is no deferred value. -/
theorem delivers_eq_false (hglobals : round.deferredGlobals = []) {e : Expression}
    (hready : Ready e) {scope : Scope} (hscope : AllReady scope) :
    delivers round scope e = false := by
  induction e using Expression.childrenInduction generalizing scope with
  | h e ih =>
    cases e with
    | identifier name span => exact isDeferred_eq_false hglobals hscope name
    | call function arguments memberCall span => exact hready _ _ _ _ .refl
    | ifThenElse condition then_ else_ span =>
      have hthen : then_ ∈ (Expression.ifThenElse condition then_ else_ span).children := by
        simp [Expression.children]
      have helse : else_ ∈ (Expression.ifThenElse condition then_ else_ span).children := by
        simp [Expression.children]
      rw [delivers, ih then_ hthen (hready.child hthen) hscope,
        ih else_ helse (hready.child helse) hscope]
      rfl
    | match_ scrutinee arms span =>
      rw [delivers]
      refine deliversArms_eq_false fun e he => ?_
      have hchild : e ∈ (Expression.match_ scrutinee arms span).children :=
        List.mem_cons_of_mem _ he
      exact ih e hchild (hready.child hchild) hscope
    | block statements span =>
      rw [delivers]
      exact deliversStatements_eq_false (fun e he _ hle => ih e he (hready.child he) hle) hscope
    | _ => rfl

/-- The parts of an expression are visited in scopes where nothing is deferred either. -/
theorem allReady_statementParts (hglobals : round.deferredGlobals = [])
    {statements : List Statement} (hready : ∀ e ∈ statements.flatMap Statement.children, Ready e)
    {scope : Scope} (hscope : AllReady scope) {part : Part}
    (h : part ∈ statementParts round scope statements) : AllReady part.scope := by
  induction statements generalizing scope with
  | nil => cases h
  | cons statement statements ih =>
    rw [List.flatMap_cons, List.forall_mem_append] at hready
    obtain ⟨hstatement, hrest⟩ := hready
    cases statement with
    | expression e =>
      obtain rfl | h := List.mem_cons.mp h
      · exact hscope
      · exact ih hrest hscope h
    | item item =>
      cases item with
      | variableDeclaration v =>
        obtain rfl | h := List.mem_cons.mp h
        · exact hscope
        · have hvalue := delivers_eq_false hglobals (hstatement v.value List.mem_cons_self) hscope
          exact ih hrest (List.forall_mem_cons.mpr ⟨hvalue, hscope⟩) h
      | functionDeclaration f =>
        obtain rfl | h := List.mem_cons.mp h
        · exact nofun
        · exact ih hrest hscope h
      | typeDeclaration t =>
        obtain hmethod | h := List.mem_append.mp h
        · obtain ⟨method, -, rfl⟩ := List.mem_map.mp hmethod
          exact nofun
        · exact ih hrest hscope h
      | trapDeclaration trap => exact ih hrest hscope h

theorem allReady_parts (hglobals : round.deferredGlobals = []) {e : Expression} (hready : Ready e)
    {scope : Scope} (hscope : AllReady scope) {part : Part} (h : part ∈ parts round scope e) :
    AllReady part.scope := by
  cases e with
  | block statements span =>
    exact allReady_statementParts hglobals (fun e he => hready.child he) hscope h
  | ifThenElse condition then_ else_ span =>
    simp only [parts, List.mem_cons, List.not_mem_nil, or_false] at h
    obtain rfl | rfl | rfl := h <;> exact hscope
  | match_ scrutinee arms span =>
    obtain rfl | harm := List.mem_cons.mp h
    · exact hscope
    · obtain ⟨arm, -, rfl⟩ := List.mem_map.mp harm
      exact hscope
  | _ =>
    obtain ⟨c, -, rfl⟩ := List.mem_map.mp h
    exact hscope

theorem Part.Covers.not_reports (hglobals : round.deferredGlobals = []) {part inner : Part}
    (h : part.Covers round inner) (hready : Ready part.expression) (hscope : AllReady part.scope) :
    ¬ inner.Reports round := by
  induction h with
  | self part =>
    rw [reports_iff, delivers_eq_false hglobals hready hscope]
    exact Bool.false_ne_true
  | part hinner _ ih =>
    exact ih (hready.child (mem_children_of_mem_parts hinner))
      (allReady_parts hglobals hready hscope hinner)

end

/-! ### The rounds -/

section

variable (answers : CheckerAnswers) (program : Program)

/-- Under these deferred globals, a `:=` declaration or a recorded reassignment of `name` has a
value that is reported deferred. -/
def StoredUnder (globals : List String) (name : String) : Prop :=
  StoresAny (answers.round program globals) (program.items.flatMap itemParts) name

/-- What a round finds new. -/
def newGlobals (globals : List String) : List String :=
  (analyzeRound (answers.round program globals) program).newlyDeferredGlobals

/-- The deferred globals of the last round of `analyzeLoop`. -/
def finalGlobals (fuel : Nat) : Option (List String) :=
  Saturation.saturate (newGlobals answers program) fuel []

/-- What the round under these deferred globals answers, when it is the last. -/
def answerUnder (globals : List String) : Except AtomicReassignmentForced DeferInfo :=
  let taint := analyzeRound (answers.round program globals) program
  match taint.violation with
  | some violation => .error violation
  | none => .ok ⟨taint.forceSites, taint.launchScopes⟩

theorem analyzeLoop_eq (fuel : Nat) (globals : List String) :
    analyzeLoop answers program fuel globals =
      (Saturation.saturate (newGlobals answers program) fuel globals).map
        (answerUnder answers program) := by
  induction fuel generalizing globals with
  | zero => rfl
  | succ fuel ih =>
    rw [analyzeLoop, Saturation.saturate]
    by_cases hdone : (newGlobals answers program globals).isEmpty = true
    · rw [if_pos hdone]
      refine (if_pos hdone).trans ?_
      rw [Option.map_some, answerUnder]
      cases (analyzeRound (answers.round program globals) program).violation with
      | none => rfl
      | some violation => rfl
    · rw [if_neg hdone]
      exact (if_neg hdone).trans (ih _)

theorem isRound_newGlobals :
    Saturation.IsRound (StoredUnder answers program) (newGlobals answers program) :=
  fun globals => mem_newlyDeferredGlobals_analyzeRound (answers.round program globals) program

variable {answers program}

theorem storedUnder_mono {program' : Program} (hitems : program.items ⊆ program'.items)
    {globals globals' : List String} (hglobals : globals ⊆ globals') {name : String}
    (h : StoredUnder answers program globals name) :
    StoredUnder answers program' globals' name := by
  have hround : (answers.round program globals).Le (answers.round program' globals') :=
    ⟨hglobals, rfl⟩
  refine StoresAny.mono hround ?_ h
  intro part hpart
  obtain ⟨item, hitem, hpart⟩ := List.mem_flatMap.mp hpart
  exact List.mem_flatMap.mpr ⟨item, hitems hitem, hpart⟩

theorem isMonotone_storedUnder : Saturation.IsMonotone (StoredUnder answers program) :=
  fun _ _ hglobals _ => storedUnder_mono (List.Subset.refl _) hglobals

theorem mem_boundNames_of_storedUnder {globals : List String} {name : String}
    (h : StoredUnder answers program globals name) : name ∈ program.boundNames := by
  obtain ⟨part, hpart, inner, hcovers, hstores⟩ := h
  exact List.mem_flatMap.mpr ⟨part, hpart, hcovers.bound (mem_bound_of_stores hstores)⟩

/-- **The rounds end.** -/
theorem exists_finalGlobals (answers : CheckerAnswers) (program : Program) :
    ∃ fuel globals, finalGlobals answers program fuel = some globals := by
  obtain ⟨globals, h⟩ := Saturation.saturate_eq_some (isRound_newGlobals answers program)
    (fun _ _ => mem_boundNames_of_storedUnder) (Nat.lt_succ_self _)
  exact ⟨_, globals, h⟩

theorem finalGlobals_closed {fuel : Nat} {globals : List String}
    (h : finalGlobals answers program fuel = some globals) {name : String}
    (hname : StoredUnder answers program globals name) : name ∈ globals :=
  Saturation.closed_of_saturate (isRound_newGlobals answers program) h name hname

theorem finalGlobals_least {fuel : Nat} {globals names : List String}
    (h : finalGlobals answers program fuel = some globals)
    (hclosed : ∀ name, StoredUnder answers program names name → name ∈ names) :
    globals ⊆ names :=
  Saturation.saturate_subset (isRound_newGlobals answers program) isMonotone_storedUnder hclosed
    (List.nil_subset _) h

theorem storedUnder_of_finalGlobals {fuel : Nat} {globals : List String}
    (h : finalGlobals answers program fuel = some globals) {name : String}
    (hname : name ∈ globals) :
    StoredUnder answers program globals name :=
  Saturation.rule_of_saturate (isRound_newGlobals answers program) isMonotone_storedUnder
    (fun _ hnil => absurd hnil List.not_mem_nil) h name hname

/-- The order of the items does not matter to the deferred globals. -/
theorem finalGlobals_subset {program' : Program} (hitems : program'.items ⊆ program.items)
    {fuel fuel' : Nat} {globals globals' : List String}
    (h : finalGlobals answers program fuel = some globals)
    (h' : finalGlobals answers program' fuel' = some globals') : globals' ⊆ globals :=
  finalGlobals_least h' fun _ hname =>
    finalGlobals_closed h (storedUnder_mono hitems (List.Subset.refl _) hname)

/-- Nor to what is forced. -/
theorem forceSites_subset {program' : Program} (hitems : program'.items ⊆ program.items)
    {globals globals' : List String} (hglobals : globals' ⊆ globals) {span : Span}
    (h : span ∈ (analyzeRound (answers.round program' globals') program').forceSites) :
    span ∈ (analyzeRound (answers.round program globals) program).forceSites := by
  rw [mem_forceSites_analyzeRound] at h ⊢
  have hround : (answers.round program' globals').Le (answers.round program globals) :=
    ⟨hglobals, rfl⟩
  refine ForcesAny.mono hround ?_ h
  intro part hpart
  obtain ⟨item, hitem, hpart⟩ := List.mem_flatMap.mp hpart
  exact List.mem_flatMap.mpr ⟨item, hitems hitem, hpart⟩

theorem mem_launchScopes_analyzeRound (globals : List String) (span : Span) :
    span ∈ (analyzeRound (answers.round program globals) program).launchScopes ↔
      program.LaunchingBlock span := by
  have hitems := analyzeItems_marks (answers.round program globals) program.items .initial
  rw [analyzeRound, hitems.launchScopes]
  exact or_iff_right List.not_mem_nil

theorem launchingBlock_subset {program' : Program} (hitems : program'.items ⊆ program.items)
    {span : Span} (h : program'.LaunchingBlock span) : program.LaunchingBlock span := by
  obtain ⟨e, he, hmarks⟩ := h
  obtain ⟨item, hitem, he⟩ := List.mem_flatMap.mp he
  exact ⟨e, List.mem_flatMap.mpr ⟨item, hitems hitem, he⟩, hmarks⟩

theorem ready_of_item (h : ¬ program.CallsProducer) {part : Part}
    (hpart : part ∈ program.items.flatMap itemParts) :
    Ready part.expression ∧ AllReady part.scope := by
  obtain ⟨item, hitem, hpart⟩ := List.mem_flatMap.mp hpart
  refine ⟨?_, ?_⟩
  · intro function arguments memberCall span hcall
    refine Bool.eq_false_iff.mpr fun hproduces => h ?_
    have hbody := mem_bodies_of_mem_itemParts hpart
    exact ⟨function, arguments, memberCall, span, ⟨item, hitem, _, hbody, hcall⟩, hproduces⟩
  · have hscope : part.scope = [] := by
      cases item with
      | functionDeclaration f =>
        obtain rfl := List.mem_singleton.mp hpart
        rfl
      | variableDeclaration v =>
        obtain rfl := List.mem_singleton.mp hpart
        rfl
      | typeDeclaration t =>
        obtain ⟨method, -, rfl⟩ := List.mem_map.mp hpart
        rfl
      | trapDeclaration trap =>
        obtain ⟨arm, -, rfl⟩ := List.mem_map.mp hpart
        rfl
    rw [hscope]
    exact nofun

/-- **A program that calls no producer forces nothing.** -/
theorem forceSites_eq_nil (h : ¬ program.CallsProducer) {fuel : Nat} {globals : List String}
    (hfinal : finalGlobals answers program fuel = some globals) :
    (analyzeRound (answers.round program globals) program).forceSites = [] := by
  have hquiet : ∀ part ∈ program.items.flatMap itemParts, ∀ inner,
      part.Covers (answers.round program []) inner →
        ¬ inner.Reports (answers.round program []) := by
    intro part hpart inner hcovers
    obtain ⟨hready, hscope⟩ := ready_of_item h hpart
    exact hcovers.not_reports rfl hready hscope
  have hnone : globals = [] := by
    refine List.subset_nil.mp (finalGlobals_least hfinal fun name hname => ?_)
    obtain ⟨part, hpart, inner, hcovers, hstores⟩ := hname
    exact absurd hstores.1 (hquiet part hpart inner hcovers)
  rw [hnone, List.eq_nil_iff_forall_not_mem]
  intro span hspan
  rw [mem_forceSites_analyzeRound] at hspan
  obtain ⟨part, hpart, inner, hcovers, hforces, -⟩ := hspan
  exact hquiet part hpart inner hcovers hforces.1

end

/-- The global fixed point of `analyze` is least, and the order of the items does not matter to
it. -/
theorem analyze_fixed_point (answers : CheckerAnswers) (program : Program) :
    ∃ fuel globals,
      (∀ more, fuel ≤ more → finalGlobals answers program more = some globals ∧
        analyzeLoop answers program more [] = some (answerUnder answers program globals)) ∧
      (∀ name, name ∈ globals ↔ StoredUnder answers program globals name) ∧
      (∀ names : List String, (∀ name, StoredUnder answers program names name → name ∈ names) →
        globals ⊆ names) ∧
      (∀ reordered : Program, reordered.items.Perm program.items → ∀ more globals',
        finalGlobals answers reordered more = some globals' →
          let taint := analyzeRound (answers.round program globals) program
          let taint' := analyzeRound (answers.round reordered globals') reordered
          (∀ name, name ∈ globals' ↔ name ∈ globals) ∧
            (∀ span, span ∈ taint'.forceSites ↔ span ∈ taint.forceSites) ∧
            ∀ span, span ∈ taint'.launchScopes ↔ span ∈ taint.launchScopes) ∧
      (¬ program.CallsProducer →
        (analyzeRound (answers.round program globals) program).forceSites = []) := by
  obtain ⟨fuel, globals, hfinal⟩ := exists_finalGlobals answers program
  refine ⟨fuel, globals, ?_,
    fun _ => ⟨storedUnder_of_finalGlobals hfinal, finalGlobals_closed hfinal⟩,
    fun _ => finalGlobals_least hfinal, ?_, fun h => forceSites_eq_nil h hfinal⟩
  · intro more hmore
    have hmore : finalGlobals answers program more = some globals :=
      Saturation.saturate_mono hfinal hmore
    refine ⟨hmore, ?_⟩
    rw [analyzeLoop_eq]
    exact congrArg (Option.map _) hmore
  · intro reordered hperm more globals' hreordered
    have hglobals := finalGlobals_subset hperm.subset hfinal hreordered
    have hglobals' := finalGlobals_subset hperm.symm.subset hreordered hfinal
    refine ⟨fun name => ⟨fun h => hglobals h, fun h => hglobals' h⟩, fun span => ?_, fun span => ?_⟩
    · exact ⟨forceSites_subset hperm.subset hglobals, forceSites_subset hperm.symm.subset hglobals'⟩
    · rw [mem_launchScopes_analyzeRound, mem_launchScopes_analyzeRound]
      exact ⟨launchingBlock_subset hperm.subset, launchingBlock_subset hperm.symm.subset⟩

end Quilon
