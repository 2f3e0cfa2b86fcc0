import Quilon.Deferral
import Quilon.Ast.Within
import Mathlib.Data.List.Infix

/-!
# The walk of the deferral analysis, part by part

`visit` answers with a bit that depends on the scope alone, and goes over the parts of an
expression in order, threading its records through them.  Both facts are stated here once:

* `visit_fst` — the answer is `delivers`;
* `visit_snd` — the records after a visit are those of a fold of `visitPart` over the parts, with
  what opens and closes the construct around it;
* `analyzeRound_eq` — a round is one such fold over the whole program.

What is proved about the walk is proved about a fold and needs no case per construct.
-/

namespace Quilon

section Walk

variable (round : Round)

/-! ### The answer of a visit -/

mutual

/-- Whether the value of an expression is delivered still deferred, by what `scope` says. -/
def delivers : Scope → Expression → Bool
  | scope, .identifier name _ => round.isDeferred scope name
  | _, .call function arguments memberCall _ => producesDeferred function arguments memberCall
  | scope, .ifThenElse _ then_ else_ _ => delivers scope then_ || delivers scope else_
  | scope, .match_ _ arms _ => deliversArms scope arms
  | scope, .block statements _ => deliversStatements scope statements
  | _, _ => false

def deliversArms : Scope → List MatchArm → Bool
  | _, [] => false
  | scope, ⟨_, body, _⟩ :: rest => delivers scope body || deliversArms scope rest

def deliversStatements : Scope → List Statement → Bool
  | _, [] => false
  | scope, .item (.variableDeclaration ⟨_, name, _, value, _, _, _⟩) :: rest =>
    deliversStatements ((name, delivers scope value) :: scope) rest
  | scope, .item _ :: rest => deliversStatements scope rest
  | scope, [.expression e] => delivers scope e
  | scope, .expression _ :: rest => deliversStatements scope rest

end

theorem deliversArms_of_mem {scope : Scope} {arms : List MatchArm} {arm : MatchArm} (harm : arm ∈ arms)
    (h : delivers round scope arm.body = true) : deliversArms round scope arms = true := by
  induction arms with
  | nil => cases harm
  | cons first rest ih =>
    obtain ⟨pattern, body, span⟩ := first
    rw [deliversArms, Bool.or_eq_true]
    rcases List.mem_cons.mp harm with rfl | harm
    · exact .inl h
    · exact .inr (ih harm)

/-! ### Parts -/

/-- What the walk does with a part once it has visited it. -/
inductive Role where
  /-- a strict slot -/
  | operand
  /-- a branch, an arm, a statement: its value is passed on or dropped -/
  | value
  | binding (name : String) (span : Span)
  | body (name : String) (track : Bool)
  | initialiser (isMutable : Bool) (name : String) (span : Span)

/-- A sub-expression with the scope it is visited in. -/
structure Part where
  scope : Scope
  expression : Expression
  role : Role

def statementParts : Scope → List Statement → List Part
  | _, [] => []
  | scope, .item (.variableDeclaration v) :: rest =>
    ⟨scope, v.value, .binding v.name v.span⟩ ::
      statementParts ((v.name, delivers round scope v.value) :: scope) rest
  | scope, .item (.functionDeclaration f) :: rest =>
    ⟨[], f.body, .body f.name true⟩ :: statementParts scope rest
  | scope, .item (.typeDeclaration t) :: rest =>
    t.typeDefinition.methods.map (fun m => ⟨[], m.body, .body m.name true⟩) ++
      statementParts scope rest
  | scope, .item (.trapDeclaration _) :: rest => statementParts scope rest
  | scope, .expression e :: rest => ⟨scope, e, .value⟩ :: statementParts scope rest

def parts (scope : Scope) : Expression → List Part
  | .ifThenElse condition then_ else_ _ =>
    [⟨scope, condition, .operand⟩, ⟨scope, then_, .value⟩, ⟨scope, else_, .value⟩]
  | .match_ scrutinee arms _ =>
    ⟨scope, scrutinee, .operand⟩ :: arms.map fun arm => ⟨scope, arm.body, .value⟩
  | .block statements _ => statementParts round scope statements
  | e => e.children.map fun c => ⟨scope, c, .operand⟩

def itemParts : Item → List Part
  | .functionDeclaration f => [⟨[], f.body, .body f.name (!f.isInertCorelibPlaceholder)⟩]
  | .variableDeclaration v => [⟨[], v.value, .initialiser v.isMutable v.name v.span⟩]
  | .typeDeclaration t => t.typeDefinition.methods.map fun m => ⟨[], m.body, .body m.name true⟩
  | .trapDeclaration trap => trap.arms.map fun arm => ⟨[], arm.body, .operand⟩

/-- The visit of one part and what the walk records of it. -/
def visitPart (taint : Taint) (part : Part) : Taint :=
  let e := part.expression
  match part.role with
  | .operand => Taint.strict (visit round e part.scope taint) e.span
  | .value => (visit round e part.scope taint).2
  | .binding name span =>
    let (deferred, visited) := visit round e part.scope taint
    let visited := visited.checkAtomicReassignment round name span taint.forceSites.length
      taint.transitiveWaits.length
    if deferred && round.topLevelReassignments.contains span then
      visited.markGlobalDeferred round name
    else visited
  | .body name track =>
    taint.leaveFunction (Taint.strict (visit round e part.scope (taint.enterFunction name track))
      e.span) name
  | .initialiser isMutable name span =>
    let (deferred, visited) := visit round e part.scope taint
    let visited := visited.checkAtomicReassignment round name span taint.forceSites.length
      taint.transitiveWaits.length
    if deferred then
      if isMutable then visited.markGlobalDeferred round name else visited.insertForce e.span
    else visited

def visitFold (taint : Taint) (ps : List Part) : Taint :=
  ps.foldl (visitPart round) taint

/-- What a construct does before its parts. -/
def opened (taint : Taint) : Expression → Taint
  | .block _ span => taint.pushBlock span
  | _ => taint

/-- What a construct does after its parts, which started from `taint`. -/
def closed (scope : Scope) (taint visited : Taint) : Expression → Taint
  | .call function arguments memberCall _ =>
    visited.recordCall round function arguments memberCall
      (visitPart round taint ⟨scope, function, .operand⟩).transitiveWaits.length
  | .block _ _ => visited.popBlock
  | _ => visited

variable {round}

/-! ### The walk goes over the parts -/

theorem visitAll_eq (es : List Expression) (scope : Scope) (taint : Taint) :
    visitAll round es scope taint =
      visitFold round taint (es.map fun c => ⟨scope, c, .operand⟩) := by
  induction es generalizing taint with
  | nil => rfl
  | cons e es ih =>
    rw [visitAll, ih]
    rfl

theorem visitEntries_eq (entries : List (Expression × Expression)) (scope : Scope)
    (taint : Taint) :
    visitEntries round entries scope taint = visitFold round taint
      ((entries.flatMap fun entry => [entry.1, entry.2]).map fun c => ⟨scope, c, .operand⟩) := by
  induction entries generalizing taint with
  | nil => rfl
  | cons entry entries ih =>
    obtain ⟨key, value⟩ := entry
    rw [visitEntries, ih]
    rfl

theorem visitFields_eq (fields : List (String × Expression)) (scope : Scope) (taint : Taint) :
    visitFields round fields scope taint = visitFold round taint
      ((fields.map (·.2)).map fun c => ⟨scope, c, .operand⟩) := by
  induction fields generalizing taint with
  | nil => rfl
  | cons field fields ih =>
    obtain ⟨name, value⟩ := field
    rw [visitFields, ih]
    rfl

theorem visitParts_eq (pieces : List InterpolationPart) (scope : Scope) (taint : Taint) :
    visitParts round pieces scope taint = visitFold round taint
      ((pieces.flatMap InterpolationPart.children).map fun c => ⟨scope, c, .operand⟩) := by
  induction pieces generalizing taint with
  | nil => rfl
  | cons piece pieces ih =>
    cases piece with
    | literal text =>
      rw [visitParts, ih]
      rfl
    | hole e =>
      rw [visitParts, ih]
      rfl

theorem visitArms_eq (arms : List MatchArm) (scope : Scope) (taint : Taint) :
    (visitArms round arms scope taint).2 = visitFold round taint
      (arms.map fun arm => ⟨scope, arm.body, .value⟩) := by
  induction arms generalizing taint with
  | nil => rfl
  | cons arm arms ih =>
    obtain ⟨pattern, body, span⟩ := arm
    rw [visitArms]
    exact ih _

theorem visitMethods_eq (methods : List MethodDeclaration) (taint : Taint) :
    visitMethods round methods taint = visitFold round taint
      (methods.map fun m => ⟨[], m.body, .body m.name true⟩) := by
  induction methods generalizing taint with
  | nil => rfl
  | cons method methods ih =>
    obtain ⟨name, parameters, returnType, body, mutating, span⟩ := method
    rw [visitMethods, ih]
    rfl

theorem visitArms_fst {arms : List MatchArm}
    (h : ∀ e ∈ arms.map (·.body), ∀ scope taint, (visit round e scope taint).1 = delivers round scope e)
    (scope : Scope) (taint : Taint) :
    (visitArms round arms scope taint).1 = deliversArms round scope arms := by
  induction arms generalizing taint with
  | nil => rw [visitArms, deliversArms]
  | cons arm arms ih =>
    obtain ⟨pattern, body, span⟩ := arm
    obtain ⟨hbody, harms⟩ := List.forall_mem_cons.mp h
    rw [visitArms, deliversArms, ← hbody scope taint, ← ih harms _]

/-- The scope grows by what each binding's value delivers. -/
theorem visitStatements_fst {statements : List Statement}
    (h : ∀ e ∈ statements.flatMap Statement.children, ∀ scope taint,
      (visit round e scope taint).1 = delivers round scope e) (scope : Scope) (taint : Taint) :
    (visitStatements round statements scope taint).1 =
      deliversStatements round scope statements := by
  induction statements generalizing scope taint with
  | nil => rw [visitStatements, deliversStatements]
  | cons statement statements ih =>
    rw [List.flatMap_cons, List.forall_mem_append] at h
    obtain ⟨hstatement, hrest⟩ := h
    cases statement with
    | expression e =>
      cases statements with
      | nil =>
        rw [visitStatements, deliversStatements]
        exact hstatement e List.mem_cons_self scope taint
      | cons next rest =>
        rw [visitStatements, deliversStatements]
        · exact ih hrest scope _
        · simp
        · simp
    | item item =>
      cases item with
      | variableDeclaration v =>
        obtain ⟨isMutable, name, ty, value, exported, atomic, span⟩ := v
        rw [visitStatements, deliversStatements, ← hstatement value List.mem_cons_self scope taint]
        exact ih hrest _ _
      | functionDeclaration f =>
        obtain ⟨name, parameters, returnType, bindingType, body, exported, corelib, span⟩ := f
        rw [visitStatements]
        exact ih hrest scope _
      | typeDeclaration t =>
        obtain ⟨name, definition, exported, span⟩ := t
        cases definition with
        | sum _ methods | record _ methods =>
          rw [visitStatements]
          exact ih hrest scope _
      | trapDeclaration trap =>
        rw [visitStatements]
        exact ih hrest scope taint

variable (round)

/-- **Whether a value is delivered deferred depends on the scope alone.** -/
theorem visit_fst (e : Expression) (scope : Scope) (taint : Taint) :
    (visit round e scope taint).1 = delivers round scope e := by
  induction e using Expression.childrenInduction generalizing scope taint with
  | h e ih =>
    cases e with
    | ifThenElse condition then_ else_ span =>
      rw [visit, delivers]
      rw [← ih then_ (by simp [Expression.children]) scope
          (Taint.strict (visit round condition scope taint) condition.span),
        ← ih else_ (by simp [Expression.children]) scope _]
    | match_ scrutinee arms span =>
      rw [visit, delivers]
      exact visitArms_fst (fun e he => ih e (List.mem_cons_of_mem _ he)) scope _
    | block statements span =>
      rw [visit, delivers]
      exact visitStatements_fst ih scope _
    | _ => rw [visit, delivers] <;> simp

theorem visitFold_append (taint : Taint) (ps qs : List Part) :
    visitFold round taint (ps ++ qs) = visitFold round (visitFold round taint ps) qs :=
  List.foldl_append

theorem visitStatements_eq (statements : List Statement) (scope : Scope) (taint : Taint) :
    (visitStatements round statements scope taint).2 =
      visitFold round taint (statementParts round scope statements) := by
  induction statements generalizing scope taint with
  | nil => rfl
  | cons statement statements ih =>
    cases statement with
    | expression e =>
      cases statements with
      | nil => rfl
      | cons next rest => exact ih scope _
    | item item =>
      cases item with
      | variableDeclaration v =>
        obtain ⟨isMutable, name, ty, value, exported, atomic, span⟩ := v
        rw [visitStatements]
        refine (ih _ _).trans ?_
        rw [visit_fst, statementParts]
        simp only [visitFold, List.foldl_cons, visitPart, visit_fst]
      | functionDeclaration f =>
        obtain ⟨name, parameters, returnType, bindingType, body, exported, corelib, span⟩ := f
        exact ih scope _
      | typeDeclaration t =>
        obtain ⟨name, definition, exported, span⟩ := t
        cases definition with
        | sum _ methods | record _ methods =>
          rw [visitStatements, ih, visitMethods_eq, ← visitFold_append]
          rfl
      | trapDeclaration trap => exact ih scope taint

/-- **A visit is a fold over the parts, between what opens and what closes the construct.** -/
theorem visit_snd (e : Expression) (scope : Scope) (taint : Taint) :
    (visit round e scope taint).2 = closed round scope taint
      (visitFold round (opened taint e) (parts round scope e)) e := by
  cases e with
  | call function arguments memberCall span =>
    rw [visit, visitAll_eq]
    rfl
  | block statements span =>
    rw [visit]
    show Taint.popBlock _ = Taint.popBlock _
    rw [visitStatements_eq]
    rfl
  | match_ scrutinee arms span =>
    rw [visit, visitArms_eq]
    rfl
  | array elements span | setLiteral elements span =>
    rw [visit, visitAll_eq]
    rfl
  | mapLiteral entries span =>
    rw [visit, visitEntries_eq]
    rfl
  | record fields span | constructor name fields span =>
    rw [visit, visitFields_eq]
    rfl
  | interpolation pieces span =>
    rw [visit, visitParts_eq]
    rfl
  | _ => rfl

theorem visitTrapArms_eq (arms : List MatchArm) (taint : Taint) :
    visitTrapArms round arms taint =
      visitFold round taint (arms.map fun arm => ⟨[], arm.body, .operand⟩) := by
  induction arms generalizing taint with
  | nil => rfl
  | cons arm arms ih => exact ih _

theorem analyzeItem_eq (item : Item) (taint : Taint) :
    analyzeItem round taint item = visitFold round taint (itemParts item) := by
  cases item with
  | functionDeclaration f => rfl
  | variableDeclaration v => rfl
  | typeDeclaration t => exact visitMethods_eq t.typeDefinition.methods taint
  | trapDeclaration trap => exact visitTrapArms_eq round trap.arms taint

/-- **A round is a fold over the parts of the program's items.** -/
theorem analyzeRound_eq (program : Program) :
    analyzeRound round program =
      visitFold round .initial (program.items.flatMap itemParts) := by
  unfold analyzeRound
  generalize Taint.initial = taint
  induction program.items generalizing taint with
  | nil => rfl
  | cons item items ih =>
    rw [List.foldl_cons, ih, analyzeItem_eq, List.flatMap_cons, visitFold_append]

theorem map_statementParts (scope : Scope) (statements : List Statement) :
    (statementParts round scope statements).map (·.expression) =
      statements.flatMap Statement.children := by
  induction statements generalizing scope with
  | nil => rfl
  | cons statement statements ih =>
    rw [List.flatMap_cons]
    cases statement with
    | expression e => exact congrArg (e :: ·) (ih scope)
    | item item =>
      cases item with
      | variableDeclaration v => exact congrArg (v.value :: ·) (ih _)
      | functionDeclaration f => exact congrArg (f.body :: ·) (ih scope)
      | typeDeclaration t =>
        rw [statementParts, List.map_append, ih, List.map_map]
        rfl
      | trapDeclaration trap => exact ih scope

/-- The parts of an expression are its sub-expressions. -/
theorem map_parts (scope : Scope) (e : Expression) :
    (parts round scope e).map (·.expression) = e.children := by
  cases e with
  | block statements span => exact map_statementParts round scope statements
  | _ => simp [parts, Expression.children, Function.comp_def]

variable {round}

theorem mem_children_of_mem_parts {scope : Scope} {e : Expression} {part : Part}
    (h : part ∈ parts round scope e) : part.expression ∈ e.children := by
  rw [← map_parts round scope e]
  exact List.mem_map_of_mem h

theorem mem_bodies_of_mem_itemParts {item : Item} {part : Part} (h : part ∈ itemParts item) :
    part.expression ∈ item.bodies := by
  cases item with
  | functionDeclaration f => simp_all [itemParts, Item.bodies]
  | variableDeclaration v => simp_all [itemParts, Item.bodies]
  | typeDeclaration t =>
    obtain ⟨m, hm, rfl⟩ := List.mem_map.mp h
    exact List.mem_map_of_mem hm
  | trapDeclaration trap =>
    obtain ⟨arm, harm, rfl⟩ := List.mem_map.mp h
    exact List.mem_map_of_mem harm

/-! ### Records only grow -/

/-- `taint'` has all that `taint` has recorded of forces, deferred globals, waiting functions and
violations. -/
structure Grows (taint taint' : Taint) : Prop where
  forceSites : taint.forceSites <:+ taint'.forceSites
  newlyDeferredGlobals : taint.newlyDeferredGlobals ⊆ taint'.newlyDeferredGlobals
  waitingFunctions : taint.waitingFunctions <:+ taint'.waitingFunctions
  violation : taint'.violation = none → taint.violation = none

namespace Grows

variable {taint taint' taint'' : Taint}

theorem refl : Grows taint taint :=
  ⟨List.suffix_refl _, fun _ => id, List.suffix_refl _, id⟩

theorem trans (h : Grows taint taint') (h' : Grows taint' taint'') : Grows taint taint'' :=
  ⟨h.forceSites.trans h'.forceSites,
    fun _ hname => h'.newlyDeferredGlobals (h.newlyDeferredGlobals hname),
    h.waitingFunctions.trans h'.waitingFunctions, fun hnone => h.violation (h'.violation hnone)⟩

theorem insertForce (taint : Taint) (span : Span) : Grows taint (taint.insertForce span) :=
  ⟨List.suffix_insert _ _, fun _ => id, List.suffix_refl _, id⟩

theorem strict {visited : Bool × Taint} (h : Grows taint visited.2) (span : Span) :
    Grows taint (Taint.strict visited span) := by
  unfold Taint.strict
  split
  · exact h.trans (insertForce _ _)
  · exact h

theorem checkAtomicReassignment (round : Round) (taint : Taint) (name : String) (span : Span)
    (sites waits : Nat) :
    Grows taint (taint.checkAtomicReassignment round name span sites waits) := by
  unfold Taint.checkAtomicReassignment
  split
  · exact .refl
  · split
    · exact ⟨List.suffix_refl _, fun _ => id, List.suffix_refl _, fun h => by cases h⟩
    · split
      · exact ⟨List.suffix_refl _, fun _ => id, List.suffix_refl _, fun h => by cases h⟩
      · exact .refl

theorem markGlobalDeferred (taint : Taint) (name : String) :
    Grows taint (taint.markGlobalDeferred round name) := by
  unfold Taint.markGlobalDeferred
  split
  · exact .refl
  · exact ⟨List.suffix_refl _, List.subset_insert _ _, List.suffix_refl _, id⟩

theorem leaveFunction (before taint : Taint) (name : String) :
    Grows taint (before.leaveFunction taint name) := by
  unfold Taint.leaveFunction Taint.recordWaitingFunction
  dsimp only
  split
  · exact ⟨List.suffix_refl _, fun _ => id, List.suffix_refl _, id⟩
  · split
    · exact ⟨List.suffix_refl _, fun _ => id, List.suffix_cons _ _, id⟩
    · split
      · exact ⟨List.suffix_refl _, fun _ => id, List.suffix_cons _ _, id⟩
      · exact ⟨List.suffix_refl _, fun _ => id, List.suffix_refl _, id⟩

/-- Records of other kinds do not count. -/
theorem of_eq (hforce : taint'.forceSites = taint.forceSites)
    (hnew : taint'.newlyDeferredGlobals = taint.newlyDeferredGlobals)
    (hwaiting : taint'.waitingFunctions = taint.waitingFunctions)
    (hviolation : taint'.violation = taint.violation) : Grows taint taint' :=
  ⟨hforce ▸ List.suffix_refl _, hnew ▸ fun _ => id, hwaiting ▸ List.suffix_refl _,
    fun h => hviolation ▸ h⟩

theorem dropHandlerWaits (taint : Taint) (function : Expression) (waits : Nat) :
    Grows taint (taint.dropHandlerWaits function waits) := by
  unfold Taint.dropHandlerWaits
  split
  · exact .of_eq rfl rfl rfl rfl
  · exact .refl

theorem recordTransitiveWait (taint : Taint) (function : Expression) (memberCall : Bool) :
    Grows taint (taint.recordTransitiveWait round function memberCall) := by
  unfold Taint.recordTransitiveWait
  cases function <;> try exact .refl
  dsimp only
  split
  · exact .refl
  · split
    · exact .of_eq rfl rfl rfl rfl
    · split
      · exact .of_eq rfl rfl rfl rfl
      · split
        · exact .of_eq rfl rfl rfl rfl
        · exact .refl

theorem recordProducer (taint : Taint) (function : Expression) (arguments : List Expression)
    (memberCall : Bool) : Grows taint (taint.recordProducer function arguments memberCall) := by
  unfold Taint.recordProducer
  split
  · split
    · exact .of_eq rfl rfl rfl rfl
    · exact .refl
  · exact .refl

theorem markLaunchScope (taint : Taint) (function : Expression) (arguments : List Expression)
    (memberCall : Bool) : Grows taint (taint.markLaunchScope function arguments memberCall) := by
  unfold Taint.markLaunchScope
  split
  · split
    · exact .of_eq rfl rfl rfl rfl
    · exact .refl
  · exact .refl

theorem recordCall (taint : Taint) (function : Expression) (arguments : List Expression)
    (memberCall : Bool) (waits : Nat) :
    Grows taint (taint.recordCall round function arguments memberCall waits) :=
  (((dropHandlerWaits taint function waits).trans (recordTransitiveWait _ function memberCall)).trans
    (recordProducer _ function arguments memberCall)).trans
    (markLaunchScope _ function arguments memberCall)

end Grows

theorem closed_grows (scope : Scope) (taint visited : Taint) (e : Expression) :
    Grows visited (closed round scope taint visited e) := by
  cases e with
  | call function arguments memberCall span => exact .recordCall visited function arguments memberCall _
  | block => exact ⟨List.suffix_refl _, fun _ => id, List.suffix_refl _, id⟩
  | _ => exact .refl

theorem opened_grows (taint : Taint) (e : Expression) : Grows taint (opened taint e) := by
  cases e with
  | block => exact ⟨List.suffix_refl _, fun _ => id, List.suffix_refl _, id⟩
  | _ => exact .refl

theorem visitPart_grows_of {part : Part}
    (h : ∀ scope taint, Grows taint (visit round part.expression scope taint).2) (taint : Taint) :
    Grows taint (visitPart round taint part) := by
  obtain ⟨scope, e, role⟩ := part
  cases role with
  | operand => exact (h scope taint).strict e.span
  | value => exact h scope taint
  | binding name span =>
    have hchecked := (h scope taint).trans (.checkAtomicReassignment round
      (visit round e scope taint).2 name span taint.forceSites.length taint.transitiveWaits.length)
    simp only [visitPart]
    split
    · exact hchecked.trans (.markGlobalDeferred _ _)
    · exact hchecked
  | body name track =>
    have hentered : Grows taint (taint.enterFunction name track) :=
      ⟨List.suffix_refl _, fun _ => id, List.suffix_refl _, id⟩
    exact (hentered.trans ((h scope _).strict e.span)).trans (.leaveFunction taint _ name)
  | initialiser isMutable name span =>
    have hchecked := (h scope taint).trans (.checkAtomicReassignment round
      (visit round e scope taint).2 name span taint.forceSites.length taint.transitiveWaits.length)
    simp only [visitPart]
    split
    · split
      · exact hchecked.trans (.markGlobalDeferred _ _)
      · exact hchecked.trans (.insertForce _ _)
    · exact hchecked

theorem visitFold_grows_of {ps : List Part}
    (h : ∀ part ∈ ps, ∀ taint, Grows taint (visitPart round taint part)) (taint : Taint) :
    Grows taint (visitFold round taint ps) := by
  induction ps generalizing taint with
  | nil => exact .refl
  | cons part ps ih =>
    obtain ⟨hpart, hps⟩ := List.forall_mem_cons.mp h
    exact (hpart taint).trans (ih hps _)

variable (round)

theorem visit_grows (e : Expression) (scope : Scope) (taint : Taint) :
    Grows taint (visit round e scope taint).2 := by
  induction e using Expression.childrenInduction generalizing scope taint with
  | h e ih =>
    rw [visit_snd]
    refine ((opened_grows taint e).trans ?_).trans (closed_grows scope taint _ e)
    exact visitFold_grows_of
      (fun part hpart => visitPart_grows_of (ih _ (mem_children_of_mem_parts hpart))) _

theorem visitPart_grows (part : Part) (taint : Taint) : Grows taint (visitPart round taint part) :=
  visitPart_grows_of (visit_grows round part.expression) taint

theorem visitFold_grows (ps : List Part) (taint : Taint) : Grows taint (visitFold round taint ps) :=
  visitFold_grows_of (fun part _ => visitPart_grows round part) taint

variable {round}

/-- Every part of a fold is visited on the way. -/
theorem grows_of_mem_fold (round : Round) {ps : List Part} {part : Part} (h : part ∈ ps)
    (taint : Taint) :
    ∃ before, Grows (visitPart round before part) (visitFold round taint ps) := by
  obtain ⟨done, rest, rfl⟩ := List.append_of_mem h
  refine ⟨visitFold round taint done, ?_⟩
  rw [visitFold_append]
  exact visitFold_grows round rest _

theorem grows_of_mem_parts {scope : Scope} {e : Expression} {part : Part}
    (h : part ∈ parts round scope e) (taint : Taint) :
    ∃ before, Grows (visitPart round before part) (visit round e scope taint).2 := by
  obtain ⟨before, hgrows⟩ := grows_of_mem_fold round h (opened taint e)
  rw [visit_snd]
  exact ⟨before, hgrows.trans (closed_grows scope taint _ e)⟩

end Walk

end Quilon
