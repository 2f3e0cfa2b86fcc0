import Quilon.Deferral
import Quilon.Ast.Within

/-!
# Which blocks join what they launch

`launchScopes` holds the innermost blocks around the calls that `launchesInBackground` recognises.
The walk keeps one stack of blocks for the whole program: the body of a lambda, of a nested function
or of a method that is not itself a block counts for the block around it.

Main results:

* `visit_marks` — what a visit adds to `launchScopes`;
* `mem_launchScopes_iff` — `launchScopes` after a successful analysis.
-/

namespace Quilon

/-- A call the walk recognises as a launch has `span` as its innermost block, where `enclosing` is
the innermost block around `e`. -/
inductive Marks : Option Span → Expression → Span → Prop where
  | call {function : Expression} {arguments : List Expression} {memberCall : Bool}
      {callSpan span : Span} : launchesInBackground function arguments memberCall = true →
      Marks (some span) (.call function arguments memberCall callSpan) span
  | block {enclosing : Option Span} {statements : List Statement} {blockSpan span : Span}
      {c : Expression} : c ∈ (Expression.block statements blockSpan).children →
      Marks (some blockSpan) c span → Marks enclosing (.block statements blockSpan) span
  | child {enclosing : Option Span} {e c : Expression} {span : Span} :
      (∀ statements blockSpan, e ≠ .block statements blockSpan) → c ∈ e.children →
      Marks enclosing c span → Marks enclosing e span

def MarksAny (es : List Expression) (enclosing : Option Span) (span : Span) : Prop :=
  ∃ e ∈ es, Marks enclosing e span

/-- `span` is the span of the innermost block around a recognised launch of the program. -/
def Program.LaunchingBlock (program : Program) (span : Span) : Prop :=
  MarksAny (program.items.flatMap Item.bodies) none span

/-! ### One visit -/

/-- The walk went on from `taint` to `taint'`, over code that marks the spans of `marked`. -/
structure Marked (marked : Option Span → Span → Prop) (taint taint' : Taint) : Prop where
  blockStack : taint'.blockStack = taint.blockStack
  launchScopes : ∀ span, span ∈ taint'.launchScopes ↔
    span ∈ taint.launchScopes ∨ marked taint.blockStack.head? span

section Marked

variable {marked marked' : Option Span → Span → Prop} {taint taint' taint'' : Taint}

theorem Marked.refl : Marked (fun _ _ => False) taint taint :=
  ⟨rfl, fun span => by simp⟩

theorem Marked.trans (h : Marked marked taint taint') (h' : Marked marked' taint' taint'') :
    Marked (fun enclosing span => marked enclosing span ∨ marked' enclosing span) taint taint'' := by
  refine ⟨h'.blockStack.trans h.blockStack, fun span => ?_⟩
  rw [h'.launchScopes, h.launchScopes, h.blockStack, or_assoc]

theorem Marked.congr (h : Marked marked taint taint')
    (hmarked : ∀ enclosing span, marked enclosing span ↔ marked' enclosing span) :
    Marked marked' taint taint' :=
  ⟨h.blockStack, fun span => by rw [h.launchScopes, hmarked]⟩

/-- Updates of the other fields do not count. -/
theorem Marked.of_eq (h : Marked marked taint taint') (hstack : taint''.blockStack = taint'.blockStack)
    (hscopes : taint''.launchScopes = taint'.launchScopes) : Marked marked taint taint'' :=
  ⟨hstack.trans h.blockStack, fun span => by rw [hscopes, h.launchScopes]⟩

/-- The same before the visit. -/
theorem Marked.of_eq_before (h : Marked marked taint' taint'')
    (hstack : taint'.blockStack = taint.blockStack)
    (hscopes : taint'.launchScopes = taint.launchScopes) : Marked marked taint taint'' :=
  ⟨h.blockStack.trans hstack, fun span => by rw [h.launchScopes, hstack, hscopes]⟩

theorem Marked.strict {visited : Bool × Taint} (h : Marked marked taint visited.2) (span : Span) :
    Marked marked taint (Taint.strict visited span) := by
  unfold Taint.strict
  split
  · exact h.of_eq rfl rfl
  · exact h

theorem marksAny_nil (enclosing : Option Span) (span : Span) : ¬ MarksAny [] enclosing span := by
  rintro ⟨e, he, -⟩
  cases he

theorem marksAny_append (es es' : List Expression) (enclosing : Option Span) (span : Span) :
    MarksAny (es ++ es') enclosing span ↔ MarksAny es enclosing span ∨ MarksAny es' enclosing span := by
  simp only [MarksAny, List.mem_append, or_and_right, exists_or]

theorem marksAny_cons (e : Expression) (es : List Expression) (enclosing : Option Span) (span : Span) :
    MarksAny (e :: es) enclosing span ↔ Marks enclosing e span ∨ MarksAny es enclosing span := by
  simp only [MarksAny, List.mem_cons, or_and_right, exists_or, exists_eq_left]

theorem Marked.nil : Marked (MarksAny []) taint taint :=
  Marked.refl.congr fun enclosing span => by simp [marksAny_nil]

theorem Marked.append {es es' : List Expression} (h : Marked (MarksAny es) taint taint')
    (h' : Marked (MarksAny es') taint' taint'') : Marked (MarksAny (es ++ es')) taint taint'' :=
  (h.trans h').congr fun enclosing span => (marksAny_append es es' enclosing span).symm

theorem Marked.cons {e : Expression} {es : List Expression}
    (h : Marked (fun enclosing span => Marks enclosing e span) taint taint')
    (h' : Marked (MarksAny es) taint' taint'') : Marked (MarksAny (e :: es)) taint taint'' :=
  (h.trans h').congr fun enclosing span => (marksAny_cons e es enclosing span).symm

end Marked

/-- Neither a block nor a call. -/
def Expression.isPlain : Expression → Bool
  | .block _ _ | .call _ _ _ _ => false
  | _ => true

/-- A plain construct marks what its parts mark. -/
theorem marks_iff_of_isPlain {e : Expression} (h : e.isPlain = true) (enclosing : Option Span)
    (span : Span) : Marks enclosing e span ↔ MarksAny e.children enclosing span := by
  constructor
  · intro hmarks
    cases hmarks with
    | call => cases h
    | block => cases h
    | child _ hc hmarks => exact ⟨_, hc, hmarks⟩
  · rintro ⟨c, hc, hmarks⟩
    refine .child (fun statements blockSpan heq => ?_) hc hmarks
    subst heq
    cases h

theorem marks_call_iff (function : Expression) (arguments : List Expression) (memberCall : Bool)
    (callSpan : Span) (enclosing : Option Span) (span : Span) :
    Marks enclosing (.call function arguments memberCall callSpan) span ↔
      MarksAny (function :: arguments) enclosing span ∨
        launchesInBackground function arguments memberCall = true ∧ enclosing = some span := by
  constructor
  · intro h
    cases h with
    | call hlaunch => exact .inr ⟨hlaunch, rfl⟩
    | child _ hc h => exact .inl ⟨_, hc, h⟩
  · rintro (⟨c, hc, h⟩ | ⟨hlaunch, rfl⟩)
    · exact .child (by simp) hc h
    · exact .call hlaunch

theorem marks_block_iff (statements : List Statement) (blockSpan : Span) (enclosing : Option Span)
    (span : Span) :
    Marks enclosing (.block statements blockSpan) span ↔
      MarksAny (statements.flatMap Statement.children) (some blockSpan) span := by
  constructor
  · intro h
    cases h with
    | block hc h => exact ⟨_, hc, h⟩
    | child hblock => exact absurd rfl (hblock _ _)
  · rintro ⟨c, hc, h⟩
    exact .block hc h

section Walk

variable {round : Round}

/-- What a visit of `e` does to the block stack and the scopes. -/
def VisitMarks (round : Round) (e : Expression) : Prop :=
  ∀ scope taint, Marked (fun enclosing span => Marks enclosing e span) taint
    (visit round e scope taint).2

theorem visitAll_marks {es : List Expression} (h : ∀ e ∈ es, VisitMarks round e) (scope : Scope)
    (taint : Taint) : Marked (MarksAny es) taint (visitAll round es scope taint) := by
  induction es generalizing taint with
  | nil => exact .nil
  | cons e es ih =>
    obtain ⟨he, hes⟩ := List.forall_mem_cons.mp h
    exact ((he scope taint).strict e.span).cons (ih hes _)

theorem visitEntries_marks {entries : List (Expression × Expression)}
    (h : ∀ e ∈ entries.flatMap (fun entry => [entry.1, entry.2]), VisitMarks round e)
    (scope : Scope) (taint : Taint) :
    Marked (MarksAny (entries.flatMap fun entry => [entry.1, entry.2])) taint
      (visitEntries round entries scope taint) := by
  induction entries generalizing taint with
  | nil => exact .nil
  | cons entry entries ih =>
    obtain ⟨key, value⟩ := entry
    obtain ⟨hkey, h⟩ := List.forall_mem_cons.mp h
    obtain ⟨hvalue, h⟩ := List.forall_mem_cons.mp h
    exact ((hkey scope taint).strict key.span).cons
      (((hvalue scope _).strict value.span).cons (ih h _))

theorem visitFields_marks {fields : List (String × Expression)}
    (h : ∀ e ∈ fields.map (·.2), VisitMarks round e) (scope : Scope) (taint : Taint) :
    Marked (MarksAny (fields.map (·.2))) taint (visitFields round fields scope taint) := by
  induction fields generalizing taint with
  | nil => exact .nil
  | cons field fields ih =>
    obtain ⟨name, value⟩ := field
    obtain ⟨hvalue, h⟩ := List.forall_mem_cons.mp h
    exact ((hvalue scope taint).strict value.span).cons (ih h _)

theorem visitParts_marks {parts : List InterpolationPart}
    (h : ∀ e ∈ parts.flatMap InterpolationPart.children, VisitMarks round e) (scope : Scope)
    (taint : Taint) :
    Marked (MarksAny (parts.flatMap InterpolationPart.children)) taint
      (visitParts round parts scope taint) := by
  induction parts generalizing taint with
  | nil => exact .nil
  | cons part parts ih =>
    cases part with
    | literal text => exact ih h taint
    | hole e =>
      obtain ⟨he, h⟩ := List.forall_mem_cons.mp h
      exact ((he scope taint).strict e.span).cons (ih h _)

theorem visitArms_marks {arms : List MatchArm} (h : ∀ e ∈ arms.map (·.body), VisitMarks round e)
    (scope : Scope) (taint : Taint) :
    Marked (MarksAny (arms.map (·.body))) taint (visitArms round arms scope taint).2 := by
  induction arms generalizing taint with
  | nil => exact .nil
  | cons arm arms ih =>
    obtain ⟨pattern, body, span⟩ := arm
    obtain ⟨hbody, h⟩ := List.forall_mem_cons.mp h
    exact (hbody scope taint).cons (ih h _)

theorem leaveFunction_marks {marked : Option Span → Span → Prop} {before visited : Taint}
    (h : Marked marked before visited) (name : String) :
    Marked marked before (before.leaveFunction visited name) := by
  apply h.of_eq <;>
  · unfold Taint.leaveFunction Taint.recordWaitingFunction
    split
    · rfl
    · split
      · rfl
      · split <;> rfl

theorem functionBody_marks {body : Expression} (h : VisitMarks round body) (taint : Taint)
    (name : String) (track : Bool) :
    Marked (fun enclosing span => Marks enclosing body span) taint
      (taint.leaveFunction
        (Taint.strict (visit round body [] (taint.enterFunction name track)) body.span) name) := by
  have hentered := (h [] (taint.enterFunction name track)).strict body.span
  have hvisited : Marked (fun enclosing span => Marks enclosing body span) taint
      (Taint.strict (visit round body [] (taint.enterFunction name track)) body.span) :=
    hentered.of_eq_before rfl rfl
  exact leaveFunction_marks hvisited name

theorem visitMethods_marks {methods : List MethodDeclaration}
    (h : ∀ e ∈ methods.map (·.body), VisitMarks round e) (taint : Taint) :
    Marked (MarksAny (methods.map (·.body))) taint (visitMethods round methods taint) := by
  induction methods generalizing taint with
  | nil => exact .nil
  | cons method methods ih =>
    obtain ⟨name, parameters, returnType, body, mutating, span⟩ := method
    obtain ⟨hbody, h⟩ := List.forall_mem_cons.mp h
    exact (functionBody_marks hbody taint name true).cons (ih h _)

theorem checkAtomicReassignment_marks {marked : Option Span → Span → Prop} {before taint : Taint}
    (round : Round) (h : Marked marked before taint) (name : String) (span : Span)
    (sites waits : Nat) :
    Marked marked before (taint.checkAtomicReassignment round name span sites waits) := by
  apply h.of_eq <;>
  · unfold Taint.checkAtomicReassignment
    split
    · rfl
    · split
      · rfl
      · split <;> rfl

theorem markGlobalDeferred_marks {marked : Option Span → Span → Prop} {before taint : Taint}
    (h : Marked marked before taint) (name : String) :
    Marked marked before (taint.markGlobalDeferred round name) := by
  unfold Taint.markGlobalDeferred
  split
  · exact h
  · exact h.of_eq rfl rfl

theorem visitStatements_marks {statements : List Statement}
    (h : ∀ e ∈ statements.flatMap Statement.children, VisitMarks round e) (scope : Scope)
    (taint : Taint) :
    Marked (MarksAny (statements.flatMap Statement.children)) taint
      (visitStatements round statements scope taint).2 := by
  induction statements generalizing scope taint with
  | nil => exact .nil
  | cons statement statements ih =>
    rw [List.flatMap_cons] at h ⊢
    rw [List.forall_mem_append] at h
    obtain ⟨hstatement, hrest⟩ := h
    cases statement with
    | expression e =>
      have he := hstatement e List.mem_cons_self scope taint
      cases statements with
      | nil => simpa [visitStatements, Statement.children] using he.cons .nil
      | cons next rest => exact he.cons (ih hrest scope _)
    | item item =>
      cases item with
      | variableDeclaration v =>
        obtain ⟨isMutable, name, ty, value, exported, atomic, span⟩ := v
        have hvalue := checkAtomicReassignment_marks round
          (hstatement value List.mem_cons_self scope taint) name span taint.forceSites.length
          taint.transitiveWaits.length
        refine Marked.cons ?_ (ih hrest _ _)
        split
        · exact markGlobalDeferred_marks hvalue name
        · exact hvalue
      | functionDeclaration f =>
        obtain ⟨name, parameters, returnType, bindingType, body, exported, corelib, span⟩ := f
        exact (functionBody_marks (hstatement body List.mem_cons_self) taint name true).cons
          (ih hrest scope _)
      | typeDeclaration t =>
        obtain ⟨name, definition, exported, span⟩ := t
        cases definition with
        | sum _ methods | record _ methods =>
          exact (visitMethods_marks hstatement taint).append (ih hrest scope _)
      | trapDeclaration trap => exact ih hrest scope taint

/-- What a call records of its waits and its value does not touch the scopes. -/
theorem recorded_eq (round : Round) (taint : Taint) (function : Expression) (arguments : List Expression)
    (memberCall : Bool) (waits : Nat) :
    let recorded := ((taint.dropHandlerWaits function waits).recordTransitiveWait round function
      memberCall).recordProducer function arguments memberCall
    recorded.blockStack = taint.blockStack ∧ recorded.launchScopes = taint.launchScopes := by
  unfold Taint.recordProducer Taint.recordTransitiveWait Taint.dropHandlerWaits Taint.pushWait
  dsimp only
  constructor <;> repeat' split
  all_goals rfl

theorem recordCall_marks {marked : Option Span → Span → Prop} {before taint : Taint}
    (h : Marked marked before taint) (function : Expression) (arguments : List Expression)
    (memberCall : Bool) (waits : Nat) :
    Marked (fun enclosing span => marked enclosing span ∨
        launchesInBackground function arguments memberCall = true ∧ enclosing = some span)
      before (taint.recordCall round function arguments memberCall waits) := by
  obtain ⟨hstack, hscopes⟩ := recorded_eq round taint function arguments memberCall waits
  refine h.trans ?_
  unfold Taint.recordCall
  dsimp only
  generalize ((taint.dropHandlerWaits function waits).recordTransitiveWait round function
      memberCall).recordProducer function arguments memberCall = recorded at hstack hscopes ⊢
  unfold Taint.markLaunchScope
  cases hcase : recorded.blockStack with
  | nil => exact ⟨hstack, fun span => by simp [← hstack, hcase, hscopes]⟩
  | cons top rest =>
    cases hlaunch : launchesInBackground function arguments memberCall with
    | false => exact ⟨hstack, fun span => by simp [hscopes]⟩
    | true =>
      refine ⟨hcase.symm.trans hstack, fun span => ?_⟩
      simp [← hstack, hcase, hscopes, or_comm, eq_comm]

theorem visit_marks (round : Round) (e : Expression) : VisitMarks round e := by
  induction e using Expression.childrenInduction with
  | h e ih =>
    intro scope taint
    have hplain : ∀ taint', e.isPlain = true → Marked (MarksAny e.children) taint taint' →
        Marked (fun enclosing span => Marks enclosing e span) taint taint' :=
      fun taint' he h => h.congr fun enclosing span => (marks_iff_of_isPlain he enclosing span).symm
    cases e with
    | call function arguments memberCall span =>
      obtain ⟨hfunction, harguments⟩ := List.forall_mem_cons.mp ih
      have hparts := ((hfunction scope taint).strict function.span).cons
        (visitAll_marks harguments scope _)
      exact (recordCall_marks hparts function arguments memberCall _).congr
        fun enclosing callSpan => (marks_call_iff ..).symm
    | block statements span =>
      have hstatements := visitStatements_marks ih scope (taint.pushBlock span)
      refine ⟨?_, fun other => ?_⟩
      · show List.tail _ = _
        rw [hstatements.blockStack]
        rfl
      · show other ∈ (visitStatements round statements scope (taint.pushBlock span)).2.launchScopes ↔ _
        rw [hstatements.launchScopes, marks_block_iff]
        rfl
    | number | string | bool | unit | identifier => exact hplain _ rfl .nil
    | array elements span | setLiteral elements span =>
      exact hplain _ rfl (visitAll_marks ih scope taint)
    | mapLiteral entries span => exact hplain _ rfl (visitEntries_marks ih scope taint)
    | record fields span | constructor name fields span =>
      exact hplain _ rfl (visitFields_marks ih scope taint)
    | interpolation parts span => exact hplain _ rfl (visitParts_marks ih scope taint)
    | match_ scrutinee arms span =>
      obtain ⟨hscrutinee, harms⟩ := List.forall_mem_cons.mp ih
      exact hplain _ rfl
        (((hscrutinee scope taint).strict scrutinee.span).cons (visitArms_marks harms scope _))
    | ifThenElse condition then_ else_ span =>
      obtain ⟨hcondition, ih⟩ := List.forall_mem_cons.mp ih
      obtain ⟨hthen, ih⟩ := List.forall_mem_cons.mp ih
      obtain ⟨helse, -⟩ := List.forall_mem_cons.mp ih
      exact hplain _ rfl (((hcondition scope taint).strict condition.span).cons
        ((hthen scope _).cons ((helse scope _).cons .nil)))
    | unaryOperator _ operand span | spread operand span | fieldAccess operand _ span
    | lambda _ _ operand span =>
      have hoperand := ih operand List.mem_cons_self
      exact hplain _ rfl (((hoperand scope taint).strict operand.span).cons .nil)
    | binaryOperator left _ right span | fieldAssign left right span | indexAssign left right span
    | index left right span | range left right span =>
      obtain ⟨hleft, ih⟩ := List.forall_mem_cons.mp ih
      obtain ⟨hright, -⟩ := List.forall_mem_cons.mp ih
      exact hplain _ rfl (((hleft scope taint).strict left.span).cons
        (((hright scope _).strict right.span).cons .nil))

/-! ### The whole analysis -/

theorem visitTrapArms_marks (arms : List MatchArm) (taint : Taint) :
    Marked (MarksAny (arms.map (·.body))) taint (visitTrapArms round arms taint) := by
  induction arms generalizing taint with
  | nil => exact .nil
  | cons arm arms ih =>
    exact ((visit_marks round arm.body [] taint).strict arm.body.span).cons (ih _)

theorem analyzeItem_marks (item : Item) (taint : Taint) :
    Marked (MarksAny item.bodies) taint (analyzeItem round taint item) := by
  cases item with
  | functionDeclaration f =>
    exact (functionBody_marks (visit_marks round f.body) taint f.name _).cons .nil
  | variableDeclaration v =>
    have hvalue := checkAtomicReassignment_marks round (visit_marks round v.value [] taint) v.name v.span
      taint.forceSites.length taint.transitiveWaits.length
    refine Marked.cons ?_ .nil
    simp only [analyzeItem]
    split
    · split
      · exact markGlobalDeferred_marks hvalue v.name
      · exact hvalue.of_eq rfl rfl
    · exact hvalue
  | typeDeclaration t => exact visitMethods_marks (fun e _ => visit_marks round e) taint
  | trapDeclaration trap => exact visitTrapArms_marks trap.arms taint

theorem analyzeItems_marks (round : Round) (items : List Item) (taint : Taint) :
    Marked (MarksAny (items.flatMap Item.bodies)) taint (items.foldl (analyzeItem round) taint) := by
  induction items generalizing taint with
  | nil => exact .nil
  | cons item items ih => exact (analyzeItem_marks item taint).append (ih _)

end Walk

/-- **The scopes the generated code opens are the innermost blocks around recognised launches.** -/
theorem mem_launchScopes_iff {answers : CheckerAnswers} {program : Program} {fuel : Nat}
    {globals : List String} {info : DeferInfo}
    (h : analyzeLoop answers program fuel globals = some (.ok info)) (span : Span) :
    span ∈ info.launchScopes ↔ program.LaunchingBlock span := by
  obtain ⟨deferredGlobals, -, -, rfl⟩ := round_of_analyzeLoop h
  have hitems := analyzeItems_marks (answers.round program deferredGlobals) program.items .initial
  rw [analyzeRound, hitems.launchScopes]
  simp [Taint.initial, Program.LaunchingBlock]

end Quilon
