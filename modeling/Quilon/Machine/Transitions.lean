import Quilon.Machine

/-!
# What a step of a fiber can do

`Moves` lists the transitions of one fiber, `moves_of_fiberStep` reads them off `fiberStep`.
Invariants of the machine are proved by cases on `Moves`; none of them unfolds the step functions.
-/

namespace Quilon

/-- The value of a literal. -/
def Expression.literalValue : Expression → Option Value
  | .number value _ => some (.number value)
  | .string value _ => some (.text value)
  | .bool value _ => some (.bool value)
  | .unit _ => some .unit
  | _ => none

/-- The constructs that consume the values of their operands. -/
def Expression.isStrict : Expression → Bool
  | .number _ _ | .string _ _ | .bool _ _ | .unit _ | .identifier _ _ | .lambda _ _ _ _
  | .block _ _ | .ifThenElse _ _ _ _ | .match_ _ _ _ => false
  | _ => true

/-- The frames an expression is evaluated on, and whether its tail parts are in tail position:
`evalStep` pushes the force of the value unless the tail lowering takes the expression over. -/
inductive Enters (setup : Setup) (tail : Bool) (e : Expression) (frames : List Frame) :
    Bool → List Frame → Prop where
  | lowered : setup.loweredInTail tail e = true → Enters setup tail e frames true frames
  | forced : setup.loweredInTail tail e = false → setup.info.forceSites.contains e.span = true →
      Enters setup tail e frames false (.force :: frames)
  | plain : setup.loweredInTail tail e = false → setup.info.forceSites.contains e.span = false →
      Enters setup tail e frames false frames

/-- `evaluate`, transition by transition. -/
inductive Evaluates (setup : Setup) (store : Store) (context : Context) (frames : List Frame)
    (tail : Bool) : Expression → Store → Fiber → Prop where
  | literal {e : Expression} {value : Value} : e.literalValue = some value →
      Evaluates setup store context frames tail e store ⟨.deliver value, context, frames⟩
  | read {name : String} {span : Span} {address : Nat} {value : Value} :
      context.env.lookup name = some address → store.cells[address]? = some (some value) →
      Evaluates setup store context frames tail (.identifier name span) store
        ⟨.deliver value, context, frames⟩
  | chosen {name : String} {span : Span} {value : Value} : store.ready value = true →
      (∀ address, context.env.lookup name = some address →
        ∀ stored, store.cells[address]? ≠ some (some stored)) →
      Evaluates setup store context frames tail (.identifier name span) store
        ⟨.deliver value, context, frames⟩
  | lambda (parameters : List Parameter) (ty : Option Ty) (body : Expression) (span : Span) :
      Evaluates setup store context frames tail (.lambda parameters ty body span)
        { store with closures := store.closures ++
          [⟨parameters.map (·.name), body, context, false⟩] }
        ⟨.deliver (.closure store.closures.length), context, frames⟩
  | tailBlock (statements : List Statement) (span : Span) : tail = true →
      endsInExpression statements = true →
      Evaluates setup store context frames tail (.block statements span) store
        ⟨.run true statements, context, .block true span none context.visible :: frames⟩
  | scopeBlock (statements : List Statement) (span : Span) :
      setup.info.launchScopes.contains span = true →
      Evaluates setup store context frames tail (.block statements span) store
        ⟨.run false statements, context, .block false span (some []) context.visible :: frames⟩
  | plainBlock (statements : List Statement) (span : Span) :
      setup.info.launchScopes.contains span = false →
      Evaluates setup store context frames tail (.block statements span) store
        ⟨.run false statements, context, .block false span none context.visible :: frames⟩
  | ifThenElse (condition then_ else_ : Expression) (span : Span) :
      Evaluates setup store context frames tail (.ifThenElse condition then_ else_ span) store
        ⟨.eval false condition, context, .condition tail then_ else_ :: frames⟩
  | match_ (scrutinee : Expression) (arms : List MatchArm) (span : Span) :
      Evaluates setup store context frames tail (.match_ scrutinee arms span) store
        ⟨.eval false scrutinee, context, .scrutinee tail arms :: frames⟩
  | logical (left : Expression) (operator : BinaryOperator) (right : Expression) (span : Span) :
      Evaluates setup store context frames tail (.binaryOperator left operator right span) store
        ⟨.eval false left, context, .shortCircuit operator right :: frames⟩
  | operands {e : Expression} {tail' : Bool} : e.isStrict = true →
      (tail' = true → tail = true) →
      Evaluates setup store context frames tail e store
        ⟨.operands e tail' (setup.order e) [], context, frames⟩

theorem evaluates_of_evaluate {setup : Setup} {choice : Choice} {store store' : Store}
    {context : Context} {frames : List Frame} {tail : Bool} {e : Expression} {fiber : Fiber}
    (h : evaluate setup choice store context frames tail e = some (store', fiber)) :
    Evaluates setup store context frames tail e store' fiber := by
  cases e
  case number value span =>
    obtain ⟨rfl, rfl⟩ := Prod.mk.inj (Option.some.inj h)
    exact .literal rfl
  case string value span =>
    obtain ⟨rfl, rfl⟩ := Prod.mk.inj (Option.some.inj h)
    exact .literal rfl
  case bool value span =>
    obtain ⟨rfl, rfl⟩ := Prod.mk.inj (Option.some.inj h)
    exact .literal rfl
  case unit span =>
    obtain ⟨rfl, rfl⟩ := Prod.mk.inj (Option.some.inj h)
    exact .literal rfl
  case identifier name span =>
    simp only [evaluate, readIdentifier, deliverChosen] at h
    cases hlookup : context.env.lookup name with
    | none =>
      simp only [hlookup] at h
      cases choice <;> simp only [reduceCtorEq, Option.ite_none_right_eq_some] at h
      obtain ⟨hready, heq⟩ := h
      obtain ⟨rfl, rfl⟩ := Prod.mk.inj (Option.some.inj heq)
      exact .chosen hready (by simp [hlookup])
    | some address =>
      simp only [hlookup] at h
      split at h
      case h_1 value hcell =>
        obtain ⟨rfl, rfl⟩ := Prod.mk.inj (Option.some.inj h)
        exact .read hlookup hcell
      case h_2 hcell =>
        cases choice <;> simp only [reduceCtorEq, Option.ite_none_right_eq_some] at h
        obtain ⟨hready, heq⟩ := h
        obtain ⟨rfl, rfl⟩ := Prod.mk.inj (Option.some.inj heq)
        exact .chosen hready (by simpa [hlookup] using hcell)
  case lambda parameters ty body span =>
    obtain ⟨rfl, rfl⟩ := Prod.mk.inj (Option.some.inj h)
    exact .lambda parameters ty body span
  case block statements span =>
    simp only [evaluate, enterBlock, Option.some.injEq] at h
    split at h
    case isTrue hblock =>
      obtain ⟨rfl, rfl⟩ := Prod.mk.inj h
      rw [Bool.and_eq_true] at hblock
      exact .tailBlock statements span hblock.1 hblock.2
    case isFalse hblock =>
      cases hscope : setup.info.launchScopes.contains span with
      | true =>
        simp only [hscope, if_true] at h
        obtain ⟨rfl, rfl⟩ := Prod.mk.inj h
        exact .scopeBlock statements span hscope
      | false =>
        simp only [hscope, Bool.false_eq_true, if_false] at h
        obtain ⟨rfl, rfl⟩ := Prod.mk.inj h
        exact .plainBlock statements span hscope
  case ifThenElse condition then_ else_ span =>
    obtain ⟨rfl, rfl⟩ := Prod.mk.inj (Option.some.inj h)
    exact .ifThenElse condition then_ else_ span
  case match_ scrutinee arms span =>
    obtain ⟨rfl, rfl⟩ := Prod.mk.inj (Option.some.inj h)
    exact .match_ scrutinee arms span
  case binaryOperator left operator right span =>
    simp only [evaluate] at h
    split at h
    · obtain ⟨rfl, rfl⟩ := Prod.mk.inj (Option.some.inj h)
      exact .logical left operator right span
    · obtain ⟨rfl, rfl⟩ := Prod.mk.inj (Option.some.inj h)
      exact .operands rfl (by simp)
  all_goals
    obtain ⟨rfl, rfl⟩ := Prod.mk.inj (Option.some.inj h)
    exact .operands rfl id

theorem enters_of_evalStep {setup : Setup} {choice : Choice} {store store' : Store}
    {context : Context} {frames : List Frame} {tail : Bool} {e : Expression} {fiber : Fiber}
    (h : evalStep setup choice store context frames tail e = some (store', fiber)) :
    ∃ tail' frames', Enters setup tail e frames tail' frames' ∧
      Evaluates setup store context frames' tail' e store' fiber := by
  unfold evalStep at h
  cases hlowered : setup.loweredInTail tail e with
  | true =>
    rw [hlowered, if_pos rfl] at h
    exact ⟨true, frames, .lowered hlowered, evaluates_of_evaluate h⟩
  | false =>
    rw [hlowered, if_neg Bool.false_ne_true] at h
    cases hforced : setup.info.forceSites.contains e.span with
    | true =>
      rw [hforced, if_pos rfl] at h
      exact ⟨false, _, .forced hlowered hforced, evaluates_of_evaluate h⟩
    | false =>
      rw [hforced, if_neg Bool.false_ne_true] at h
      exact ⟨false, frames, .plain hlowered hforced, evaluates_of_evaluate h⟩

/-- How a call by name is answered. -/
inductive Dispatches (setup : Setup) (store : Store) (context : Context) (frames : List Frame)
    (name : String) (nameSpan : Span) (arguments : List Expression) (memberCall : Bool)
    (values : List Value) : Fiber → Prop where
  | builtin : Dispatches setup store context frames name nameSpan arguments memberCall values
      ⟨.operate ⟨[], callEffect (.identifier name nameSpan) arguments memberCall,
        name == "__test_run_case"⟩ values, context, frames⟩
  | binding {address index : Nat} {code : Closure} : memberCall = false →
      atPrimitiveName name = none → context.env.lookup name = some address →
      store.cells[address]? = some (some (.closure index)) →
      store.closures[index]? = some code →
      Dispatches setup store context frames name nameSpan arguments memberCall values
        ⟨.apply code values, context, frames⟩
  | function {f : FunctionDeclaration} {code : Closure} : atPrimitiveName name = none →
      (f, code) ∈ setup.functions →
      (memberCall = true → qnTextImpl name = some f.name) →
      (memberCall = false → f.name = name) →
      Dispatches setup store context frames name nameSpan arguments memberCall values
        ⟨.apply code values, context, frames⟩
  | method {code : Closure} : memberCall = true → atPrimitiveName name = none →
      (name, code) ∈ store.methods →
      Dispatches setup store context frames name nameSpan arguments memberCall values
        ⟨.apply code values, context, frames⟩

theorem dispatches_of_dispatch {setup : Setup} {choice : Choice} {store store' : Store}
    {context : Context} {frames : List Frame} {name : String} {nameSpan : Span}
    {arguments : List Expression} {memberCall : Bool} {values : List Value} {fiber : Fiber}
    (h : dispatch setup choice store context frames (.identifier name nameSpan) name arguments
      memberCall values = some (store', fiber)) :
    store' = store ∧
      Dispatches setup store context frames name nameSpan arguments memberCall values fiber := by
  cases choice <;> simp only [dispatch, reduceCtorEq] at h
  case builtin =>
    obtain ⟨rfl, rfl⟩ := Prod.mk.inj (Option.some.inj h)
    exact ⟨rfl, .builtin⟩
  case binding =>
    split at h
    · cases h
    case isFalse hplain =>
      simp only [Bool.or_eq_true, not_or, Bool.not_eq_true, Option.isSome_eq_false_iff,
        Option.isNone_iff_eq_none] at hplain
      split at h
      case h_2 => cases h
      case h_1 address hlookup =>
        split at h
        case h_2 => cases h
        case h_1 index hcell =>
          obtain ⟨code, hcode, heq⟩ := Option.map_eq_some_iff.mp h
          obtain ⟨rfl, rfl⟩ := Prod.mk.inj heq
          exact ⟨rfl, .binding hplain.1 hplain.2 hlookup hcell hcode⟩
  case function index passed =>
    split at h
    · cases h
    case isFalse hprimitive =>
      simp only [Option.not_isSome_iff_eq_none] at hprimitive
      split at h
      case h_2 => cases h
      case h_1 f code hfunction =>
        have hmem := List.mem_of_getElem? hfunction
        cases memberCall with
        | true =>
          simp only [if_true, Option.ite_none_right_eq_some] at h
          obtain ⟨rfl, rfl⟩ := Prod.mk.inj (Option.some.inj h.2)
          exact ⟨rfl, .function hprimitive hmem (fun _ => h.1) (by simp)⟩
        | false =>
          simp only [Bool.false_eq_true, if_false, Option.ite_none_right_eq_some] at h
          obtain ⟨rfl, rfl⟩ := Prod.mk.inj (Option.some.inj h.2)
          exact ⟨rfl, .function hprimitive hmem (by simp) (fun _ => h.1)⟩
  case method index passed =>
    split at h
    case isFalse => cases h
    case isTrue hmember =>
      rw [Bool.and_eq_true, Option.isNone_iff_eq_none] at hmember
      split at h
      case h_2 => cases h
      case h_1 method code hmethod =>
        split at h
        case isFalse => cases h
        case isTrue hname =>
          obtain ⟨rfl, rfl⟩ := Prod.mk.inj (Option.some.inj h)
          subst hname
          exact ⟨rfl, .method hmember.1 hmember.2 (List.mem_of_getElem? hmethod)⟩

/-- How built-in code goes on. -/
inductive Operates (setup : Setup) (store : Store) (context : Context) (frames : List Frame)
    (operation : Operation) (values : List Value) : Store → Fiber → Prop where
  | callback {index : Nat} {code : Closure} {arguments : List Value} :
      .closure index ∈ values → store.closures[index]? = some code →
      (∀ v ∈ arguments, store.ready v = true) →
      Operates setup store context frames operation values store
        ⟨.apply code arguments, context, (if operation.guarded then .guard context
          else .builtin operation values) :: frames⟩
  | method {name : String} {code : Closure} {arguments : List Value} :
      (name, code) ∈ store.methods → (∀ v ∈ arguments, store.ready v = true) →
      Operates setup store context frames operation values store
        ⟨.apply code arguments, context, (if operation.guarded then .guard context
          else .builtin operation values) :: frames⟩
  | function {f : FunctionDeclaration} {code : Closure} {arguments : List Value} :
      (f, code) ∈ setup.functions → f.name ∈ operation.names →
      (∀ v ∈ arguments, store.ready v = true) →
      Operates setup store context frames operation values store
        ⟨.apply code arguments, context, (if operation.guarded then .guard context
          else .builtin operation values) :: frames⟩
  | ends {value : Value} : store.ready value = true →
      operation.effect = .none ∨ operation.effect = .waits →
      Operates setup store context frames operation values store ⟨.deliver value, context, frames⟩
  | launches : operation.effect = .deferred →
      Operates setup store context frames operation values
        { store with launches := store.launches ++ [false] }
        ⟨.deliver (.promise store.launches.length), context,
          recordLaunch store.launches.length (registerLaunch store.launches.length frames)⟩
  | serves {http : Bool} {value : Value} : operation.effect = .serves http →
      store.ready value = true →
      Operates setup store context frames operation values
        { store with
          launches := store.launches ++ [false]
          handlers := store.handlers ++
            values.filterMap fun | .closure index => some (index, http) | _ => none }
        ⟨.deliver value, context,
          recordLaunch store.launches.length (registerLaunch store.launches.length frames)⟩

theorem operates_of_operateStep {setup : Setup} {choice : Choice} {store store' : Store}
    {context : Context} {frames : List Frame} {operation : Operation} {values : List Value}
    {fiber : Fiber}
    (h : operateStep setup choice store context frames operation values = some (store', fiber)) :
    Operates setup store context frames operation values store' fiber := by
  have hwithin : (if operation.guarded then Frame.guard context :: frames
      else .builtin operation values :: frames) =
      (if operation.guarded then Frame.guard context else .builtin operation values) :: frames := by
    cases operation.guarded <;> rfl
  cases choice <;> simp only [operateStep, hwithin, reduceCtorEq] at h
  case closure index arguments =>
    rw [Option.ite_none_right_eq_some, Bool.and_eq_true, List.contains_iff_mem] at h
    obtain ⟨⟨hmem, hready⟩, h⟩ := h
    obtain ⟨code, hcode, heq⟩ := Option.map_eq_some_iff.mp h
    obtain ⟨rfl, rfl⟩ := Prod.mk.inj heq
    exact .callback hmem hcode (List.all_eq_true.mp hready)
  case method index arguments =>
    rw [Option.ite_none_right_eq_some] at h
    obtain ⟨⟨name, code⟩, hcode, heq⟩ := Option.map_eq_some_iff.mp h.2
    obtain ⟨rfl, rfl⟩ := Prod.mk.inj heq
    exact .method (List.mem_of_getElem? hcode) (List.all_eq_true.mp h.1)
  case function index arguments =>
    split at h
    case h_2 => cases h
    case h_1 f code hfunction =>
      rw [Option.ite_none_right_eq_some, Bool.and_eq_true, List.contains_iff_mem] at h
      obtain ⟨⟨hname, hready⟩, h⟩ := h
      obtain ⟨rfl, rfl⟩ := Prod.mk.inj (Option.some.inj h)
      exact .function (List.mem_of_getElem? hfunction) hname (List.all_eq_true.mp hready)
  case result value =>
    rw [Option.ite_none_right_eq_some] at h
    obtain ⟨hready, h⟩ := h
    have heq := Option.some.inj h
    unfold finishOperation at heq
    cases heffect : operation.effect with
    | none =>
      simp only [heffect] at heq
      obtain ⟨rfl, rfl⟩ := Prod.mk.inj heq
      exact .ends hready (.inl heffect)
    | waits =>
      simp only [heffect] at heq
      obtain ⟨rfl, rfl⟩ := Prod.mk.inj heq
      exact .ends hready (.inr heffect)
    | deferred =>
      simp only [heffect] at heq
      obtain ⟨rfl, rfl⟩ := Prod.mk.inj heq
      exact .launches heffect
    | serves http =>
      simp only [heffect] at heq
      obtain ⟨rfl, rfl⟩ := Prod.mk.inj heq
      exact .serves heffect hready

/-- What a delivered value does to the frame on top of `frames`. -/
inductive Delivers (setup : Setup) (store : Store) (context : Context) (frames : List Frame)
    (value : Value) : Frame → Store → Fiber → Prop where
  | pass {frame : Frame} : frame = .force ∧ value.isPromise = false ∨ frame = .rightOperand ∨
      (∃ tail, frame = .statement tail []) →
      Delivers setup store context frames value frame store ⟨.deliver value, context, frames⟩
  | forced {launch : Nat} {result : Value} : value = .promise launch →
      store.ready result = true →
      Delivers setup store context frames value .force store ⟨.deliver result, context, frames⟩
  | operands (whole : Expression) (tail : Bool) (rest : List Expression) (values : List Value) :
      Delivers setup store context frames value (.operands whole tail rest values) store
        ⟨.operands whole tail rest (values ++ [value]), context, frames⟩
  | takeThen (tail : Bool) (then_ else_ : Expression) : value = .bool true →
      Delivers setup store context frames value (.condition tail then_ else_) store
        ⟨.eval tail then_, context, .leaveBranch else_ :: frames⟩
  | takeElse (tail : Bool) (then_ else_ : Expression) {store' : Store} {context' : Context} :
      value = .bool false → reserve setup store context then_ = (store', context') →
      Delivers setup store context frames value (.condition tail then_ else_) store'
        ⟨.eval tail else_, context', frames⟩
  | leaveBranch (skipped : Expression) {store' : Store} {context' : Context} :
      reserve setup store context skipped = (store', context') →
      Delivers setup store context frames value (.leaveBranch skipped) store'
        ⟨.deliver value, context', frames⟩
  | decided {operator : BinaryOperator} (right : Expression) {store' : Store}
      {context' : Context} : value.isPromise = false →
      reserve setup store context right = (store', context') →
      Delivers setup store context frames value (.shortCircuit operator right) store'
        ⟨.deliver value, context', frames⟩
  | takeRight (operator : BinaryOperator) (right : Expression) :
      Delivers setup store context frames value (.shortCircuit operator right) store
        ⟨.eval false right, context, .rightOperand :: frames⟩
  | takeArm {tail : Bool} {arms : List MatchArm} {arm : MatchArm} {values : List Value}
      {store' : Store} {env : Env} : arm ∈ arms → (∀ v ∈ values, store.ready v = true) →
      bindAll store context.env arm.pattern.names values = (store', env) →
      Delivers setup store context frames value (.scrutinee tail arms) store'
        ⟨.eval tail arm.body, ⟨env, context.visible⟩, .leaveArm context :: frames⟩
  | leaveArm (outer : Context) :
      Delivers setup store context frames value (.leaveArm outer) store
        ⟨.deliver value, outer, frames⟩
  | statement (tail : Bool) {rest : List Statement} : rest ≠ [] →
      Delivers setup store context frames value (.statement tail rest) store
        ⟨.run tail rest, context, frames⟩
  | bind (declaration : VariableDeclaration) (tail : Bool) (rest : List Statement)
      {store' : Store} {context' : Context} :
      bindStatement store context declaration value = (store', context') →
      Delivers setup store context frames value (.bind declaration tail rest) store'
        ⟨.run tail rest, context', frames⟩
  | leaveBlock (tail : Bool) (span : Span) {scope : Option (List Nat)} (visible : List (String × Bool)) :
      store.settled scope = true →
      Delivers setup store context frames value (.block tail span scope visible) store
        ⟨.deliver value, ⟨context.env, visible⟩, frames⟩
  | returns (code : Closure) (caller : Context) {scope : Option (List Nat)}
      (launched : List Nat) : store.settled scope = true →
      Delivers setup store context frames value (.activation code caller scope launched) store
        ⟨.deliver value, caller, frames⟩
  | builtin (operation : Operation) (values : List Value) :
      Delivers setup store context frames value (.builtin operation values) store
        ⟨.operate operation values, context, frames⟩
  | leaveGuard (outer : Context) :
      Delivers setup store context frames value (.guard outer) store
        ⟨.deliver .unit, outer, frames⟩
  | initialise (declaration : VariableDeclaration) (rest : List Item) :
      Delivers setup store context frames value (.initialise declaration rest)
        (store.setCell (setup.globalBefore rest) value)
        ⟨.items rest, ⟨(declaration.name, setup.globalBefore rest) :: context.env,
          context.visible⟩, frames⟩

theorem delivers_of_deliverStep {setup : Setup} {choice : Choice} {store store' : Store}
    {context : Context} {frames : List Frame} {value : Value} {frame : Frame} {fiber : Fiber}
    (h : deliverStep setup choice store context frames value frame = some (store', fiber)) :
    Delivers setup store context frames value frame store' fiber := by
  cases frame <;> simp only [deliverStep] at h
  case force =>
    cases value <;> simp only at h
    case promise launch =>
      rw [Option.ite_none_right_eq_some] at h
      obtain ⟨_, h⟩ := h
      cases choice <;> simp only [deliverChosen, reduceCtorEq, Option.ite_none_right_eq_some] at h
      obtain ⟨hready, h⟩ := h
      obtain ⟨rfl, rfl⟩ := Prod.mk.inj (Option.some.inj h)
      exact .forced rfl hready
    all_goals
      obtain ⟨rfl, rfl⟩ := Prod.mk.inj (Option.some.inj h)
      exact .pass (.inl ⟨rfl, rfl⟩)
  case operands whole tail rest values =>
    obtain ⟨rfl, rfl⟩ := Prod.mk.inj (Option.some.inj h)
    exact .operands whole tail rest values
  case condition tail then_ else_ =>
    split at h
    · obtain ⟨rfl, rfl⟩ := Prod.mk.inj (Option.some.inj h)
      exact .takeThen tail then_ else_ rfl
    · obtain ⟨rfl, rfl⟩ := Prod.mk.inj (Option.some.inj h)
      exact .takeElse tail then_ else_ rfl rfl
    · cases h
  case leaveBranch skipped =>
    obtain ⟨rfl, rfl⟩ := Prod.mk.inj (Option.some.inj h)
    exact .leaveBranch skipped rfl
  case shortCircuit operator right =>
    split at h
    case h_2 => cases h
    case h_1 b =>
      split at h
      · obtain ⟨rfl, rfl⟩ := Prod.mk.inj (Option.some.inj h)
        exact .decided right rfl rfl
      · obtain ⟨rfl, rfl⟩ := Prod.mk.inj (Option.some.inj h)
        exact .takeRight operator right
  case rightOperand =>
    obtain ⟨rfl, rfl⟩ := Prod.mk.inj (Option.some.inj h)
    exact .pass (.inr (.inl rfl))
  case scrutinee tail arms =>
    cases choice <;> simp only [reduceCtorEq] at h
    case arm index values =>
      split at h
      case h_2 => cases h
      case h_1 arm harm =>
        rw [Option.ite_none_right_eq_some] at h
        obtain ⟨hready, h⟩ := h
        obtain ⟨rfl, rfl⟩ := Prod.mk.inj (Option.some.inj h)
        exact .takeArm (List.mem_of_getElem? harm) (List.all_eq_true.mp hready) rfl
  case leaveArm outer =>
    obtain ⟨rfl, rfl⟩ := Prod.mk.inj (Option.some.inj h)
    exact .leaveArm outer
  case statement tail rest =>
    split at h
    · obtain ⟨rfl, rfl⟩ := Prod.mk.inj (Option.some.inj h)
      exact .pass (.inr (.inr ⟨tail, rfl⟩))
    case h_2 hrest =>
      obtain ⟨rfl, rfl⟩ := Prod.mk.inj (Option.some.inj h)
      exact .statement tail hrest
  case bind declaration tail rest =>
    obtain ⟨rfl, rfl⟩ := Prod.mk.inj (Option.some.inj h)
    exact .bind declaration tail rest rfl
  case block tail span scope visible =>
    rw [Option.ite_none_right_eq_some] at h
    obtain ⟨rfl, rfl⟩ := Prod.mk.inj (Option.some.inj h.2)
    exact .leaveBlock tail span visible h.1
  case activation code caller scope launched =>
    rw [Option.ite_none_right_eq_some] at h
    obtain ⟨rfl, rfl⟩ := Prod.mk.inj (Option.some.inj h.2)
    exact .returns code caller launched h.1
  case builtin operation values =>
    obtain ⟨rfl, rfl⟩ := Prod.mk.inj (Option.some.inj h)
    exact .builtin operation values
  case guard outer =>
    obtain ⟨rfl, rfl⟩ := Prod.mk.inj (Option.some.inj h)
    exact .leaveGuard outer
  case initialise declaration rest =>
    obtain ⟨rfl, rfl⟩ := Prod.mk.inj (Option.some.inj h)
    exact .initialise declaration rest

/-- The transitions of one fiber. -/
inductive Moves (setup : Setup) (store : Store) : Fiber → Store → Fiber → Prop where
  | eval {context : Context} {frames frames' : List Frame} {tail tail' : Bool} {e : Expression}
      {store' : Store} {fiber : Fiber} : Enters setup tail e frames tail' frames' →
      Evaluates setup store context frames' tail' e store' fiber →
      Moves setup store ⟨.eval tail e, context, frames⟩ store' fiber
  | operand (context : Context) (frames : List Frame) (whole : Expression) (tail : Bool)
      (e : Expression) (rest : List Expression) (values : List Value) :
      Moves setup store ⟨.operands whole tail (e :: rest) values, context, frames⟩ store
        ⟨.eval false e, context, .operands whole tail rest values :: frames⟩
  | tailCall (context : Context) (frames : List Frame) (whole : Expression)
      (values : List Value) :
      Moves setup store ⟨.operands whole true [] values, context, frames⟩ store
        ⟨.restart values, context, frames⟩
  | call {context : Context} {frames : List Frame} {name : String} {nameSpan span : Span}
      {arguments : List Expression} {memberCall : Bool} {values : List Value} {fiber : Fiber} :
      Dispatches setup store context frames name nameSpan arguments memberCall values fiber →
      Moves setup store
        ⟨.operands (.call (.identifier name nameSpan) arguments memberCall span) false [] values,
          context, frames⟩ store fiber
  | callComputed {context : Context} {frames : List Frame} {function : Expression}
      {arguments : List Expression} {memberCall : Bool} {span : Span} {index : Nat}
      {values : List Value} {code : Closure} :
      (∀ name nameSpan, function ≠ .identifier name nameSpan) →
      store.closures[index]? = some code →
      Moves setup store
        ⟨.operands (.call function arguments memberCall span) false [] (.closure index :: values),
          context, frames⟩ store ⟨.apply code values, context, frames⟩
  | construct {context : Context} {frames : List Frame} {whole : Expression}
      {values : List Value} :
      Moves setup store ⟨.operands whole false [] values, context, frames⟩ store
        ⟨.operate ⟨operatorNames whole, .none, false⟩ values, context, frames⟩
  | runEnd (context : Context) (frames : List Frame) (tail : Bool) :
      Moves setup store ⟨.run tail [], context, frames⟩ store ⟨.deliver .unit, context, frames⟩
  | runExpression (context : Context) (frames : List Frame) (tail : Bool) (e : Expression)
      (rest : List Statement) :
      Moves setup store ⟨.run tail (.expression e :: rest), context, frames⟩ store
        ⟨.eval (tail && rest.isEmpty) e, context, .statement tail rest :: frames⟩
  | runBinding (context : Context) (frames : List Frame) (tail : Bool)
      (declaration : VariableDeclaration) (rest : List Statement) :
      Moves setup store
        ⟨.run tail (.item (.variableDeclaration declaration) :: rest), context, frames⟩ store
        ⟨.eval false declaration.value, context, .bind declaration tail rest :: frames⟩
  | runFunction {context context' : Context} {store' : Store} (frames : List Frame) (tail : Bool)
      (f : FunctionDeclaration) (rest : List Statement) :
      declareFunction setup store context f = (store', context') →
      Moves setup store ⟨.run tail (.item (.functionDeclaration f) :: rest), context, frames⟩
        store' ⟨.run tail rest, context', frames⟩
  | runType (context : Context) (frames : List Frame) (tail : Bool) (t : TypeDeclaration)
      (rest : List Statement) :
      Moves setup store ⟨.run tail (.item (.typeDeclaration t) :: rest), context, frames⟩
        (declareType setup store context t) ⟨.run tail rest, context, frames⟩
  | apply {context : Context} {frames : List Frame} {code : Closure} {arguments : List Value}
      {store' : Store} {env : Env} :
      bindAll store code.context.env code.parameters arguments = (store', env) →
      Moves setup store ⟨.apply code arguments, context, frames⟩ store'
        ⟨.eval code.loop code.body, ⟨env, code.context.visible⟩,
          .activation code context (setup.bodyScope code) [] :: frames⟩
  | operate {context : Context} {frames : List Frame} {operation : Operation}
      {values : List Value} {store' : Store} {fiber : Fiber} :
      Operates setup store context frames operation values store' fiber →
      Moves setup store ⟨.operate operation values, context, frames⟩ store' fiber
  | restart {context caller : Context} {frames rest : List Frame} {arguments : List Value}
      {code : Closure} {scope : Option (List Nat)} {launched : List Nat} {store' : Store}
      {env : Env} :
      frames.dropWhile (!·.isActivation) = .activation code caller scope launched :: rest →
      store.settled scope = true →
      bindAll store code.context.env code.parameters arguments = (store', env) →
      Moves setup store ⟨.restart arguments, context, frames⟩ store'
        ⟨.eval true code.body, ⟨env, code.context.visible⟩,
          .activation code caller (setup.bodyScope code) launched :: rest⟩
  | deliver {context : Context} {frame : Frame} {frames : List Frame} {value : Value}
      {store' : Store} {fiber : Fiber} :
      Delivers setup store context frames value frame store' fiber →
      Moves setup store ⟨.deliver value, context, frame :: frames⟩ store' fiber
  | finished (context : Context) (value : Value) :
      Moves setup store ⟨.deliver value, context, []⟩ store ⟨.done, context, []⟩
  | itemsEnd (context : Context) (frames : List Frame) :
      Moves setup store ⟨.items [], context, frames⟩ store ⟨.done, context, frames⟩
  | itemBinding (context : Context) (frames : List Frame) (declaration : VariableDeclaration)
      (rest : List Item) :
      Moves setup store ⟨.items (.variableDeclaration declaration :: rest), context, frames⟩ store
        ⟨.eval false declaration.value, context, .initialise declaration rest :: frames⟩
  | itemOther {context : Context} {frames : List Frame} {item : Item} {rest : List Item} :
      (∀ declaration, item ≠ .variableDeclaration declaration) →
      Moves setup store ⟨.items (item :: rest), context, frames⟩ store
        ⟨.items rest, context, frames⟩

theorem moves_of_finish {setup : Setup} {choice : Choice} {store store' : Store}
    {context : Context} {frames : List Frame} {whole : Expression} {tail : Bool}
    {values : List Value} {fiber : Fiber}
    (h : finish setup choice store context frames whole tail values = some (store', fiber)) :
    Moves setup store ⟨.operands whole tail [] values, context, frames⟩ store' fiber := by
  unfold finish at h
  cases tail with
  | true =>
    obtain ⟨rfl, rfl⟩ := Prod.mk.inj (Option.some.inj h)
    exact .tailCall context frames whole values
  | false =>
    simp only [Bool.false_eq_true, if_false] at h
    split at h
    case h_1 name nameSpan arguments memberCall span =>
      obtain ⟨rfl, hdispatch⟩ := dispatches_of_dispatch h
      exact .call hdispatch
    case h_2 function arguments memberCall span hfunction =>
      split at h
      case h_2 => cases h
      case h_1 index values =>
        obtain ⟨code, hcode, heq⟩ := Option.map_eq_some_iff.mp h
        obtain ⟨rfl, rfl⟩ := Prod.mk.inj heq
        exact .callComputed hfunction hcode
    case h_3 =>
      obtain ⟨rfl, rfl⟩ := Prod.mk.inj (Option.some.inj h)
      exact .construct

theorem moves_of_fiberStep {setup : Setup} {choice : Choice} {store store' : Store}
    {fiber fiber' : Fiber} (h : fiberStep setup choice store fiber = some (store', fiber')) :
    Moves setup store fiber store' fiber' := by
  obtain ⟨control, context, frames⟩ := fiber
  cases control with
  | eval tail e =>
    obtain ⟨tail', frames', henters, hevaluates⟩ := enters_of_evalStep h
    exact .eval henters hevaluates
  | operands whole tail rest values =>
    cases rest with
    | nil => exact moves_of_finish h
    | cons e rest =>
      obtain ⟨rfl, rfl⟩ := Prod.mk.inj (Option.some.inj h)
      exact .operand context frames whole tail e rest values
  | run tail statements =>
    simp only [fiberStep, runStep] at h
    split at h
    case h_1 =>
      obtain ⟨rfl, rfl⟩ := Prod.mk.inj (Option.some.inj h)
      exact .runEnd context frames tail
    case h_2 e rest =>
      obtain ⟨rfl, rfl⟩ := Prod.mk.inj (Option.some.inj h)
      exact .runExpression context frames tail e rest
    case h_3 declaration rest =>
      obtain ⟨rfl, rfl⟩ := Prod.mk.inj (Option.some.inj h)
      exact .runBinding context frames tail declaration rest
    case h_4 f rest =>
      obtain ⟨rfl, rfl⟩ := Prod.mk.inj (Option.some.inj h)
      exact .runFunction frames tail f rest rfl
    case h_5 t rest =>
      obtain ⟨rfl, rfl⟩ := Prod.mk.inj (Option.some.inj h)
      exact .runType context frames tail t rest
    case h_6 => cases h
  | apply code arguments =>
    obtain ⟨rfl, rfl⟩ := Prod.mk.inj (Option.some.inj h)
    exact .apply rfl
  | operate operation values => exact .operate (operates_of_operateStep h)
  | restart arguments =>
    simp only [fiberStep, restartStep] at h
    split at h
    case h_2 => cases h
    case h_1 code caller scope launched rest hframes =>
      rw [Option.ite_none_right_eq_some] at h
      obtain ⟨rfl, rfl⟩ := Prod.mk.inj (Option.some.inj h.2)
      exact .restart hframes h.1 rfl
  | deliver value =>
    cases frames with
    | nil =>
      obtain ⟨rfl, rfl⟩ := Prod.mk.inj (Option.some.inj h)
      exact .finished context value
    | cons frame frames => exact .deliver (delivers_of_deliverStep h)
  | items rest =>
    simp only [fiberStep, itemsStep, Option.some.injEq] at h
    split at h
    case h_1 =>
      obtain ⟨rfl, rfl⟩ := Prod.mk.inj h
      exact .itemsEnd context frames
    case h_2 declaration rest =>
      obtain ⟨rfl, rfl⟩ := Prod.mk.inj h
      exact .itemBinding context frames declaration rest
    case h_3 item rest hitem =>
      obtain ⟨rfl, rfl⟩ := Prod.mk.inj h
      exact .itemOther fun declaration => hitem declaration
  | done => cases h

/-- The transitions of the program. -/
inductive Steps (setup : Setup) (state : State) : State → Prop where
  | fiber {index : Nat} {fiber fiber' : Fiber} {store' : Store} :
      state.fibers[index]? = some fiber → Moves setup state.store fiber store' fiber' →
      Steps setup state ⟨store', state.fibers.set index fiber'⟩
  | settle (launch : Nat) :
      Steps setup state
        ⟨{ state.store with launches := state.store.launches.set launch true }, state.fibers⟩
  | enter {f : FunctionDeclaration} {code : Closure} {arguments : List Value} :
      (f, code) ∈ setup.functions → f.isEntryPoint = true →
      (∀ v ∈ arguments, state.store.ready v = true) →
      Steps setup state
        ⟨state.store, state.fibers ++ [⟨.apply code arguments, ⟨[], []⟩, []⟩]⟩
  | handleTcp {closure : Nat} {code : Closure} {arguments : List Value} :
      (closure, false) ∈ state.store.handlers → state.store.closures[closure]? = some code →
      (∀ v ∈ arguments, state.store.ready v = true) →
      Steps setup state
        ⟨state.store, state.fibers ++ [⟨.apply code arguments, ⟨[], []⟩, []⟩]⟩
  | handleHttp {closure : Nat} {f : FunctionDeclaration} {code : Closure}
      {arguments : List Value} : (closure, true) ∈ state.store.handlers →
      (f, code) ∈ setup.functions → f.name = "core.http.serveConnection" →
      (∀ v ∈ arguments, state.store.ready v = true) →
      Steps setup state
        ⟨state.store, state.fibers ++ [⟨.apply code arguments, ⟨[], []⟩, []⟩]⟩
  | trap {arm : MatchArm} {env : Env} {arguments : List Value} : (arm, env) ∈ setup.trapArms →
      (∀ v ∈ arguments, state.store.ready v = true) →
      Steps setup state
        ⟨state.store, state.fibers ++
          [⟨.apply ⟨arm.pattern.names, arm.body, ⟨env, []⟩, false⟩ arguments, ⟨[], []⟩, []⟩]⟩
  | abandon {index : Nat} {fiber : Fiber} {context : Context} {frames : List Frame} :
      state.fibers[index]? = some fiber →
      fiber.frames.dropWhile (!·.isGuard) = .guard context :: frames →
      Steps setup state
        ⟨state.store, state.fibers.set index ⟨.deliver .unit, context, frames⟩⟩

theorem spawn_eq_some {state state' : State} {code : Closure} {arguments : List Value}
    (h : spawn state code arguments = some state') :
    (∀ v ∈ arguments, state.store.ready v = true) ∧
      state' = ⟨state.store, state.fibers ++ [⟨.apply code arguments, ⟨[], []⟩, []⟩]⟩ := by
  rw [spawn, Option.ite_none_right_eq_some] at h
  exact ⟨List.all_eq_true.mp h.1, (Option.some.inj h.2).symm⟩

theorem steps_of_step {setup : Setup} {action : Action} {state state' : State}
    (h : step setup action state = some state') : Steps setup state state' := by
  cases action <;> simp only [step] at h
  case fiber index choice =>
    split at h
    case h_2 => cases h
    case h_1 fiber hfiber =>
      split at h
      case h_2 => cases h
      case h_1 store' fiber' hstep =>
        obtain rfl := Option.some.inj h
        exact .fiber hfiber (moves_of_fiberStep hstep)
  case settle launch =>
    obtain rfl := Option.some.inj h
    exact .settle launch
  case enter function arguments =>
    split at h
    case h_2 => cases h
    case h_1 f code hfunction =>
      rw [Option.ite_none_right_eq_some, Bool.and_eq_true] at h
      obtain ⟨hready, rfl⟩ := spawn_eq_some h.2
      exact .enter (List.mem_of_getElem? hfunction) h.1.2 hready
  case handle handler function arguments =>
    split at h
    case h_1 closure hhandler =>
      split at h
      case h_2 => cases h
      case h_1 code hcode =>
        obtain ⟨hready, rfl⟩ := spawn_eq_some h
        exact .handleTcp (List.mem_of_getElem? hhandler) hcode hready
    case h_2 closure hhandler =>
      split at h
      case h_2 => cases h
      case h_1 f code hfunction =>
        rw [Option.ite_none_right_eq_some] at h
        obtain ⟨hready, rfl⟩ := spawn_eq_some h.2
        exact .handleHttp (List.mem_of_getElem? hhandler) (List.mem_of_getElem? hfunction) h.1
          hready
    case h_3 => cases h
  case trap arm values =>
    split at h
    case h_2 => cases h
    case h_1 arm env harm =>
      obtain ⟨hready, rfl⟩ := spawn_eq_some h
      exact .trap (List.mem_of_getElem? harm) hready
  case abandon index =>
    split at h
    case h_2 => cases h
    case h_1 fiber hfiber =>
      split at h
      case h_2 => cases h
      case h_1 context frames hframes =>
        obtain rfl := Option.some.inj h
        exact .abandon hfiber hframes

end Quilon
