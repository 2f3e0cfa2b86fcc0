import Quilon.Machine.Transitions

/-!
# The code a run reaches

Every expression, statement and closure in a reachable state comes from the program.  For a
property of expressions that passes to sub-expressions, holds of the code run unconditionally, and
passes from a call to the functions it may reach (`Closed`), `holds_of_reaches` says that all code
in all reachable states has it.
-/

namespace Quilon

/-- A property of the code a program can run: whatever has it leads only to code that has it. -/
structure Closed (setup : Setup) (P : Expression → Prop) : Prop where
  child : ∀ e, P e → ∀ c ∈ e.children, P c
  initialiser : ∀ v, .variableDeclaration v ∈ setup.program.items → P v.value
  method : ∀ t, .typeDeclaration t ∈ setup.program.items → ∀ m ∈ t.typeDefinition.methods, P m.body
  arm : ∀ trap, .trapDeclaration trap ∈ setup.program.items → ∀ arm ∈ trap.arms, P arm.body
  entry : ∀ f ∈ setup.program.functions, f.isEntryPoint = true → P f.body
  called : ∀ name nameSpan arguments memberCall span,
    P (.call (.identifier name nameSpan) arguments memberCall span) →
    ∀ f ∈ setup.program.functions, f.name = name ∨ qnTextImpl name = some f.name → P f.body
  operator : ∀ e, P e → ∀ f ∈ setup.program.functions, f.name ∈ operatorNames e → P f.body
  served : ∀ function arguments memberCall span, P (.call function arguments memberCall span) →
    callEffect function arguments memberCall = .serves true →
    ∀ f ∈ setup.program.functions, f.name = "core.http.serveConnection" → P f.body

section Holds

variable (setup : Setup) (P : Expression → Prop)

/-- The statements are the end of a block that has the property. -/
def StatementsHold (statements : List Statement) : Prop :=
  ∃ before span, P (.block (before ++ statements) span)

/-- The built-in code of a construct or a call that has the property. -/
def OperationHolds (operation : Operation) : Prop :=
  (∃ e, P e ∧ operation = ⟨operatorNames e, .none, false⟩) ∨
    ∃ name nameSpan arguments memberCall span,
      P (.call (.identifier name nameSpan) arguments memberCall span) ∧
      operation = ⟨[], callEffect (.identifier name nameSpan) arguments memberCall,
        name == "__test_run_case"⟩

def ItemsHold (items : List Item) : Prop :=
  ∃ before, setup.program.items = before ++ items

def Frame.Holds : Frame → Prop
  | .operands whole _ rest _ => P whole ∧ ∀ e ∈ rest, P e
  | .condition _ then_ else_ => P then_ ∧ P else_
  | .leaveBranch skipped => P skipped
  | .shortCircuit _ right => P right
  | .scrutinee _ arms => ∀ arm ∈ arms, P arm.body
  | .statement _ rest => StatementsHold P rest
  | .bind declaration _ rest =>
    StatementsHold P (.item (.variableDeclaration declaration) :: rest)
  | .activation code _ _ _ => P code.body
  | .builtin operation _ => OperationHolds P operation
  | .initialise declaration rest => ItemsHold setup (.variableDeclaration declaration :: rest)
  | .force | .rightOperand | .leaveArm _ | .block _ _ _ _ | .guard _ => True

def Control.Holds : Control → Prop
  | .eval _ e => P e
  | .operands whole _ rest _ => P whole ∧ ∀ e ∈ rest, P e
  | .run _ statements => StatementsHold P statements
  | .apply code _ => P code.body
  | .operate operation _ => OperationHolds P operation
  | .items rest => ItemsHold setup rest
  | .restart _ | .deliver _ | .done => True

def Fiber.Holds (fiber : Fiber) : Prop :=
  fiber.control.Holds setup P ∧ ∀ frame ∈ fiber.frames, frame.Holds setup P

/-- The fiber is about to run a body that was not running. -/
def Fiber.Starts (fiber : Fiber) (code : Closure) : Prop :=
  ∃ arguments, fiber.control = .apply code arguments

/-- All the code a store keeps; a handler of `@serve` comes from such a call. -/
structure Store.Holds (store : Store) : Prop where
  closures : ∀ code ∈ store.closures, P code.body
  methods : ∀ method ∈ store.methods, P method.2.body
  handlers : ∀ handler ∈ store.handlers, handler.2 = true →
    ∃ function arguments memberCall span, P (.call function arguments memberCall span) ∧
      callEffect function arguments memberCall = .serves true

structure State.Holds (state : State) : Prop where
  store : state.store.Holds P
  fibers : ∀ fiber ∈ state.fibers, fiber.Holds setup P

end Holds

/-! ### What a skipped branch introduces -/

theorem exists_of_mem_introducesAll {item : Item} {es : List Expression}
    (h : item ∈ introducesAll es) : ∃ e ∈ es, item ∈ introduces e := by
  induction es with
  | nil => cases h
  | cons e es ih =>
    rcases List.mem_append.mp h with h | h
    · exact ⟨e, List.mem_cons_self, h⟩
    · obtain ⟨e', he', h'⟩ := ih h
      exact ⟨e', List.mem_cons_of_mem _ he', h'⟩

theorem exists_of_mem_introducesParts {item : Item} {parts : List InterpolationPart}
    (h : item ∈ introducesParts parts) :
    ∃ e ∈ parts.flatMap InterpolationPart.children, item ∈ introduces e := by
  induction parts with
  | nil => cases h
  | cons part parts ih =>
    cases part with
    | literal text =>
      obtain ⟨e, he, h⟩ := ih h
      exact ⟨e, by simpa [InterpolationPart.children] using he, h⟩
    | hole e =>
      rcases List.mem_append.mp h with h | h
      · exact ⟨e, by simp [InterpolationPart.children], h⟩
      · obtain ⟨e', he', h'⟩ := ih h
        exact ⟨e', List.mem_append_right _ he', h'⟩

theorem exists_of_mem_introducesEntries {item : Item} {entries : List (Expression × Expression)}
    (h : item ∈ introducesEntries entries) :
    ∃ e ∈ entries.flatMap (fun entry => [entry.1, entry.2]), item ∈ introduces e := by
  induction entries with
  | nil => cases h
  | cons entry entries ih =>
    obtain ⟨key, value⟩ := entry
    rw [introducesEntries, List.append_assoc, List.mem_append, List.mem_append] at h
    rcases h with h | h | h
    · exact ⟨key, by simp, h⟩
    · exact ⟨value, by simp, h⟩
    · obtain ⟨e, he, h⟩ := ih h
      exact ⟨e, List.mem_append_right _ he, h⟩

theorem exists_of_mem_introducesFields {item : Item} {fields : List (String × Expression)}
    (h : item ∈ introducesFields fields) : ∃ e ∈ fields.map (·.2), item ∈ introduces e := by
  induction fields with
  | nil => cases h
  | cons field fields ih =>
    obtain ⟨name, value⟩ := field
    rcases List.mem_append.mp h with h | h
    · exact ⟨value, by simp, h⟩
    · obtain ⟨e, he, h⟩ := ih h
      exact ⟨e, List.mem_cons_of_mem _ he, h⟩

theorem exists_of_mem_introducesStatements {item : Item} {statements : List Statement}
    (h : item ∈ introducesStatements statements) :
    .item item ∈ statements ∨
      ∃ e ∈ statements.flatMap Statement.children, item ∈ introduces e := by
  induction statements with
  | nil => cases h
  | cons s statements ih =>
    have hrest : item ∈ introducesStatements statements →
        .item item ∈ s :: statements ∨
          ∃ e ∈ (s :: statements).flatMap Statement.children, item ∈ introduces e := by
      intro h
      rcases ih h with h | ⟨e, he, h⟩
      · exact .inl (List.mem_cons_of_mem _ h)
      · exact .inr ⟨e, List.mem_append_right _ he, h⟩
    cases s with
    | expression e =>
      rcases List.mem_append.mp h with h | h
      · exact .inr ⟨e, by simp [Statement.children], h⟩
      · exact hrest h
    | item declared =>
      cases declared with
      | variableDeclaration v =>
        obtain ⟨isMutable, name, ty, value, exported, atomic, span⟩ := v
        rcases List.mem_append.mp h with h | h
        · exact .inr ⟨value, by simp [Statement.children], h⟩
        · rcases List.mem_cons.mp h with rfl | h
          · exact .inl List.mem_cons_self
          · exact hrest h
      | functionDeclaration | typeDeclaration | trapDeclaration =>
        rcases List.mem_cons.mp h with rfl | h
        · exact .inl List.mem_cons_self
        · exact hrest h

/-- What an expression introduces is a statement of one of its blocks. -/
theorem within_of_mem_introduces {item : Item} (e : Expression) (h : item ∈ introduces e) :
    ∃ before after span, Within e (.block (before ++ .item item :: after) span) := by
  induction e using Expression.childrenInduction with
  | h e ih =>
    have hchild : ∀ c ∈ e.children, item ∈ introduces c →
        ∃ before after span, Within e (.block (before ++ .item item :: after) span) := by
      intro c hc h
      obtain ⟨before, after, span, hwithin⟩ := ih c hc h
      exact ⟨before, after, span, (Within.refl.child hc).trans hwithin⟩
    cases e <;> simp only [introduces, List.not_mem_nil, List.mem_append] at h
    case interpolation parts span =>
      obtain ⟨c, hc, h⟩ := exists_of_mem_introducesParts h
      exact hchild c hc h
    case call function arguments memberCall span =>
      rcases h with h | h
      · exact hchild function (by simp [Expression.children]) h
      · obtain ⟨c, hc, h⟩ := exists_of_mem_introducesAll h
        exact hchild c (List.mem_cons_of_mem _ hc) h
    case block statements span =>
      rcases exists_of_mem_introducesStatements h with h | ⟨c, hc, h⟩
      · obtain ⟨before, after, rfl⟩ := List.append_of_mem h
        exact ⟨before, after, span, .refl⟩
      · exact hchild c hc h
    case ifThenElse condition then_ else_ span =>
      rcases h with (h | h) | h
      · exact hchild condition (by simp [Expression.children]) h
      · exact hchild then_ (by simp [Expression.children]) h
      · exact hchild else_ (by simp [Expression.children]) h
    case array elements span | setLiteral elements span =>
      obtain ⟨c, hc, h⟩ := exists_of_mem_introducesAll h
      exact hchild c hc h
    case mapLiteral entries span =>
      obtain ⟨c, hc, h⟩ := exists_of_mem_introducesEntries h
      exact hchild c hc h
    case record fields span | constructor typeName fields span =>
      obtain ⟨c, hc, h⟩ := exists_of_mem_introducesFields h
      exact hchild c hc h
    case unaryOperator e span | fieldAccess e field span | spread e span | match_ e arms span =>
      exact hchild e (by simp [Expression.children]) h
    all_goals
      rcases h with h | h
      · exact hchild _ (by simp [Expression.children]) h
      · exact hchild _ (by simp [Expression.children]) h
/-! ### Bookkeeping that keeps the code a store holds -/

section Bookkeeping

variable {setup : Setup} {P : Expression → Prop}

theorem Store.Holds.of_code_eq {store store' : Store} (h : store.Holds P)
    (hclosures : store'.closures = store.closures) (hmethods : store'.methods = store.methods)
    (hhandlers : store'.handlers = store.handlers) : store'.Holds P :=
  ⟨hclosures ▸ h.closures, hmethods ▸ h.methods, hhandlers ▸ h.handlers⟩

theorem bindAll_holds {names : List String} {values : List Value} {store store' : Store}
    {env env' : Env} (h : bindAll store env names values = (store', env')) (hs : store.Holds P) :
    store'.Holds P := by
  induction names generalizing store env values with
  | nil =>
    obtain ⟨rfl, -⟩ := Prod.mk.inj h
    exact hs
  | cons name names ih => exact ih h (hs.of_code_eq rfl rfl rfl)

theorem bindStatement_holds {store store' : Store} {context context' : Context}
    {declaration : VariableDeclaration} {value : Value}
    (h : bindStatement store context declaration value = (store', context')) (hs : store.Holds P) :
    store'.Holds P := by
  unfold bindStatement at h
  split at h <;> obtain ⟨rfl, -⟩ := Prod.mk.inj h <;> exact hs.of_code_eq rfl rfl rfl

theorem declareType_holds {store : Store} {context : Context} {t : TypeDeclaration}
    (hs : store.Holds P) (ht : ∀ m ∈ t.typeDefinition.methods, P m.body) :
    (declareType setup store context t).Holds P := by
  refine ⟨hs.closures, ?_, hs.handlers⟩
  intro method hmethod
  rcases List.mem_append.mp hmethod with hmethod | hmethod
  · exact hs.methods method hmethod
  · obtain ⟨m, hm, rfl⟩ := List.mem_map.mp hmethod
    exact ht m hm

theorem declareFunction_holds {store store' : Store} {context context' : Context}
    {f : FunctionDeclaration} (h : declareFunction setup store context f = (store', context'))
    (hs : store.Holds P) (hf : P f.body) : store'.Holds P := by
  obtain ⟨rfl, -⟩ := Prod.mk.inj h
  refine ⟨?_, hs.methods, hs.handlers⟩
  intro code hcode
  rcases List.mem_append.mp hcode with hcode | hcode
  · exact hs.closures code hcode
  · rw [List.mem_singleton.mp hcode]
    exact hf

/-- Nothing but the methods of skipped types is added to the code by a skipped branch. -/
def Item.MethodsHold (P : Expression → Prop) : Item → Prop
  | .typeDeclaration t => ∀ m ∈ t.typeDefinition.methods, P m.body
  | _ => True

theorem reserveItem_holds {store store' : Store} {context context' : Context} {item : Item}
    (h : reserveItem setup store context item = (store', context')) (hs : store.Holds P)
    (hitem : item.MethodsHold P) : store'.Holds P := by
  cases item with
  | variableDeclaration v =>
    simp only [reserveItem] at h
    split at h <;> obtain ⟨rfl, -⟩ := Prod.mk.inj h
    · exact hs
    · exact hs.of_code_eq rfl rfl rfl
  | functionDeclaration f =>
    obtain ⟨rfl, -⟩ := Prod.mk.inj h
    exact hs.of_code_eq rfl rfl rfl
  | typeDeclaration t =>
    obtain ⟨rfl, -⟩ := Prod.mk.inj h
    exact declareType_holds hs hitem
  | trapDeclaration trap =>
    obtain ⟨rfl, -⟩ := Prod.mk.inj h
    exact hs

theorem foldl_reserveItem_holds (items : List Item) {store store' : Store}
    {context context' : Context}
    (h : items.foldl (fun sc item => reserveItem setup sc.1 sc.2 item) (store, context) =
      (store', context')) (hs : store.Holds P) (hitems : ∀ item ∈ items, item.MethodsHold P) :
    store'.Holds P := by
  induction items generalizing store context with
  | nil =>
    obtain ⟨rfl, -⟩ := Prod.mk.inj h
    exact hs
  | cons item items ih =>
    apply ih h
    · exact reserveItem_holds rfl hs (hitems item List.mem_cons_self)
    · exact fun item hitem => hitems item (List.mem_cons_of_mem _ hitem)

theorem reserve_holds (hP : ∀ e, P e → ∀ c ∈ e.children, P c) {store store' : Store}
    {context context' : Context} {skipped : Expression}
    (h : reserve setup store context skipped = (store', context')) (hs : store.Holds P)
    (hskipped : P skipped) : store'.Holds P := by
  apply foldl_reserveItem_holds _ h hs
  intro item hitem
  obtain ⟨before, after, span, hwithin⟩ := within_of_mem_introduces skipped hitem
  have hblock := hwithin.hereditary hP hskipped
  cases item with
  | typeDeclaration t =>
    intro m hm
    apply hP _ hblock
    simp only [Expression.children, List.mem_flatMap]
    exact ⟨.item (.typeDeclaration t), by simp, List.mem_map_of_mem hm⟩
  | variableDeclaration | functionDeclaration | trapDeclaration => trivial

theorem StatementsHold.tail {s : Statement} {rest : List Statement}
    (h : StatementsHold P (s :: rest)) : StatementsHold P rest := by
  obtain ⟨before, span, h⟩ := h
  exact ⟨before ++ [s], span, by simpa using h⟩

theorem StatementsHold.children (hP : ∀ e, P e → ∀ c ∈ e.children, P c) {s : Statement}
    {rest : List Statement} (h : StatementsHold P (s :: rest)) : ∀ c ∈ s.children, P c := by
  obtain ⟨before, span, h⟩ := h
  intro c hc
  apply hP _ h
  simp only [Expression.children, List.mem_flatMap]
  exact ⟨s, by simp, hc⟩

theorem registerLaunch_holds {launch : Nat} {frames : List Frame}
    (h : ∀ frame ∈ frames, frame.Holds setup P) :
    ∀ frame ∈ registerLaunch launch frames, frame.Holds setup P := by
  induction frames with
  | nil => exact h
  | cons frame frames ih =>
    have hhead := h frame List.mem_cons_self
    have htail := ih fun frame hframe => h frame (List.mem_cons_of_mem _ hframe)
    have hrest : ∀ frame ∈ frames, frame.Holds setup P :=
      fun frame hframe => h frame (List.mem_cons_of_mem _ hframe)
    unfold registerLaunch
    split <;> simp_all [Frame.Holds]

theorem recordLaunch_holds {launch : Nat} {frames : List Frame}
    (h : ∀ frame ∈ frames, frame.Holds setup P) :
    ∀ frame ∈ recordLaunch launch frames, frame.Holds setup P := by
  induction frames with
  | nil => exact h
  | cons frame frames ih =>
    have hhead := h frame List.mem_cons_self
    have htail := ih fun frame hframe => h frame (List.mem_cons_of_mem _ hframe)
    have hrest : ∀ frame ∈ frames, frame.Holds setup P :=
      fun frame hframe => h frame (List.mem_cons_of_mem _ hframe)
    unfold recordLaunch
    split <;> simp_all [Frame.Holds]

end Bookkeeping

/-! ### The program's own code -/

theorem mem_of_mem_withGlobals {items : List Item} {env : Env} {item : Item} {seen : Env}
    (h : (item, seen) ∈ withGlobals env items) : item ∈ items := by
  induction items generalizing env with
  | nil => cases h
  | cons first items ih =>
    rcases List.mem_cons.mp h with h | h
    · rw [(Prod.mk.inj h).1]
      exact List.mem_cons_self
    · exact List.mem_cons_of_mem _ (ih h)

theorem Setup.mem_functions (setup : Setup) {f : FunctionDeclaration} {code : Closure}
    (h : (f, code) ∈ setup.functions) : f ∈ setup.program.functions ∧ code.body = f.body := by
  obtain ⟨⟨item, env⟩, hitem, heq⟩ := List.mem_filterMap.mp h
  have hmem := mem_of_mem_withGlobals hitem
  cases item <;> simp only [reduceCtorEq, Option.ite_none_right_eq_some, Option.some.injEq,
    Prod.mk.injEq] at heq
  obtain ⟨-, rfl, rfl⟩ := heq
  exact ⟨List.mem_filterMap.mpr ⟨_, hmem, rfl⟩, rfl⟩

theorem Setup.mem_topLevelMethods (setup : Setup) {method : String × Closure}
    (h : method ∈ setup.topLevelMethods) :
    ∃ t, .typeDeclaration t ∈ setup.program.items ∧
      ∃ m ∈ t.typeDefinition.methods, method.2.body = m.body := by
  obtain ⟨⟨item, env⟩, hitem, heq⟩ := List.mem_flatMap.mp h
  have hmem := mem_of_mem_withGlobals hitem
  cases item <;> simp only [List.not_mem_nil, List.mem_map] at heq
  obtain ⟨m, hm, rfl⟩ := heq
  exact ⟨_, hmem, m, hm, rfl⟩

theorem Setup.mem_trapArms (setup : Setup) {arm : MatchArm} {env : Env}
    (h : (arm, env) ∈ setup.trapArms) :
    ∃ trap, .trapDeclaration trap ∈ setup.program.items ∧ arm ∈ trap.arms := by
  obtain ⟨⟨item, env⟩, hitem, heq⟩ := List.mem_flatMap.mp h
  have hmem := mem_of_mem_withGlobals hitem
  cases item <;> simp only [List.not_mem_nil, List.mem_map] at heq
  obtain ⟨arm, harm, heq⟩ := heq
  obtain ⟨rfl, -⟩ := Prod.mk.inj heq
  exact ⟨_, hmem, harm⟩

/-! ### Every step keeps the property -/

section Preservation

variable {setup : Setup} {P : Expression → Prop} {store store' : Store} {context : Context}
  {frames : List Frame} {fiber fiber' : Fiber}

theorem Enters.holds {tail tail' : Bool} {e : Expression} {frames' : List Frame}
    (h : Enters setup tail e frames tail' frames') (hframes : ∀ frame ∈ frames, frame.Holds setup P) :
    ∀ frame ∈ frames', frame.Holds setup P := by
  cases h with
  | lowered => exact hframes
  | plain => exact hframes
  | forced => exact List.forall_mem_cons.mpr ⟨trivial, hframes⟩

theorem Evaluates.store_holds (hchild : ∀ e, P e → ∀ c ∈ e.children, P c) {tail : Bool}
    {e : Expression} (h : Evaluates setup store context frames tail e store' fiber)
    (hs : store.Holds P) (he : P e) : store'.Holds P := by
  cases h with
  | lambda parameters ty body span =>
    refine ⟨?_, hs.methods, hs.handlers⟩
    intro code hcode
    rcases List.mem_append.mp hcode with hcode | hcode
    · exact hs.closures code hcode
    · rw [List.mem_singleton.mp hcode]
      exact hchild _ he _ (by simp [Expression.children])
  | _ => exact hs

theorem Evaluates.keeps (hchild : ∀ e, P e → ∀ c ∈ e.children, P c) {tail : Bool}
    {e : Expression} (h : Evaluates setup store context frames tail e store' fiber)
    (hframes : ∀ frame ∈ frames, frame.Holds setup P) (he : P e) : fiber.Holds setup P := by
  cases h with
  | literal | read | chosen | lambda => exact ⟨trivial, hframes⟩
  | tailBlock statements span | scopeBlock statements span | plainBlock statements span =>
    exact ⟨⟨[], span, he⟩, List.forall_mem_cons.mpr ⟨trivial, hframes⟩⟩
  | ifThenElse condition then_ else_ span =>
    have hparts := hchild _ he
    simp only [Expression.children, List.mem_cons, List.not_mem_nil, or_false, forall_eq_or_imp,
      forall_eq] at hparts
    exact ⟨hparts.1, List.forall_mem_cons.mpr ⟨hparts.2, hframes⟩⟩
  | match_ scrutinee arms span =>
    have hparts := hchild _ he
    refine ⟨hparts scrutinee List.mem_cons_self, List.forall_mem_cons.mpr ⟨?_, hframes⟩⟩
    intro arm harm
    exact hparts _ (List.mem_cons_of_mem _ (List.mem_map_of_mem harm))
  | logical left operator right span =>
    have hparts := hchild _ he
    simp only [Expression.children, List.mem_cons, List.not_mem_nil, or_false, forall_eq_or_imp,
      forall_eq] at hparts
    exact ⟨hparts.1, List.forall_mem_cons.mpr ⟨hparts.2, hframes⟩⟩
  | operands hstrict htail =>
    refine ⟨⟨he, fun c hc => ?_⟩, hframes⟩
    have hwithin := within_of_mem_operands Within.refl (setup.order_operands e c hc)
    exact hwithin.hereditary hchild he

theorem Dispatches.starts_holds (hP : Closed setup P) {name : String} {nameSpan span : Span}
    {arguments : List Expression} {memberCall : Bool} {values : List Value}
    (h : Dispatches setup store context frames name nameSpan arguments memberCall values fiber)
    (hs : store.Holds P) (he : P (.call (.identifier name nameSpan) arguments memberCall span))
    {code : Closure} (hstarts : fiber.Starts code) : P code.body := by
  obtain ⟨passed, hstarts⟩ := hstarts
  cases h with
  | builtin => cases hstarts
  | binding hmember hprimitive hlookup hcell hcode =>
    cases hstarts
    exact hs.closures _ (List.mem_of_getElem? hcode)
  | @function f code hprimitive hf hmember hplain =>
    obtain ⟨hmem, hbody⟩ := setup.mem_functions hf
    cases hstarts
    rw [hbody]
    apply hP.called _ _ _ _ _ he f hmem
    cases memberCall with
    | true => exact .inr (hmember rfl)
    | false => exact .inl (hplain rfl)
  | method hmember hprimitive hmethod =>
    cases hstarts
    exact hs.methods _ hmethod

theorem Dispatches.keeps {name : String} {nameSpan span : Span}
    {arguments : List Expression} {memberCall : Bool} {values : List Value}
    (h : Dispatches setup store context frames name nameSpan arguments memberCall values fiber)
    (hframes : ∀ frame ∈ frames, frame.Holds setup P)
    (he : P (.call (.identifier name nameSpan) arguments memberCall span))
    (hstarts : ∀ code, fiber.Starts code → P code.body) : fiber.Holds setup P := by
  cases h with
  | builtin => exact ⟨.inr ⟨_, _, _, _, _, he, rfl⟩, hframes⟩
  | binding | function | method => exact ⟨hstarts _ ⟨_, rfl⟩, hframes⟩

theorem Operates.store_holds {operation : Operation} {values : List Value}
    (h : Operates setup store context frames operation values store' fiber) (hs : store.Holds P)
    (hop : OperationHolds P operation) : store'.Holds P := by
  cases h with
  | callback | method | function | ends => exact hs
  | launches heffect => exact hs.of_code_eq rfl rfl rfl
  | @serves http value heffect hready =>
    refine ⟨hs.closures, hs.methods, ?_⟩
    intro handler hhandler hhttp
    rcases List.mem_append.mp hhandler with hhandler | hhandler
    · exact hs.handlers handler hhandler hhttp
    · obtain ⟨v, -, hv⟩ := List.mem_filterMap.mp hhandler
      have hserve : http = true := by
        cases v <;> simp at hv
        rw [← hhttp, ← hv]
      rcases hop with ⟨e, he, rfl⟩ | ⟨_, _, _, _, _, he, rfl⟩
      · cases heffect
      · exact ⟨_, _, _, _, he, by rw [← hserve]; exact heffect⟩

theorem Operates.starts_holds (hP : Closed setup P) {operation : Operation} {values : List Value}
    (h : Operates setup store context frames operation values store' fiber) (hs : store.Holds P)
    (hop : OperationHolds P operation) {code : Closure} (hstarts : fiber.Starts code) :
    P code.body := by
  obtain ⟨passed, hstarts⟩ := hstarts
  cases h with
  | ends | launches | serves => cases hstarts
  | callback hmem hcode hready =>
    cases hstarts
    exact hs.closures _ (List.mem_of_getElem? hcode)
  | method hmethod hready =>
    cases hstarts
    exact hs.methods _ hmethod
  | @function f code arguments hf hname hready =>
    obtain ⟨hmem, hbody⟩ := setup.mem_functions hf
    cases hstarts
    rw [hbody]
    rcases hop with ⟨e, he, rfl⟩ | ⟨_, _, _, _, _, _, rfl⟩
    · exact hP.operator e he f hmem hname
    · cases hname

theorem Operates.keeps {operation : Operation} {values : List Value}
    (h : Operates setup store context frames operation values store' fiber)
    (hframes : ∀ frame ∈ frames, frame.Holds setup P) (hop : OperationHolds P operation)
    (hstarts : ∀ code, fiber.Starts code → P code.body) : fiber.Holds setup P := by
  have hwithin : ∀ frame ∈ (if operation.guarded then Frame.guard context
      else .builtin operation values) :: frames, frame.Holds setup P := by
    refine List.forall_mem_cons.mpr ⟨?_, hframes⟩
    cases operation.guarded with
    | true => trivial
    | false => exact hop
  cases h with
  | callback | method | function => exact ⟨hstarts _ ⟨_, rfl⟩, hwithin⟩
  | ends => exact ⟨trivial, hframes⟩
  | launches | serves =>
    exact ⟨trivial, recordLaunch_holds (registerLaunch_holds hframes)⟩

theorem Delivers.store_holds (hchild : ∀ e, P e → ∀ c ∈ e.children, P c) {value : Value}
    {frame : Frame} (h : Delivers setup store context frames value frame store' fiber)
    (hs : store.Holds P) (hframe : frame.Holds setup P) : store'.Holds P := by
  cases h with
  | takeElse tail then_ else_ hvalue hreserve => exact reserve_holds hchild hreserve hs hframe.1
  | leaveBranch skipped hreserve => exact reserve_holds hchild hreserve hs hframe
  | decided right hvalue hreserve => exact reserve_holds hchild hreserve hs hframe
  | takeArm harm hready hbind => exact bindAll_holds hbind hs
  | bind declaration tail rest hbind => exact bindStatement_holds hbind hs
  | initialise declaration rest => exact hs.of_code_eq rfl rfl rfl
  | _ => exact hs

theorem Delivers.keeps {value : Value} {frame : Frame}
    (h : Delivers setup store context frames value frame store' fiber)
    (hframe : frame.Holds setup P) (hframes : ∀ frame ∈ frames, frame.Holds setup P) :
    fiber.Holds setup P := by
  cases h with
  | pass | forced | leaveArm | leaveBlock | returns | leaveGuard | leaveBranch | decided =>
    exact ⟨trivial, hframes⟩
  | operands whole tail rest values => exact ⟨hframe, hframes⟩
  | takeThen tail then_ else_ =>
    exact ⟨hframe.1, List.forall_mem_cons.mpr ⟨hframe.2, hframes⟩⟩
  | takeElse tail then_ else_ hvalue hreserve => exact ⟨hframe.2, hframes⟩
  | takeRight operator right =>
    exact ⟨hframe, List.forall_mem_cons.mpr ⟨trivial, hframes⟩⟩
  | takeArm harm hready hbind =>
    exact ⟨hframe _ harm, List.forall_mem_cons.mpr ⟨trivial, hframes⟩⟩
  | statement tail hrest => exact ⟨hframe, hframes⟩
  | bind declaration tail rest hbind => exact ⟨StatementsHold.tail hframe, hframes⟩
  | builtin operation values => exact ⟨hframe, hframes⟩
  | initialise declaration rest =>
    obtain ⟨before, hitems⟩ := hframe
    exact ⟨⟨before ++ [.variableDeclaration declaration], by simpa using hitems⟩, hframes⟩

theorem Moves.store_holds (hchild : ∀ e, P e → ∀ c ∈ e.children, P c)
    (h : Moves setup store fiber store' fiber') (hs : store.Holds P)
    (hfiber : fiber.Holds setup P) : store'.Holds P := by
  obtain ⟨hcontrol, hframes⟩ := hfiber
  cases h with
  | eval henters hevaluates => exact hevaluates.store_holds hchild hs hcontrol
  | runFunction frames tail f rest hdeclare =>
    exact declareFunction_holds hdeclare hs (hcontrol.children hchild _ List.mem_cons_self)
  | runType context frames tail t rest =>
    refine declareType_holds hs fun m hm => ?_
    exact hcontrol.children hchild _ (List.mem_map_of_mem hm)
  | apply hbind => exact bindAll_holds hbind hs
  | operate hoperates => exact hoperates.store_holds hs hcontrol
  | restart hdrop hsettled hbind => exact bindAll_holds hbind hs
  | deliver hdelivers => exact hdelivers.store_holds hchild hs (hframes _ List.mem_cons_self)
  | _ => exact hs

/-- A fiber's code comes from the code it had, the code the step starts and, while the items run,
the initialisers. -/
theorem Moves.keeps (hchild : ∀ e, P e → ∀ c ∈ e.children, P c)
    (h : Moves setup store fiber store' fiber') (hfiber : fiber.Holds setup P)
    (hinitialiser : ∀ v rest, fiber.control = .items (.variableDeclaration v :: rest) → P v.value)
    (hstarts : ∀ code, fiber'.Starts code → P code.body) : fiber'.Holds setup P := by
  obtain ⟨hcontrol, hframes⟩ := hfiber
  cases h with
  | eval henters hevaluates => exact hevaluates.keeps hchild (henters.holds hframes) hcontrol
  | operand context frames whole tail e rest values =>
    exact ⟨hcontrol.2 e List.mem_cons_self, List.forall_mem_cons.mpr
      ⟨⟨hcontrol.1, fun c hc => hcontrol.2 c (List.mem_cons_of_mem _ hc)⟩, hframes⟩⟩
  | tailCall | runEnd | finished | itemsEnd => exact ⟨trivial, hframes⟩
  | call hdispatch => exact hdispatch.keeps hframes hcontrol.1 hstarts
  | callComputed hfunction hcode => exact ⟨hstarts _ ⟨_, rfl⟩, hframes⟩
  | construct => exact ⟨.inl ⟨_, hcontrol.1, rfl⟩, hframes⟩
  | runExpression context frames tail e rest =>
    exact ⟨hcontrol.children hchild e List.mem_cons_self,
      List.forall_mem_cons.mpr ⟨hcontrol.tail, hframes⟩⟩
  | runBinding context frames tail declaration rest =>
    exact ⟨hcontrol.children hchild _ List.mem_cons_self,
      List.forall_mem_cons.mpr ⟨hcontrol, hframes⟩⟩
  | runFunction | runType => exact ⟨hcontrol.tail, hframes⟩
  | apply hbind => exact ⟨hcontrol, List.forall_mem_cons.mpr ⟨hcontrol, hframes⟩⟩
  | operate hoperates => exact hoperates.keeps hframes hcontrol hstarts
  | @restart context caller frames rest arguments code scope launched store' env hdrop hsettled
      hbind =>
    have hrest : ∀ frame ∈ frames.dropWhile (!·.isActivation), frame.Holds setup P :=
      fun frame hframe => hframes frame ((List.dropWhile_sublist _).subset hframe)
    rw [hdrop] at hrest
    obtain ⟨hactivation, hrest⟩ := List.forall_mem_cons.mp hrest
    exact ⟨hactivation, List.forall_mem_cons.mpr ⟨hactivation, hrest⟩⟩
  | deliver hdelivers =>
    obtain ⟨hframe, hframes⟩ := List.forall_mem_cons.mp hframes
    exact hdelivers.keeps hframe hframes
  | itemBinding context frames declaration rest =>
    obtain ⟨before, hitems⟩ := hcontrol
    refine ⟨hinitialiser declaration rest rfl, ?_⟩
    exact List.forall_mem_cons.mpr ⟨⟨before, hitems⟩, hframes⟩
  | itemOther =>
    obtain ⟨before, hitems⟩ := hcontrol
    exact ⟨⟨before ++ [_], by simpa using hitems⟩, hframes⟩

theorem Moves.starts_holds (hP : Closed setup P) (h : Moves setup store fiber store' fiber')
    (hs : store.Holds P) (hfiber : fiber.Holds setup P) {code : Closure}
    (hstarts : fiber'.Starts code) : P code.body := by
  obtain ⟨hcontrol, hframes⟩ := hfiber
  cases h with
  | call hdispatch => exact hdispatch.starts_holds hP hs hcontrol.1 hstarts
  | callComputed hfunction hcode =>
    obtain ⟨passed, hstarts⟩ := hstarts
    cases hstarts
    exact hs.closures _ (List.mem_of_getElem? hcode)
  | operate hoperates => exact hoperates.starts_holds hP hs hcontrol hstarts
  | eval henters hevaluates =>
    obtain ⟨passed, hstarts⟩ := hstarts
    cases hevaluates <;> cases hstarts
  | deliver hdelivers =>
    obtain ⟨passed, hstarts⟩ := hstarts
    cases hdelivers <;> cases hstarts
  | _ =>
    obtain ⟨passed, hstarts⟩ := hstarts
    cases hstarts

theorem Moves.holds (hP : Closed setup P) (h : Moves setup store fiber store' fiber')
    (hs : store.Holds P) (hfiber : fiber.Holds setup P) :
    store'.Holds P ∧ fiber'.Holds setup P := by
  refine ⟨h.store_holds hP.child hs hfiber, h.keeps hP.child hfiber ?_ fun code hstarts =>
    h.starts_holds hP hs hfiber hstarts⟩
  intro v rest hitems
  have hcontrol := hfiber.1
  rw [hitems] at hcontrol
  obtain ⟨before, hitems⟩ := hcontrol
  exact hP.initialiser v (by rw [hitems]; simp)

theorem Steps.holds (hP : Closed setup P) {state state' : State} (h : Steps setup state state')
    (hstate : state.Holds setup P) : state'.Holds setup P := by
  have hspawn : ∀ (code : Closure) (arguments : List Value), P code.body →
      (⟨state.store, state.fibers ++ [⟨.apply code arguments, ⟨[], []⟩, []⟩]⟩ : State).Holds
        setup P := by
    intro code arguments hcode
    refine ⟨hstate.store, fun fiber hfiber => ?_⟩
    rcases List.mem_append.mp hfiber with hfiber | hfiber
    · exact hstate.fibers fiber hfiber
    · rw [List.mem_singleton.mp hfiber]
      exact ⟨hcode, by simp⟩
  cases h with
  | @fiber index fiber fiber' store' hfiber hmoves =>
    obtain ⟨hs, hfiber'⟩ := hmoves.holds hP hstate.store
      (hstate.fibers fiber (List.mem_of_getElem? hfiber))
    refine ⟨hs, fun other hother => ?_⟩
    rcases List.mem_or_eq_of_mem_set hother with hother | rfl
    · exact hstate.fibers other hother
    · exact hfiber'
  | settle launch => exact ⟨hstate.store.of_code_eq rfl rfl rfl, hstate.fibers⟩
  | @enter f code arguments hf hentry hready =>
    obtain ⟨hmem, hbody⟩ := setup.mem_functions hf
    exact hspawn code arguments (hbody ▸ hP.entry f hmem hentry)
  | @handleTcp closure code arguments hhandler hcode hready =>
    exact hspawn code arguments (hstate.store.closures code (List.mem_of_getElem? hcode))
  | @handleHttp closure f code arguments hhandler hf hname hready =>
    obtain ⟨hmem, hbody⟩ := setup.mem_functions hf
    obtain ⟨_, _, _, _, hcall, heffect⟩ := hstate.store.handlers _ hhandler rfl
    exact hspawn code arguments (hbody ▸ hP.served _ _ _ _ hcall heffect f hmem hname)
  | @trap arm env arguments harm hready =>
    obtain ⟨trap, htrap, hmem⟩ := setup.mem_trapArms harm
    exact hspawn _ arguments (hP.arm trap htrap arm hmem)
  | @abandon index fiber context frames hfiber hdrop =>
    refine ⟨hstate.store, fun other hother => ?_⟩
    rcases List.mem_or_eq_of_mem_set hother with hother | rfl
    · exact hstate.fibers other hother
    · refine ⟨trivial, fun frame hframe => ?_⟩
      apply (hstate.fibers fiber (List.mem_of_getElem? hfiber)).2 frame
      apply (List.dropWhile_sublist (p := (!·.isGuard))).subset
      rw [hdrop]
      exact List.mem_cons_of_mem _ hframe

end Preservation

theorem start_holds {setup : Setup} {P : Expression → Prop} (hP : Closed setup P) :
    setup.start.Holds setup P := by
  refine ⟨⟨by simp [Setup.start], ?_, by simp [Setup.start]⟩, ?_⟩
  · intro method hmethod
    obtain ⟨t, ht, m, hm, hbody⟩ := setup.mem_topLevelMethods hmethod
    rw [hbody]
    exact hP.method t ht m hm
  · intro fiber hfiber
    rw [List.mem_singleton.mp hfiber]
    exact ⟨⟨[], rfl⟩, by simp⟩

/-- **All code in a reachable state has a closed property.** -/
theorem holds_of_reaches {setup : Setup} {P : Expression → Prop} (hP : Closed setup P)
    {state : State} (h : setup.Reaches state) : state.Holds setup P :=
  Run.invariant (start_holds hP)
    (fun _ _ _ hstate _ hstep => (steps_of_step hstep).holds hP hstate) h

end Quilon
