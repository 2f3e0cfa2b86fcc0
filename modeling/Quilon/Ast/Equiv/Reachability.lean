import Quilon.Machine.Provenance

/-!
# Pruning keeps every function a run calls

`reachableFunctions` closes the names mentioned by the code that is emitted unconditionally under
the bodies of the functions they name.  Every function a run calls is among them: all code in a
reachable state mentions reached names only, which is a closed property of the machine's code.

Main results:

* `reachLoop_closed` — the result of the worklist loop holds the roots and is closed;
* `reachableFunctions_sound` — the loop ends, and no function that is called is dropped.
-/

namespace Quilon

/-! ### Mentions pass to sub-expressions -/

theorem mentions_subset_mentionsAll {es : List Expression} {e : Expression} (h : e ∈ es) :
    mentions e ⊆ mentionsAll es := by
  induction es with
  | nil => cases h
  | cons first es ih =>
    rw [mentionsAll]
    rcases List.mem_cons.mp h with rfl | h
    · exact List.subset_append_left _ _
    · exact fun n hn => List.mem_append_right _ (ih h hn)

theorem mentions_subset_mentionsParts {parts : List InterpolationPart} {e : Expression}
    (h : e ∈ parts.flatMap InterpolationPart.children) : mentions e ⊆ mentionsParts parts := by
  induction parts with
  | nil => cases h
  | cons part parts ih =>
    cases part with
    | literal text => exact ih (by simpa [InterpolationPart.children] using h)
    | hole first =>
      rw [mentionsParts]
      rcases List.mem_append.mp h with h | h
      · rw [List.mem_singleton.mp h]
        exact List.subset_append_left _ _
      · exact fun n hn => List.mem_append_right _ (ih h hn)

theorem mentions_subset_mentionsEntries {entries : List (Expression × Expression)} {e : Expression}
    (h : e ∈ entries.flatMap fun entry => [entry.1, entry.2]) :
    mentions e ⊆ mentionsEntries entries := by
  induction entries with
  | nil => cases h
  | cons entry entries ih =>
    obtain ⟨key, value⟩ := entry
    rw [mentionsEntries, List.append_assoc]
    rcases List.mem_append.mp h with h | h
    · simp only [List.mem_cons, List.not_mem_nil, or_false] at h
      rcases h with rfl | rfl
      · exact List.subset_append_left _ _
      · exact fun n hn => List.mem_append_right _ (List.mem_append_left _ hn)
    · exact fun n hn => List.mem_append_right _ (List.mem_append_right _ (ih h hn))

theorem mentions_subset_mentionsFields {fields : List (String × Expression)} {e : Expression}
    (h : e ∈ fields.map (·.2)) : mentions e ⊆ mentionsFields fields := by
  induction fields with
  | nil => cases h
  | cons field fields ih =>
    obtain ⟨name, value⟩ := field
    rw [mentionsFields]
    rcases List.mem_cons.mp h with rfl | h
    · exact List.subset_append_left _ _
    · exact fun n hn => List.mem_append_right _ (ih h hn)

theorem mentions_subset_mentionsArms {arms : List MatchArm} {arm : MatchArm} (h : arm ∈ arms) :
    mentions arm.body ⊆ mentionsArms arms := by
  induction arms with
  | nil => cases h
  | cons first arms ih =>
    obtain ⟨pattern, body, span⟩ := first
    rw [mentionsArms]
    rcases List.mem_cons.mp h with rfl | h
    · exact List.subset_append_left _ _
    · exact fun n hn => List.mem_append_right _ (ih h hn)

theorem mentions_subset_mentionsMethods {methods : List MethodDeclaration} {m : MethodDeclaration}
    (h : m ∈ methods) : mentions m.body ⊆ mentionsMethods methods := by
  induction methods with
  | nil => cases h
  | cons first methods ih =>
    obtain ⟨name, parameters, returnType, body, mutating, span⟩ := first
    rw [mentionsMethods]
    rcases List.mem_cons.mp h with rfl | h
    · exact List.subset_append_left _ _
    · exact fun n hn => List.mem_append_right _ (ih h hn)

theorem mentions_subset_mentionsStatements {statements : List Statement} {e : Expression}
    (h : e ∈ statements.flatMap Statement.children) :
    mentions e ⊆ mentionsStatements statements := by
  induction statements with
  | nil => cases h
  | cons s statements ih =>
    rcases List.mem_append.mp h with h | h
    · -- The statement itself holds `e`.
      cases s with
      | expression first =>
        rw [List.mem_singleton.mp h]
        exact List.subset_append_left _ _
      | item item =>
        cases item with
        | variableDeclaration v =>
          rw [List.mem_singleton.mp h]
          cases v
          exact List.subset_append_left _ _
        | functionDeclaration f =>
          rw [List.mem_singleton.mp h]
          cases f
          exact List.subset_append_left _ _
        | typeDeclaration t =>
          obtain ⟨m, hm, rfl⟩ := List.mem_map.mp h
          obtain ⟨name, definition, exported, span⟩ := t
          intro n hn
          cases definition <;>
            exact List.mem_append_left _ (mentions_subset_mentionsMethods hm hn)
        | trapDeclaration trap => cases h
    · have hrest : mentionsStatements statements ⊆ mentionsStatements (s :: statements) := by
        cases s with
        | expression first => exact List.subset_append_right _ _
        | item item =>
          cases item with
          | variableDeclaration v =>
            cases v
            exact List.subset_append_right _ _
          | functionDeclaration f =>
            cases f
            exact List.subset_append_right _ _
          | typeDeclaration t =>
            obtain ⟨name, definition, exported, span⟩ := t
            cases definition <;> exact List.subset_append_right _ _
          | trapDeclaration trap => exact List.Subset.refl _
      exact fun n hn => hrest (ih h hn)

/-- A bare `it` mentions nothing, a called one itself. -/
theorem mentions_subset_mentionsCallee (e : Expression) : mentions e ⊆ mentionsCallee e := by
  cases e
  case identifier name span =>
    intro n hn
    by_cases hname : name = RECEIVER
    · simp [mentions, hname] at hn
    · simpa [mentionsCallee, hname] using hn
  all_goals exact List.Subset.refl _

theorem mentions_subset_of_mem_children {e c : Expression} (h : c ∈ e.children) :
    mentions c ⊆ mentions e := by
  cases e <;> simp only [Expression.children, List.not_mem_nil] at h
  case interpolation parts span =>
    exact fun n hn => List.mem_cons_of_mem _ (mentions_subset_mentionsParts h hn)
  case call function arguments memberCall span =>
    intro n hn
    rw [mentions_call]
    rcases List.mem_cons.mp h with rfl | h
    · exact List.mem_append_left _ (mentions_subset_mentionsCallee c hn)
    · exact List.mem_append_right _ (mentions_subset_mentionsAll h hn)
  case block statements span => exact mentions_subset_mentionsStatements h
  case match_ scrutinee arms span =>
    intro n hn
    rw [mentions]
    rcases List.mem_cons.mp h with rfl | h
    · exact List.mem_append_left _ hn
    · obtain ⟨arm, harm, rfl⟩ := List.mem_map.mp h
      exact List.mem_append_right _ (mentions_subset_mentionsArms harm hn)
  case array elements span | setLiteral elements span => exact mentions_subset_mentionsAll h
  case mapLiteral entries span => exact mentions_subset_mentionsEntries h
  case record fields span => exact mentions_subset_mentionsFields h
  case constructor typeName fields span =>
    exact fun n hn => List.mem_cons_of_mem _ (mentions_subset_mentionsFields h hn)
  case unaryOperator operator operand span =>
    intro n hn
    rw [List.mem_singleton.mp h] at hn
    cases operator with
    | neg => exact List.mem_cons_of_mem _ hn
    | not => exact hn
  all_goals
    intro n hn
    simp only [List.mem_cons, List.not_mem_nil, or_false] at h
    simp only [mentions, List.mem_append, List.mem_cons]
    rcases h with rfl | rfl | rfl <;> simp [hn]

/-! ### The loop -/

theorem definedMentions_eq_nil (program : Program) (name : String)
    (h : name ∉ program.functions.map (·.name)) : definedMentions program name = [] := by
  have hfilter : program.functions.filter (·.name == name) = [] := by
    rw [List.filter_eq_nil_iff]
    intro f hf hname
    exact h (List.mem_map.mpr ⟨f, hf, by simpa using hname⟩)
  rw [definedMentions, hfilter, List.flatMap_nil]

/-- The worklist empties within `reachBound`, whatever the program. -/
theorem reachLoop_ends (program : Program) :
    ∃ reached, ∀ fuel, reachBound program ≤ fuel → reachLoop program fuel = some reached := by
  obtain ⟨reached, h⟩ := Worklist.run_eq_some (definedMentions_eq_nil program)
    (Nat.lt_succ_self (Worklist.potential (definedMentions program)
      (program.functions.map (·.name)) (rootNames program).reverse []))
  exact ⟨reached, fun fuel hfuel => Worklist.run_mono hfuel h⟩

theorem reachLoop_closed {program : Program} {fuel : Nat} {reached : List String}
    (h : reachLoop program fuel = some reached) :
    rootNames program ⊆ reached ∧
      ∀ f ∈ program.functions, f.name ∈ reached → mentions f.body ⊆ reached := by
  obtain ⟨-, hroots, hclosed⟩ := Worklist.run_closed (by intro x hx; cases hx) h
  refine ⟨fun name hname => hroots (List.mem_reverse.mpr hname), fun f hf hname n hn => ?_⟩
  apply hclosed f.name hname
  simp only [definedMentions, List.mem_flatMap, List.mem_filter]
  exact ⟨f, ⟨hf, by simp⟩, hn⟩

/-! ### Roots -/

theorem rootMentions_subset {program : Program} {item : Item} (h : item ∈ program.items) :
    item.rootMentions ⊆ rootNames program :=
  fun _ hn => List.mem_append_right _ (List.mem_flatMap.mpr ⟨item, h, hn⟩)

theorem mem_rootNames_of_isEntryPoint {program : Program} {f : FunctionDeclaration}
    (hf : f ∈ program.functions) (h : f.isEntryPoint = true) : f.name ∈ rootNames program := by
  obtain ⟨item, hitem, heq⟩ := List.mem_filterMap.mp hf
  cases item <;> simp only [reduceCtorEq, Option.some.injEq] at heq
  subst heq
  rw [FunctionDeclaration.isEntryPoint, Bool.or_eq_true] at h
  rcases h with h | h
  · have hentry : program.items.any Item.isEntry = true :=
      List.any_eq_true.mpr ⟨_, hitem, h⟩
    rw [rootNames, hentry, if_pos rfl, beq_iff_eq.mp h]
    exact List.mem_cons_self
  · apply rootMentions_subset hitem
    simp [Item.rootMentions, h]

/-! ### Calls -/

/-- A called name is mentioned, and so is the `core.text` function behind it. -/
theorem mem_mentions_of_called {name : String} {nameSpan span : Span}
    {arguments : List Expression} {memberCall : Bool} {called : String}
    (h : called = name ∨ qnTextImpl name = some called) :
    called ∈ mentions (.call (.identifier name nameSpan) arguments memberCall span) := by
  rw [mentions_call]
  apply List.mem_append_left
  by_cases hname : name = RECEIVER
  · rcases h with rfl | h
    · simp [mentionsCallee, hname]
    · rw [hname] at h
      exact absurd h (by simp [qnTextImpl, RECEIVER])
  · rcases h with rfl | h
    · cases himpl : qnTextImpl called <;> simp [mentionsCallee, mentions, hname, himpl]
    · simp [mentionsCallee, mentions, hname, h]

theorem operatorNames_subset_mentions (e : Expression) : operatorNames e ⊆ mentions e := by
  intro n hn
  cases e <;> simp only [operatorNames, List.not_mem_nil, List.mem_singleton] at hn
  · rw [hn]
    exact List.mem_cons_self
  · rw [hn]
    exact List.mem_cons_self

theorem primitive_of_callEffect_serves {function : Expression} {arguments : List Expression}
    {memberCall : Bool} (h : callEffect function arguments memberCall = .serves true) :
    ∃ name span, function = .identifier name span ∧ atPrimitiveName name = some "serve" := by
  unfold callEffect at h
  split at h
  · cases h
  · split at h
    · cases h
    · split at h
      case isTrue hserve =>
        cases function <;> simp only [namesPrimitive, Bool.false_eq_true] at hserve
        exact ⟨_, _, rfl, by simpa using hserve⟩
      case isFalse =>
        split at h <;> cases h

/-- The `@serve` a program calls is declared in it, as the linked `corelib/http.qn` does: by a body
that mentions `serveConnection`, the function its lowering calls. -/
def Program.LinksServe (program : Program) : Prop :=
  ∀ name nameSpan arguments memberCall span,
    program.Contains (.call (.identifier name nameSpan) arguments memberCall span) →
    atPrimitiveName name = some "serve" →
    ∃ f ∈ program.functions, f.name = name ∧ "core.http.serveConnection" ∈ mentions f.body

theorem Program.contains_function {program : Program} {f : FunctionDeclaration}
    (h : f ∈ program.functions) : program.Contains f.body := by
  obtain ⟨item, hitem, heq⟩ := List.mem_filterMap.mp h
  cases item <;> simp only [reduceCtorEq, Option.some.injEq] at heq
  subst heq
  exact ⟨_, hitem, _, List.mem_singleton.mpr rfl, .refl⟩

/-- Code that occurs in the program and mentions reached names only. -/
def MentionsReached (program : Program) (reached : List String) (e : Expression) : Prop :=
  program.Contains e ∧ mentions e ⊆ reached

theorem closed_mentionsReached {setup : Setup} {fuel : Nat} {reached : List String}
    (hlinks : setup.program.LinksServe) (h : reachLoop setup.program fuel = some reached) :
    Closed setup (MentionsReached setup.program reached) := by
  obtain ⟨hroots, hclosed⟩ := reachLoop_closed h
  have hfunction : ∀ f ∈ setup.program.functions, f.name ∈ reached →
      MentionsReached setup.program reached f.body :=
    fun f hf hname => ⟨Program.contains_function hf, hclosed f hf hname⟩
  constructor
  case child =>
    rintro e ⟨⟨item, hitem, root, hroot, hwithin⟩, hmentions⟩ c hc
    exact ⟨⟨item, hitem, root, hroot, hwithin.child hc⟩,
      fun n hn => hmentions (mentions_subset_of_mem_children hc hn)⟩
  case initialiser =>
    intro v hv
    exact ⟨⟨_, hv, _, List.mem_singleton.mpr rfl, .refl⟩,
      fun n hn => hroots (rootMentions_subset hv hn)⟩
  case method =>
    intro t ht m hm
    exact ⟨⟨_, ht, _, List.mem_map_of_mem hm, .refl⟩,
      fun n hn => hroots (rootMentions_subset ht (mentions_subset_mentionsMethods hm hn))⟩
  case arm =>
    intro trap htrap arm harm
    exact ⟨⟨_, htrap, _, List.mem_map_of_mem harm, .refl⟩,
      fun n hn => hroots (rootMentions_subset htrap (mentions_subset_mentionsArms harm hn))⟩
  case entry =>
    intro f hf hentry
    exact hfunction f hf (hroots (mem_rootNames_of_isEntryPoint hf hentry))
  case called =>
    intro name nameSpan arguments memberCall span hcall f hf hname
    exact hfunction f hf (hcall.2 (mem_mentions_of_called hname))
  case operator =>
    intro e he f hf hname
    exact hfunction f hf (he.2 (operatorNames_subset_mentions e hname))
  case served =>
    intro function arguments memberCall span hcall heffect f hf hname
    obtain ⟨name, nameSpan, rfl, hprimitive⟩ := primitive_of_callEffect_serves heffect
    obtain ⟨g, hg, hgname, hmention⟩ := hlinks _ _ _ _ _ hcall.1 hprimitive
    have hreached : g.name ∈ reached := hcall.2 (mem_mentions_of_called (.inl hgname))
    exact hfunction f hf (hname ▸ hclosed g hg hreached hmention)

/-! ### Functions that are called -/

/-- The top-level function a step calls: by a call's name, by the operator a built-in works for,
from the host, or to handle a connection of `@serve`. -/
def calledFunction (setup : Setup) (action : Action) (state : State) :
    Option FunctionDeclaration :=
  match action with
  | .fiber index (.function function _) =>
    match state.fibers[index]? with
    | some ⟨.operands (.call (.identifier _ _) _ _ _) false [] _, _, _⟩
    | some ⟨.operate _ _, _, _⟩ => setup.functions[function]?.map (·.1)
    | _ => none
  | .enter function _ => setup.functions[function]?.map (·.1)
  | .handle handler function _ =>
    match state.store.handlers[handler]? with
    | some (_, true) => setup.functions[function]?.map (·.1)
    | _ => none
  | _ => none

theorem name_of_dispatch_function {setup : Setup} {store : Store} {context : Context}
    {frames : List Frame} {function : Expression} {name : String} {arguments : List Expression}
    {memberCall : Bool} {values passed : List Value} {index : Nat} {result : Store × Fiber}
    (h : dispatch setup (.function index passed) store context frames function name arguments
      memberCall values = some result) :
    ∃ f code, setup.functions[index]? = some (f, code) ∧
      (f.name = name ∨ qnTextImpl name = some f.name) := by
  simp only [dispatch] at h
  split at h
  · cases h
  · split at h
    case h_2 => cases h
    case h_1 f code hf =>
      refine ⟨f, code, hf, ?_⟩
      cases memberCall with
      | true => exact .inr (by simpa using (Option.ite_none_right_eq_some.mp h).1)
      | false => exact .inl (by simpa using (Option.ite_none_right_eq_some.mp h).1)

theorem name_of_operateStep_function {setup : Setup} {store : Store} {context : Context}
    {frames : List Frame} {operation : Operation} {values passed : List Value} {index : Nat}
    {result : Store × Fiber}
    (h : operateStep setup (.function index passed) store context frames operation values =
      some result) :
    ∃ f code, setup.functions[index]? = some (f, code) ∧ f.name ∈ operation.names := by
  simp only [operateStep] at h
  split at h
  case h_2 => cases h
  case h_1 f code hf =>
    rw [Option.ite_none_right_eq_some, Bool.and_eq_true, List.contains_iff_mem] at h
    exact ⟨f, code, hf, h.1.1⟩

/-- One step: the function it calls is reached, when the code of the state is. -/
theorem calledFunction_reached {setup : Setup} {fuel : Nat} {reached : List String}
    (hlinks : setup.program.LinksServe) (hloop : reachLoop setup.program fuel = some reached)
    {state state' : State} {action : Action} {g : FunctionDeclaration}
    (hstate : state.Holds setup (MentionsReached setup.program reached))
    (hstep : step setup action state = some state')
    (hcalled : calledFunction setup action state = some g) : g.name ∈ reached := by
  have hclosed := closed_mentionsReached hlinks hloop
  cases action
  case fiber index choice =>
    cases choice <;> simp only [calledFunction, reduceCtorEq] at hcalled
    case function function passed =>
      simp only [step] at hstep
      split at hstep
      case h_2 => cases hstep
      case h_1 fiber hfiber =>
        have hholds := hstate.fibers fiber (List.mem_of_getElem? hfiber)
        simp only [hfiber] at hcalled
        split at hstep
        case h_2 => cases hstep
        case h_1 store' fiber' hmove =>
          split at hcalled
          case h_1 name nameSpan arguments memberCall span values context frames heq =>
            obtain rfl := Option.some.inj heq
            have hdispatch : dispatch setup (.function function passed) state.store context frames
                (.identifier name nameSpan) name arguments memberCall values =
                some (store', fiber') := hmove
            obtain ⟨f, code, hf, hname⟩ := name_of_dispatch_function hdispatch
            rw [hf] at hcalled
            obtain rfl := Option.some.inj hcalled
            exact hholds.1.1.2 (mem_mentions_of_called hname)
          case h_2 operation values context frames heq =>
            obtain rfl := Option.some.inj heq
            obtain ⟨f, code, hf, hname⟩ := name_of_operateStep_function hmove
            rw [hf] at hcalled
            obtain rfl := Option.some.inj hcalled
            rcases hholds.1 with ⟨e, he, rfl⟩ | ⟨_, _, _, _, _, _, rfl⟩
            · exact he.2 (operatorNames_subset_mentions e hname)
            · cases hname
          case h_3 => cases hcalled
  case enter function arguments =>
    simp only [calledFunction] at hcalled
    simp only [step] at hstep
    split at hstep
    case h_2 => cases hstep
    case h_1 f code hf =>
      rw [hf] at hcalled
      obtain rfl := Option.some.inj hcalled
      rw [Option.ite_none_right_eq_some, Bool.and_eq_true] at hstep
      have hmem := (setup.mem_functions (List.mem_of_getElem? hf)).1
      exact (reachLoop_closed hloop).1 (mem_rootNames_of_isEntryPoint hmem hstep.1.2)
  case handle handler function arguments =>
    simp only [calledFunction] at hcalled
    split at hcalled
    case h_2 => cases hcalled
    case h_1 closure hhandler =>
      simp only [step, hhandler] at hstep
      split at hstep
      case h_2 => cases hstep
      case h_1 f code hf =>
        rw [hf] at hcalled
        obtain rfl := Option.some.inj hcalled
        rw [Option.ite_none_right_eq_some] at hstep
        obtain ⟨_, _, _, _, hcall, heffect⟩ :=
          hstate.store.handlers _ (List.mem_of_getElem? hhandler) rfl
        obtain ⟨name, nameSpan, rfl, hprimitive⟩ := primitive_of_callEffect_serves heffect
        obtain ⟨declared, hdeclared, hname, hmention⟩ := hlinks _ _ _ _ _ hcall.1 hprimitive
        have hreached := hcall.2 (mem_mentions_of_called (.inl hname))
        show f.name ∈ reached
        rw [hstep.1]
        exact (reachLoop_closed hloop).2 declared hdeclared hreached hmention
  all_goals cases hcalled

/-- **Pruning never drops a function the program needs.**  The worklist loop ends on every
program, and when `reachableFunctions` answers, every function that a step of a run calls has its
name in the answer. -/
theorem reachableFunctions_sound :
    (∀ program, ∃ reached, ∀ fuel, reachBound program ≤ fuel →
      reachLoop program fuel = some reached) ∧
    ∀ (setup : Setup) (reached : List String), setup.program.LinksServe →
      reachableFunctions setup.program = some reached →
      ∀ (state state' : State) (action : Action) (g : FunctionDeclaration), setup.Reaches state →
        step setup action state = some state' → calledFunction setup action state = some g →
        g.name ∈ reached := by
  refine ⟨reachLoop_ends, ?_⟩
  intro setup reached hlinks hreached state state' action g hreaches hstep hcalled
  rw [reachableFunctions, Option.ite_none_right_eq_some] at hreached
  have hstate := holds_of_reaches (closed_mentionsReached hlinks hreached.2) hreaches
  exact calledFunction_reached hlinks hreached.2 hstate hstep hcalled

/-! ### A program that calls a function of its own -/

namespace Calling

def at_ (start stop : Nat) : Span := ⟨start, stop, 0⟩

/-- `one = () -> Num => 1` -/
def one : FunctionDeclaration :=
  ⟨"one", [], some .num, none, .number 1 (at_ 19 20), false, false, at_ 0 20⟩

/-- `^ = () -> Num => one()` -/
def entry : FunctionDeclaration :=
  ⟨"^", [], some .num, none,
    .call (.identifier "one" (at_ 38 41)) [] false (at_ 38 43), false, false, at_ 21 43⟩

def setup : Setup where
  program := ⟨[.functionDeclaration one, .functionDeclaration entry]⟩
  info := ⟨[], []⟩
  order := Expression.operands
  order_operands _ _ h := h
  evaluatesBoth _ := false
  loops _ := false
  backEdges _ := false

/-- Up to the call of `one`: the items, the host's call of `^`, and the evaluation of its body. -/
def actions : List Action :=
  [.fiber 0 .none, .fiber 0 .none, .fiber 0 .none, .enter 1 [], .fiber 1 .none, .fiber 1 .none]

/-- About to call `one`. -/
def calling : State := (perform setup actions setup.start).get rfl

theorem reaches_calling : setup.Reaches calling :=
  reaches_of_perform .start (Option.some_get rfl).symm

theorem linksServe : setup.program.LinksServe := by
  rintro name nameSpan arguments memberCall span ⟨item, hitem, root, hroot, hwithin⟩ hprimitive
  have hmentions : mentions root ⊆ ["one"] := by
    rcases List.mem_cons.mp hitem with rfl | hitem
    · rw [List.mem_singleton.mp hroot]
      decide
    · obtain rfl := List.mem_singleton.mp hitem
      rw [List.mem_singleton.mp hroot]
      decide
  have hcall := hwithin.hereditary (P := fun e => mentions e ⊆ ["one"])
    (fun e he c hc n hn => he (mentions_subset_of_mem_children hc hn)) hmentions
  have hname := hcall (mem_mentions_of_called (.inl rfl))
  rw [List.mem_singleton.mp hname] at hprimitive
  exact absurd hprimitive (by decide)

end Calling

/-- `one` is called, and kept. -/
theorem reachableFunctions_keeps_one :
    reachableFunctions Calling.setup.program = some ["one", "^"] ∧
      calledFunction Calling.setup (.fiber 1 (.function 0 [])) Calling.calling =
        some Calling.one ∧
      Calling.one.name ∈ ["one", "^"] :=
  ⟨rfl, rfl, reachableFunctions_sound.2 Calling.setup ["one", "^"] Calling.linksServe rfl
    Calling.calling ((step Calling.setup (.fiber 1 (.function 0 [])) Calling.calling).get rfl)
    (.fiber 1 (.function 0 [])) Calling.one Calling.reaches_calling (Option.some_get rfl).symm rfl⟩

end Quilon
