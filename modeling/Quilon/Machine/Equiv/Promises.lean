import Quilon.Machine.Provenance
import Quilon.Deferral.Equiv.Forces

/-!
# Promises and the slots that consume values

The code forces a value exactly where the deferral analysis put a force site.  The analysis follows
names by the binding statements it sees around a use, so it is right about a name as long as what
the cell holds was stored by such a statement.

* `Accepts` types the frames of a fiber: whether the value they wait for may be a promise.
* `Fiber.Sound`, `Store.Sound` — what holds of every fiber and of the store they share.

Main result:

* `strict_slot_ready` — in a run whose reads find promises only where the analysis expects them, no
  strict slot is ever handed a promise.
-/

namespace Quilon

/-! ### The globals an item sees -/

def Item.globalName : Item → Option String
  | .variableDeclaration v => some v.name
  | _ => none

def globalNames (items : List Item) : List String :=
  items.filterMap Item.globalName

/-- Every `:=` in `e` whose name is that of a global above is on the checker's list of top-level
reassignments. -/
def RecordsTopLevel (topLevelReassignments : List Span) (names : List String) (e : Expression) :
    Prop :=
  ∀ before v after span, Within e (.block (before ++ .item (.variableDeclaration v) :: after) span) →
    v.isMutable = true → v.name ∈ names → v.span ∈ topLevelReassignments

/-- `check_variable_declaration` records a reassignment whose name the root scope has; the items
above are what the root scope has when an item is checked. -/
def CheckerAnswers.RecordTopLevel (answers : CheckerAnswers) (program : Program) : Prop :=
  ∀ before item after, program.items = before ++ item :: after → ∀ root ∈ item.bodies,
    RecordsTopLevel answers.topLevelReassignments (globalNames before) root

/-- The low addresses of an environment are those of the globals `names`. -/
structure EnvFits (setup : Setup) (names : List String) (env : Env) : Prop where
  above : names <+: globalNames setup.program.items
  entries : ∀ entry ∈ env, entry.2 < setup.globalCount → names[entry.2]? = some entry.1

/-- What the run recorded of the bindings in sight is within what the analysis assumed. -/
def Tracks (visible : List (String × Bool)) (scope : Scope) : Prop :=
  List.Forall₂ (fun v s => v.1 = s.1 ∧ (v.2 = true → s.2 = true)) visible scope

theorem Tracks.push {visible : List (String × Bool)} {scope : Scope} {name : String} {b b' : Bool}
    (h : Tracks visible scope) (hb : b = true → b' = true) :
    Tracks ((name, b) :: visible) ((name, b') :: scope) :=
  List.Forall₂.cons ⟨rfl, hb⟩ h

theorem Tracks.lookup_true {visible : List (String × Bool)} {scope : Scope} {name : String}
    (h : Tracks visible scope) (hname : visible.lookup name = some true) :
    scope.lookup name = some true := by
  induction h with
  | nil => cases hname
  | @cons v s visible scope hhead htail ih =>
    obtain ⟨name', b⟩ := v
    obtain ⟨name'', b'⟩ := s
    obtain ⟨rfl, hb⟩ : name' = name'' ∧ (b = true → b' = true) := hhead
    rw [List.lookup_cons] at hname ⊢
    split at hname
    · rw [Option.some.inj hname] at hb
      rw [hb rfl]
    · exact ih hname

theorem Tracks.lookup_none {visible : List (String × Bool)} {scope : Scope} {name : String}
    (h : Tracks visible scope) (hname : visible.lookup name = none) : scope.lookup name = none := by
  induction h with
  | nil => rfl
  | @cons v s visible scope hhead htail ih =>
    obtain ⟨name', b⟩ := v
    obtain ⟨name'', b'⟩ := s
    obtain ⟨rfl, hb⟩ : name' = name'' ∧ (b = true → b' = true) := hhead
    rw [List.lookup_cons] at hname ⊢
    split at hname
    · cases hname
    · exact ih hname

/-! ### Code that was analysed -/

section Judgements

variable (setup : Setup) (round : Round) (final : Taint)

/-- The code was visited in `scope`, under the globals `names`. -/
structure Analysed (names : List String) (scope : Scope) (e : Expression) : Prop where
  visited : Visited round final scope e
  records : RecordsTopLevel round.topLevelReassignments names e

/-- The code of a strict slot: a value delivered deferred is forced there. -/
structure Slot (names : List String) (scope : Scope) (e : Expression) : Prop extends
    Analysed round final names scope e where
  forced : delivers round scope e = true → e.span ∈ final.forceSites

/-- The rest of a block. -/
structure AnalysedStatements (names : List String) (scope : Scope) (statements : List Statement) :
    Prop where
  recorded : ∀ part ∈ statementParts round scope statements, part.Recorded round final
  records : ∃ before span, RecordsTopLevel round.topLevelReassignments names
    (.block (before ++ statements) span)

structure Closure.Sound (code : Closure) : Prop where
  loop : code.loop = false
  analysed : ∃ names scope, EnvFits setup names code.context.env ∧
    Tracks code.context.visible scope ∧ Slot round final names scope code.body

/-- Whether a construct with its operands evaluated may yield a promise. -/
def Expression.yieldsPromise : Expression → Bool
  | .call function arguments memberCall _ => producesDeferred function arguments memberCall
  | _ => false

def Operation.yieldsPromise (operation : Operation) : Bool :=
  match operation.effect with
  | .deferred => true
  | _ => false

/-- The items that are still to be initialised. -/
def ItemsLeft (names : List String) (rest : List Item) : Prop :=
  ∃ before, setup.program.items = before ++ rest ∧ names = globalNames before

/-- The frames go on soundly with a value, which is a promise only if `promise`.  `names` are the
globals the code on top sees and `visible` what it has seen bound. -/
inductive Accepts : List String → List (String × Bool) → Bool → List Frame → Prop where
  | nil {names : List String} {visible : List (String × Bool)} {promise : Bool} :
      Accepts names visible promise []
  | force {names : List String} {visible : List (String × Bool)} {promise : Bool}
      {frames : List Frame} : Accepts names visible false frames →
      Accepts names visible promise (.force :: frames)
  | operands {names : List String} {visible : List (String × Bool)} {scope : Scope}
      {whole : Expression} {tail : Bool} {rest : List Expression} {values : List Value}
      {frames : List Frame} : tail = false → Tracks visible scope →
      (∀ e ∈ rest, Slot round final names scope e) →
      Accepts names visible whole.yieldsPromise frames →
      Accepts names visible false (.operands whole tail rest values :: frames)
  | condition {names : List String} {visible : List (String × Bool)} {scope : Scope} {tail : Bool}
      {then_ else_ : Expression} {promise : Bool} {frames : List Frame} : tail = false →
      Tracks visible scope → Analysed round final names scope then_ →
      Analysed round final names scope else_ →
      (delivers round scope then_ = true → promise = true) →
      (delivers round scope else_ = true → promise = true) →
      Accepts names visible promise frames →
      Accepts names visible false (.condition tail then_ else_ :: frames)
  | leaveBranch {names : List String} {visible : List (String × Bool)} {scope : Scope}
      {skipped : Expression} {promise : Bool} {frames : List Frame} :
      Analysed round final names scope skipped → Accepts names visible promise frames →
      Accepts names visible promise (.leaveBranch skipped :: frames)
  | shortCircuit {names : List String} {visible : List (String × Bool)} {scope : Scope}
      {operator : BinaryOperator} {right : Expression} {frames : List Frame} :
      Tracks visible scope → Slot round final names scope right →
      Accepts names visible false frames →
      Accepts names visible false (.shortCircuit operator right :: frames)
  | rightOperand {names : List String} {visible : List (String × Bool)} {frames : List Frame} :
      Accepts names visible false frames → Accepts names visible false (.rightOperand :: frames)
  | scrutinee {names : List String} {visible : List (String × Bool)} {scope : Scope} {tail : Bool}
      {arms : List MatchArm} {promise : Bool} {frames : List Frame} : tail = false →
      Tracks visible scope → (∀ arm ∈ arms, Analysed round final names scope arm.body) →
      (∀ arm ∈ arms, delivers round scope arm.body = true → promise = true) →
      Accepts names visible promise frames →
      Accepts names visible false (.scrutinee tail arms :: frames)
  | leaveArm {names : List String} {visible : List (String × Bool)} {context : Context}
      {promise : Bool} {frames : List Frame} : EnvFits setup names context.env →
      Accepts names context.visible promise frames →
      Accepts names visible promise (.leaveArm context :: frames)
  | lastStatement {names : List String} {visible : List (String × Bool)} {tail promise : Bool}
      {frames : List Frame} : Accepts names visible promise frames →
      Accepts names visible promise (.statement tail [] :: frames)
  | statement {names : List String} {visible saved : List (String × Bool)} {scope : Scope}
      {tail blockTail promise blockPromise : Bool} {rest : List Statement} {span : Span}
      {launches : Option (List Nat)} {frames : List Frame} : rest ≠ [] → tail = false →
      Tracks visible scope → AnalysedStatements round final names scope rest →
      (deliversStatements round scope rest = true → blockPromise = true) →
      Accepts names saved blockPromise frames →
      Accepts names visible promise
        (.statement tail rest :: .block blockTail span launches saved :: frames)
  | bind {names : List String} {visible saved : List (String × Bool)} {scope : Scope}
      {declaration : VariableDeclaration} {tail blockTail promise blockPromise : Bool}
      {rest : List Statement} {span : Span} {launches : Option (List Nat)} {frames : List Frame} :
      tail = false → Tracks visible scope →
      (promise = true → delivers round scope declaration.value = true) →
      AnalysedStatements round final names scope
        (.item (.variableDeclaration declaration) :: rest) →
      (deliversStatements round scope (.item (.variableDeclaration declaration) :: rest) = true →
        blockPromise = true) →
      Accepts names saved blockPromise frames →
      Accepts names visible promise
        (.bind declaration tail rest :: .block blockTail span launches saved :: frames)
  | block {names : List String} {visible saved : List (String × Bool)} {tail promise : Bool}
      {span : Span} {launches : Option (List Nat)} {frames : List Frame} :
      Accepts names saved promise frames →
      Accepts names visible promise (.block tail span launches saved :: frames)
  | activation {names names' : List String} {visible : List (String × Bool)} {code : Closure}
      {caller : Context} {launches : Option (List Nat)} {launched : List Nat}
      {frames : List Frame} : EnvFits setup names' caller.env →
      Accepts names' caller.visible false frames →
      Accepts names visible false (.activation code caller launches launched :: frames)
  | builtin {names : List String} {visible : List (String × Bool)} {operation : Operation}
      {values : List Value} {promise : Bool} {frames : List Frame} :
      Accepts names visible operation.yieldsPromise frames →
      Accepts names visible promise (.builtin operation values :: frames)
  | guard {names names' : List String} {visible : List (String × Bool)} {context : Context}
      {promise : Bool} {frames : List Frame} : EnvFits setup names' context.env →
      Accepts names' context.visible false frames →
      Accepts names visible promise (.guard context :: frames)
  | initialise {names : List String} {declaration : VariableDeclaration} {rest : List Item}
      {promise : Bool} : ItemsLeft setup names (.variableDeclaration declaration :: rest) →
      (promise = true → declaration.name ∈ round.deferredGlobals) →
      Accepts names [] promise [.initialise declaration rest]

/-- The same for what a fiber does next, on top of its frames. -/
inductive Control.Sound : List String → List (String × Bool) → Control → List Frame → Prop where
  | eval {names : List String} {visible : List (String × Bool)} {scope : Scope} {e : Expression}
      {promise : Bool} {frames : List Frame} : Tracks visible scope →
      Analysed round final names scope e →
      (delivers round scope e = true → e.span ∉ final.forceSites → promise = true) →
      Accepts setup round final names visible promise frames →
      Sound names visible (.eval false e) frames
  | operands {names : List String} {visible : List (String × Bool)} {scope : Scope}
      {whole : Expression} {rest : List Expression} {values : List Value} {frames : List Frame} :
      Tracks visible scope → (∀ e ∈ rest, Slot round final names scope e) →
      Accepts setup round final names visible whole.yieldsPromise frames →
      Sound names visible (.operands whole false rest values) frames
  | run {names : List String} {visible saved : List (String × Bool)} {scope : Scope}
      {statements : List Statement} {blockTail promise : Bool} {span : Span}
      {launches : Option (List Nat)} {frames : List Frame} : Tracks visible scope →
      AnalysedStatements round final names scope statements →
      (deliversStatements round scope statements = true → promise = true) →
      Accepts setup round final names saved promise frames →
      Sound names visible (.run false statements) (.block blockTail span launches saved :: frames)
  | apply {names : List String} {visible : List (String × Bool)} {code : Closure}
      {arguments : List Value} {frames : List Frame} : code.Sound setup round final →
      Accepts setup round final names visible false frames →
      Sound names visible (.apply code arguments) frames
  | operate {names : List String} {visible : List (String × Bool)} {operation : Operation}
      {values : List Value} {frames : List Frame} :
      Accepts setup round final names visible operation.yieldsPromise frames →
      Sound names visible (.operate operation values) frames
  | deliver {names : List String} {visible : List (String × Bool)} {value : Value} {promise : Bool}
      {frames : List Frame} : (value.isPromise = true → promise = true) →
      Accepts setup round final names visible promise frames →
      Sound names visible (.deliver value) frames
  | items {names : List String} {rest : List Item} : ItemsLeft setup names rest →
      Sound names [] (.items rest) []
  | done {names : List String} {visible : List (String × Bool)} : Sound names visible .done []

def Fiber.Sound (fiber : Fiber) : Prop :=
  ∃ names, EnvFits setup names fiber.context.env ∧
    Control.Sound setup round final names fiber.context.visible fiber.control fiber.frames

structure Store.Sound (store : Store) : Prop where
  globals : setup.globalCount ≤ store.cells.length
  deferred : ∀ address < setup.globalCount, ∀ launch,
    store.cells[address]? = some (some (.promise launch)) →
    ∃ name ∈ round.deferredGlobals, (globalNames setup.program.items)[address]? = some name
  closures : ∀ code ∈ store.closures, code.Sound setup round final
  methods : ∀ method ∈ store.methods, method.2.Sound setup round final

end Judgements

section Sound

variable {setup : Setup} {round : Round} {final : Taint} {names : List String}
  {visible : List (String × Bool)} {scope : Scope}

/-- What the proofs below assume of the analysis: it is finished, the code forces its sites, no
function is lowered to a loop, and the checker's list is complete. -/
structure Prepared (setup : Setup) (round : Round) (final : Taint) : Prop where
  finished : Finished round final setup.program
  sites : setup.info.forceSites = final.forceSites
  loops : ∀ span, setup.loops span = false
  records : ∀ before item after, setup.program.items = before ++ item :: after →
    ∀ root ∈ item.bodies, RecordsTopLevel round.topLevelReassignments (globalNames before) root

/-! ### Parts of analysed code -/

theorem RecordsTopLevel.child {spans : List Span} {e c : Expression}
    (h : RecordsTopLevel spans names e) (hc : c ∈ e.children) : RecordsTopLevel spans names c :=
  fun before v after span hwithin => h before v after span ((Within.refl.child hc).trans hwithin)

theorem Analysed.part {e : Expression} (h : Analysed round final names scope e) (hfinal : final.newlyDeferredGlobals = [])
    {part : Part} (hpart : part ∈ parts round scope e) :
    Analysed round final names part.scope part.expression :=
  ⟨(h.visited.part hfinal hpart).visited, h.records.child (mem_children_of_mem_parts hpart)⟩

theorem Analysed.branch {e : Expression} (h : Analysed round final names scope e)
    (hfinal : final.newlyDeferredGlobals = []) {c : Expression}
    (hpart : ⟨scope, c, .value⟩ ∈ parts round scope e) : Analysed round final names scope c :=
  h.part hfinal hpart

theorem Analysed.slot {e : Expression} (h : Analysed round final names scope e)
    (hfinal : final.newlyDeferredGlobals = []) {c : Expression}
    (hpart : ⟨scope, c, .operand⟩ ∈ parts round scope e) : Slot round final names scope c :=
  ⟨h.part hfinal hpart, (h.visited.part hfinal hpart).forced (.inl rfl)⟩

/-- The parts of a strict construct are strict slots. -/
theorem Analysed.slot_of_strict {e : Expression} (h : Analysed round final names scope e)
    (hfinal : final.newlyDeferredGlobals = []) (he : e.isStrict = true) {c : Expression}
    (hc : c ∈ e.children) : Slot round final names scope c := by
  have hparts : parts round scope e = e.children.map fun c => ⟨scope, c, .operand⟩ := by
    cases e <;> first | rfl | cases he
  apply h.slot hfinal
  rw [hparts]
  exact List.mem_map.mpr ⟨c, hc, rfl⟩

theorem Analysed.slot_of_operand {e : Expression} (h : Analysed round final names scope e)
    (hfinal : final.newlyDeferredGlobals = []) (he : e.isStrict = true) {c : Expression}
    (hc : c ∈ e.operands) : Slot round final names scope c := by
  unfold Expression.operands at hc
  split at hc
  case h_1 name nameSpan arguments memberCall span =>
    exact h.slot_of_strict hfinal he (List.mem_cons_of_mem _ hc)
  case h_2 object field fieldSpan value span =>
    rcases List.mem_cons.mp hc with rfl | hc
    · have htarget := h.slot_of_strict hfinal he (c := .fieldAccess c field fieldSpan)
        (by simp [Expression.children])
      exact htarget.toAnalysed.slot_of_strict hfinal rfl (by simp [Expression.children])
    · exact h.slot_of_strict hfinal he (by simp_all [Expression.children])
  case h_3 object i indexSpan value span =>
    have htarget := h.slot_of_strict hfinal he (c := .index object i indexSpan)
      (by simp [Expression.children])
    rcases List.mem_cons.mp hc with rfl | hc
    · exact htarget.toAnalysed.slot_of_strict hfinal rfl (by simp [Expression.children])
    · rcases List.mem_cons.mp hc with rfl | hc
      · exact htarget.toAnalysed.slot_of_strict hfinal rfl (by simp [Expression.children])
      · exact h.slot_of_strict hfinal he (by simp_all [Expression.children])
  case h_8 => exact h.slot_of_strict hfinal he hc
  all_goals cases hc

theorem delivers_of_strict {e : Expression} (he : e.isStrict = true) :
    delivers round scope e = e.yieldsPromise := by
  cases e <;> cases he <;> simp only [delivers, Expression.yieldsPromise]

/-! ### Statements of analysed blocks -/

theorem Analysed.statements {statements : List Statement} {span : Span}
    (h : Analysed round final names scope (.block statements span))
    (hfinal : final.newlyDeferredGlobals = []) :
    AnalysedStatements round final names scope statements :=
  ⟨fun _ hpart => h.visited.part hfinal hpart, [], span, h.records⟩

theorem AnalysedStatements.tail {s : Statement} {rest : List Statement} {scope' : Scope}
    (h : AnalysedStatements round final names scope (s :: rest))
    (hparts : statementParts round scope' rest ⊆ statementParts round scope (s :: rest)) :
    AnalysedStatements round final names scope' rest := by
  obtain ⟨before, span, hrecords⟩ := h.records
  exact ⟨fun part hpart => h.recorded part (hparts hpart), before ++ [s], span, by simpa using hrecords⟩

/-- A part of a statement is analysed under the same globals. -/
theorem AnalysedStatements.analysed {s : Statement} {rest : List Statement} {part : Part}
    (h : AnalysedStatements round final names scope (s :: rest))
    (hpart : part ∈ statementParts round scope (s :: rest)) (hc : part.expression ∈ s.children) :
    Analysed round final names part.scope part.expression := by
  obtain ⟨before, span, hrecords⟩ := h.records
  refine ⟨(h.recorded part hpart).visited, hrecords.child ?_⟩
  simp only [Expression.children, List.mem_flatMap]
  exact ⟨s, by simp, hc⟩

theorem AnalysedStatements.body {s : Statement} {rest : List Statement} {c : Expression}
    {name : String} {track : Bool} (h : AnalysedStatements round final names scope (s :: rest))
    (hpart : ⟨[], c, .body name track⟩ ∈ statementParts round scope (s :: rest))
    (hc : c ∈ s.children) : Slot round final names [] c :=
  ⟨h.analysed hpart hc, (h.recorded _ hpart).forced (.inr ⟨name, track, rfl⟩)⟩

theorem AnalysedStatements.methods {t : TypeDeclaration} {rest : List Statement}
    (h : AnalysedStatements round final names scope (.item (.typeDeclaration t) :: rest)) :
    ∀ m ∈ t.typeDefinition.methods, Slot round final names [] m.body := by
  intro m hm
  have hpart : ⟨[], m.body, .body m.name true⟩ ∈
      statementParts round scope (.item (.typeDeclaration t) :: rest) :=
    List.mem_append_left _ (List.mem_map.mpr ⟨m, hm, rfl⟩)
  exact h.body hpart (List.mem_map_of_mem hm)

/-- What follows a statement is analysed in some scope. -/
theorem AnalysedStatements.suffix {before rest : List Statement}
    (h : AnalysedStatements round final names scope (before ++ rest)) :
    ∃ scope', AnalysedStatements round final names scope' rest := by
  induction before generalizing scope with
  | nil => exact ⟨scope, h⟩
  | cons s before ih =>
    rw [List.cons_append] at h
    cases s with
    | expression e => exact ih (h.tail (List.subset_cons_self _ _))
    | item item =>
      cases item with
      | variableDeclaration v => exact ih (h.tail (List.subset_cons_self _ _))
      | functionDeclaration f => exact ih (h.tail (List.subset_cons_self _ _))
      | typeDeclaration t => exact ih (h.tail (List.subset_append_right _ _))
      | trapDeclaration trap => exact ih (h.tail (List.Subset.refl _))

/-! ### Bindings -/

theorem EnvFits.push {env : Env} {store : Store} (h : EnvFits setup names env)
    (hglobals : setup.globalCount ≤ store.cells.length) (name : String) :
    EnvFits setup names ((name, store.cells.length) :: env) := by
  refine ⟨h.above, List.forall_mem_cons.mpr ⟨fun hlt => ?_, h.entries⟩⟩
  omega

/-- One more cell. -/
theorem Store.Sound.grow {store store' : Store} {cell : Option Value}
    (h : store.Sound setup round final) (hcells : store'.cells = store.cells ++ [cell])
    (hclosures : store'.closures = store.closures) (hmethods : store'.methods = store.methods) :
    store'.Sound setup round final := by
  have hglobals := h.globals
  refine ⟨?_, fun address haddress launch hcell => ?_, hclosures ▸ h.closures,
    hmethods ▸ h.methods⟩
  · rw [hcells, List.length_append]
    omega
  · rw [hcells, List.getElem?_append_left (by omega)] at hcell
    exact h.deferred address haddress launch hcell

theorem bindAll_sound {parameters : List String} {values : List Value} {store store' : Store}
    {env env' : Env} (h : bindAll store env parameters values = (store', env'))
    (hs : store.Sound setup round final) (henv : EnvFits setup names env) :
    store'.Sound setup round final ∧ EnvFits setup names env' := by
  induction parameters generalizing store env values with
  | nil =>
    obtain ⟨rfl, rfl⟩ := Prod.mk.inj h
    exact ⟨hs, henv⟩
  | cons name parameters ih => exact ih h (hs.grow rfl rfl rfl) (henv.push hs.globals name)

theorem Store.Sound.setCell {store : Store} {address : Nat} {value : Value}
    (h : store.Sound setup round final)
    (hvalue : value.isPromise = true → address < setup.globalCount →
      ∃ name ∈ round.deferredGlobals, (globalNames setup.program.items)[address]? = some name) :
    (store.setCell address value).Sound setup round final := by
  refine ⟨?_, fun other hother launch hcell => ?_, h.closures, h.methods⟩
  · show setup.globalCount ≤ (store.cells.set address (some value)).length
    rw [List.length_set]
    exact h.globals
  · have hset : (store.cells.set address (some value))[other]? = some (some (.promise launch)) :=
      hcell
    rw [List.getElem?_set] at hset
    split at hset
    · subst address
      split at hset
      · obtain rfl := Option.some.inj (Option.some.inj hset)
        exact hvalue rfl hother
      · cases hset
    · exact h.deferred other hother launch hset

theorem EnvFits.lookup {env : Env} {name : String} {address : Nat} (h : EnvFits setup names env)
    (hlookup : env.lookup name = some address) (haddress : address < setup.globalCount) :
    names[address]? = some name := by
  obtain ⟨before, after, heq, -⟩ := List.lookup_eq_some_iff.mp hlookup
  exact h.entries (name, address) (by rw [heq]; simp) haddress

theorem EnvFits.globalName {env : Env} {name : String} {address : Nat}
    (h : EnvFits setup names env) (hname : names[address]? = some name) :
    (globalNames setup.program.items)[address]? = some name := by
  obtain ⟨rest, heq⟩ := h.above
  obtain ⟨hlt, -⟩ := List.getElem?_eq_some_iff.mp hname
  rw [← heq, List.getElem?_append_left hlt]
  exact hname

theorem bindStatement_sound {store store' : Store} {context context' : Context}
    {declaration : VariableDeclaration} {value : Value}
    (h : bindStatement store context declaration value = (store', context'))
    (hs : store.Sound setup round final) (henv : EnvFits setup names context.env)
    (hvalue : value.isPromise = true → declaration.isMutable = true → declaration.name ∈ names →
      declaration.name ∈ round.deferredGlobals) :
    store'.Sound setup round final ∧ EnvFits setup names context'.env ∧
      context'.visible = (declaration.name, value.isPromise) :: context.visible := by
  unfold bindStatement at h
  split at h
  case h_1 address hlookup =>
    obtain ⟨rfl, rfl⟩ := Prod.mk.inj h
    rw [Option.ite_none_right_eq_some] at hlookup
    refine ⟨hs.setCell fun hpromise haddress => ?_, henv, rfl⟩
    have hname := henv.lookup hlookup.2 haddress
    exact ⟨_, hvalue hpromise hlookup.1 (List.mem_of_getElem? hname), henv.globalName hname⟩
  case h_2 =>
    obtain ⟨rfl, rfl⟩ := Prod.mk.inj h
    exact ⟨hs.grow rfl rfl rfl, henv.push hs.globals _, rfl⟩

theorem function_sound {f : FunctionDeclaration} {env : Env} (hprepared : Prepared setup round final)
    (henv : EnvFits setup names env) (hbody : Slot round final names [] f.body) :
    (f.code setup.loops env).Sound setup round final :=
  ⟨hprepared.loops f.span, names, [], henv, .nil, hbody⟩

theorem method_sound {m : MethodDeclaration} {env : Env} (henv : EnvFits setup names env)
    (hbody : Slot round final names [] m.body) : (m.code env).Sound setup round final :=
  ⟨rfl, names, [], henv, .nil, hbody⟩

theorem declareFunction_sound {store store' : Store} {context context' : Context}
    {f : FunctionDeclaration} (h : declareFunction setup store context f = (store', context'))
    (hprepared : Prepared setup round final) (hs : store.Sound setup round final)
    (henv : EnvFits setup names context.env) (hbody : Slot round final names [] f.body) :
    store'.Sound setup round final ∧ EnvFits setup names context'.env ∧
      context'.visible = context.visible := by
  obtain ⟨rfl, rfl⟩ := Prod.mk.inj h
  have hown := henv.push hs.globals f.name
  have hgrown : ({ store with cells := store.cells ++
      [some (.closure store.closures.length)] } : Store).Sound setup round final :=
    hs.grow rfl rfl rfl
  refine ⟨⟨hgrown.globals, hgrown.deferred, ?_, hs.methods⟩, hown, rfl⟩
  intro code hcode
  rcases List.mem_append.mp hcode with hcode | hcode
  · exact hs.closures code hcode
  · rw [List.mem_singleton.mp hcode]
    apply function_sound hprepared _ hbody
    split
    · exact hown
    · exact henv

theorem declareType_sound {store : Store} {context : Context} {t : TypeDeclaration}
    (hs : store.Sound setup round final) (henv : EnvFits setup names context.env)
    (hmethods : ∀ m ∈ t.typeDefinition.methods, Slot round final names [] m.body) :
    (declareType setup store context t).Sound setup round final := by
  refine ⟨hs.globals, hs.deferred, hs.closures, ?_⟩
  intro method hmethod
  rcases List.mem_append.mp hmethod with hmethod | hmethod
  · exact hs.methods method hmethod
  · obtain ⟨m, hm, rfl⟩ := List.mem_map.mp hmethod
    refine method_sound ⟨henv.above, fun entry hentry => ?_⟩ (hmethods m hm)
    exact henv.entries entry (List.mem_filter.mp hentry).1

def Item.MethodSlots (round : Round) (final : Taint) (names : List String) : Item → Prop
  | .typeDeclaration t => ∀ m ∈ t.typeDefinition.methods, Slot round final names [] m.body
  | _ => True

theorem reserveItem_sound {store : Store} {context : Context} {item : Item}
    (hs : store.Sound setup round final) (henv : EnvFits setup names context.env)
    (hitem : item.MethodSlots round final names) :
    (reserveItem setup store context item).1.Sound setup round final ∧
      EnvFits setup names (reserveItem setup store context item).2.env ∧
      (reserveItem setup store context item).2.visible = context.visible := by
  cases item with
  | variableDeclaration v =>
    simp only [reserveItem]
    split
    · exact ⟨hs, henv, rfl⟩
    · exact ⟨hs.grow rfl rfl rfl, henv.push hs.globals _, rfl⟩
  | functionDeclaration f => exact ⟨hs.grow rfl rfl rfl, henv.push hs.globals _, rfl⟩
  | typeDeclaration t => exact ⟨declareType_sound hs henv hitem, henv, rfl⟩
  | trapDeclaration trap => exact ⟨hs, henv, rfl⟩

theorem foldl_reserveItem_sound (items : List Item) {store store' : Store}
    {context context' : Context}
    (h : items.foldl (fun sc item => reserveItem setup sc.1 sc.2 item) (store, context) =
      (store', context')) (hs : store.Sound setup round final)
    (henv : EnvFits setup names context.env)
    (hitems : ∀ item ∈ items, item.MethodSlots round final names) :
    store'.Sound setup round final ∧ EnvFits setup names context'.env ∧
      context'.visible = context.visible := by
  induction items generalizing store context with
  | nil =>
    obtain ⟨rfl, rfl⟩ := Prod.mk.inj h
    exact ⟨hs, henv, rfl⟩
  | cons item items ih =>
    obtain ⟨hitem, hitems⟩ := List.forall_mem_cons.mp hitems
    obtain ⟨hs', henv', hvisible⟩ := reserveItem_sound hs henv hitem
    obtain ⟨hs'', henv'', hvisible'⟩ := ih h hs' henv' hitems
    exact ⟨hs'', henv'', hvisible'.trans hvisible⟩

theorem reserve_sound {store store' : Store} {context context' : Context} {skipped : Expression}
    (h : reserve setup store context skipped = (store', context'))
    (hfinal : final.newlyDeferredGlobals = []) (hs : store.Sound setup round final)
    (henv : EnvFits setup names context.env)
    (hskipped : Analysed round final names scope skipped) :
    store'.Sound setup round final ∧ EnvFits setup names context'.env ∧
      context'.visible = context.visible := by
  apply foldl_reserveItem_sound _ h hs henv
  intro item hitem
  obtain ⟨before, after, span, hwithin⟩ := within_of_mem_introduces skipped hitem
  obtain ⟨inner, hvisited⟩ := hskipped.visited.within hfinal hwithin
  have hblock : Analysed round final names inner (.block (before ++ .item item :: after) span) :=
    ⟨hvisited, fun before' v after' span' h =>
      hskipped.records before' v after' span' (hwithin.trans h)⟩
  obtain ⟨scope', hrest⟩ := (hblock.statements hfinal).suffix
  cases item with
  | typeDeclaration t => exact hrest.methods
  | variableDeclaration | functionDeclaration | trapDeclaration => trivial

/-! ### Frames -/

/-- A stack that takes a promise takes any value. -/
theorem Accepts.weaken {promise : Bool} {frames : List Frame}
    (h : Accepts setup round final names visible promise frames) :
    Accepts setup round final names visible false frames := by
  induction h with
  | nil => exact .nil
  | force h => exact .force h
  | operands htail htracks hrest h => exact .operands htail htracks hrest h
  | condition htail htracks hthen helse hpthen hpelse h =>
    exact .condition htail htracks hthen helse hpthen hpelse h
  | leaveBranch hskipped _ ih => exact .leaveBranch hskipped ih
  | shortCircuit htracks hright h => exact .shortCircuit htracks hright h
  | rightOperand h => exact .rightOperand h
  | scrutinee htail htracks harms hpromise h => exact .scrutinee htail htracks harms hpromise h
  | leaveArm henv _ ih => exact .leaveArm henv ih
  | lastStatement _ ih => exact .lastStatement ih
  | statement hrest htail htracks hstatements hpromise h =>
    exact .statement hrest htail htracks hstatements hpromise h
  | bind htail htracks _ hstatements hpromise h =>
    exact .bind htail htracks (fun hf => by cases hf) hstatements hpromise h
  | block _ ih => exact .block ih
  | activation henv h => exact .activation henv h
  | builtin h => exact .builtin h
  | guard henv h => exact .guard henv h
  | initialise hitems _ => exact .initialise hitems (fun hf => by cases hf)

theorem Accepts.mono {promise promise' : Bool} {frames : List Frame}
    (h : Accepts setup round final names visible promise frames)
    (hpromise : promise' = true → promise = true) :
    Accepts setup round final names visible promise' frames := by
  cases promise' with
  | false => exact h.weaken
  | true => exact hpromise rfl ▸ h

/-- What a launch writes into the frames is no concern here. -/
theorem Accepts.register {promise : Bool} {frames : List Frame} (launch : Nat)
    (h : Accepts setup round final names visible promise frames) :
    Accepts setup round final names visible promise (registerLaunch launch frames) := by
  induction h with
  | nil => exact .nil
  | force _ ih => exact .force ih
  | operands htail htracks hrest _ ih => exact .operands htail htracks hrest ih
  | condition htail htracks hthen helse hpthen hpelse _ ih =>
    exact .condition htail htracks hthen helse hpthen hpelse ih
  | leaveBranch hskipped _ ih => exact .leaveBranch hskipped ih
  | shortCircuit htracks hright _ ih => exact .shortCircuit htracks hright ih
  | rightOperand _ ih => exact .rightOperand ih
  | scrutinee htail htracks harms hpromise _ ih => exact .scrutinee htail htracks harms hpromise ih
  | leaveArm henv _ ih => exact .leaveArm henv ih
  | lastStatement _ ih => exact .lastStatement ih
  | @statement _ _ _ _ _ _ _ _ _ _ launches _ hrest htail htracks hstatements hpromise h ih =>
    cases launches with
    | none => exact .statement hrest htail htracks hstatements hpromise ih
    | some launches => exact .statement hrest htail htracks hstatements hpromise h
  | @bind _ _ _ _ _ _ _ _ _ _ _ launches _ htail htracks hvalue hstatements hpromise h ih =>
    cases launches with
    | none => exact .bind htail htracks hvalue hstatements hpromise ih
    | some launches => exact .bind htail htracks hvalue hstatements hpromise h
  | @block _ _ _ _ _ _ launches _ h ih =>
    cases launches with
    | none => exact .block ih
    | some launches => exact .block h
  | @activation _ _ _ _ _ launches _ _ henv h ih =>
    cases launches with
    | none => exact .activation henv ih
    | some launches => exact .activation henv h
  | builtin _ ih => exact .builtin ih
  | guard henv h => exact .guard henv h
  | initialise hitems hpromise => exact .initialise hitems hpromise

theorem Accepts.record {promise : Bool} {frames : List Frame} (launch : Nat)
    (h : Accepts setup round final names visible promise frames) :
    Accepts setup round final names visible promise (recordLaunch launch frames) := by
  induction h with
  | nil => exact .nil
  | force _ ih => exact .force ih
  | operands htail htracks hrest _ ih => exact .operands htail htracks hrest ih
  | condition htail htracks hthen helse hpthen hpelse _ ih =>
    exact .condition htail htracks hthen helse hpthen hpelse ih
  | leaveBranch hskipped _ ih => exact .leaveBranch hskipped ih
  | shortCircuit htracks hright _ ih => exact .shortCircuit htracks hright ih
  | rightOperand _ ih => exact .rightOperand ih
  | scrutinee htail htracks harms hpromise _ ih => exact .scrutinee htail htracks harms hpromise ih
  | leaveArm henv _ ih => exact .leaveArm henv ih
  | lastStatement _ ih => exact .lastStatement ih
  | statement hrest htail htracks hstatements hpromise _ ih =>
    exact .statement hrest htail htracks hstatements hpromise ih
  | bind htail htracks hvalue hstatements hpromise _ ih =>
    exact .bind htail htracks hvalue hstatements hpromise ih
  | block _ ih => exact .block ih
  | activation henv h => exact .activation henv h
  | builtin _ ih => exact .builtin ih
  | guard henv h => exact .guard henv h
  | initialise hitems hpromise => exact .initialise hitems hpromise

/-- The frames below a guarded call are sound on their own. -/
theorem Accepts.abandon {promise : Bool} {frames rest : List Frame} {context : Context}
    (h : Accepts setup round final names visible promise frames)
    (hdrop : frames.dropWhile (!·.isGuard) = .guard context :: rest) :
    ∃ names', EnvFits setup names' context.env ∧
      Accepts setup round final names' context.visible false rest := by
  induction h with
  | guard henv h =>
    obtain ⟨heq, rfl⟩ := List.cons.inj hdrop
    obtain rfl := Frame.guard.inj heq
    exact ⟨_, henv, h⟩
  | nil => cases hdrop
  | initialise => cases hdrop
  | force _ ih | operands _ _ _ _ ih | condition _ _ _ _ _ _ _ ih | leaveBranch _ _ ih
  | shortCircuit _ _ _ ih | rightOperand _ ih | scrutinee _ _ _ _ _ ih | leaveArm _ _ ih
  | lastStatement _ ih | statement _ _ _ _ _ _ ih | bind _ _ _ _ _ _ ih | block _ ih
  | activation _ _ ih | builtin _ ih => exact ih hdrop

theorem Control.Sound.accepts {control : Control} {frames : List Frame}
    (h : Control.Sound setup round final names visible control frames) :
    Accepts setup round final names visible false frames := by
  cases h with
  | eval _ _ _ h | operands _ _ h | apply _ h | operate h | deliver _ h => exact h.weaken
  | run _ _ _ h => exact .block h.weaken
  | items | done => exact .nil

/-! ### Steps -/

theorem deliversStatements_binding (declaration : VariableDeclaration) (rest : List Statement) :
    deliversStatements round scope (.item (.variableDeclaration declaration) :: rest) =
      deliversStatements round
        ((declaration.name, delivers round scope declaration.value) :: scope) rest := by
  cases declaration
  rw [deliversStatements]

theorem length_globalNames (items : List Item) :
    (globalNames items).length = (items.filter Item.isVariable).length := by
  induction items with
  | nil => rfl
  | cons item items ih =>
    cases item <;>
      simp_all [globalNames, Item.globalName, List.filterMap_cons, List.filter_cons, Item.isVariable]

theorem globalBefore_eq {declaration : VariableDeclaration} {before rest : List Item}
    (h : setup.program.items = before ++ .variableDeclaration declaration :: rest) :
    setup.globalBefore rest = (globalNames before).length := by
  rw [Setup.globalBefore, Setup.globalCount, h, length_globalNames]
  simp only [List.filter_append, List.length_append, List.filter_cons, Item.isVariable, if_true,
    List.length_cons]
  omega

theorem globalNames_declare (before rest : List Item) (declaration : VariableDeclaration) :
    globalNames ((before ++ [.variableDeclaration declaration]) ++ rest) =
      (globalNames before ++ [declaration.name]) ++ globalNames rest := by
  simp [globalNames, Item.globalName]

/-- The environment after one more global. -/
theorem EnvFits.declare {declaration : VariableDeclaration} {before rest : List Item} {env : Env}
    (h : EnvFits setup (globalNames before) env)
    (hprogram : setup.program.items = before ++ .variableDeclaration declaration :: rest) :
    EnvFits setup (globalNames (before ++ [.variableDeclaration declaration]))
      ((declaration.name, (globalNames before).length) :: env) := by
  have hnext : globalNames (before ++ [.variableDeclaration declaration]) =
      globalNames before ++ [declaration.name] := by
    simpa [globalNames] using globalNames_declare before [] declaration
  rw [hnext]
  refine ⟨⟨globalNames rest, ?_⟩, List.forall_mem_cons.mpr ⟨fun _ => by simp, fun entry hentry hlt => ?_⟩⟩
  · rw [← globalNames_declare, hprogram, List.append_assoc, List.singleton_append]
  · have hname := h.entries entry hentry hlt
    obtain ⟨hlength, -⟩ := List.getElem?_eq_some_iff.mp hname
    rw [List.getElem?_append_left hlength]
    exact hname

/-- A read that finds a promise finds it under a name that the bindings in sight say is deferred, or
under a global's name that none of them binds. -/
def ReadTracked (setup : Setup) (store : Store) (fiber : Fiber) : Prop :=
  ∀ tail name span address launch, fiber.control = .eval tail (.identifier name span) →
    fiber.context.env.lookup name = some address →
    store.cells[address]? = some (some (.promise launch)) →
    fiber.context.visible.lookup name = some true ∨
      fiber.context.visible.lookup name = none ∧ address < setup.globalCount

theorem not_isPromise_of_ready {store : Store} {value : Value} (h : store.ready value = true) :
    value.isPromise = false := by
  cases value <;> first | rfl | cases h

variable {store store' : Store} {context : Context} {frames : List Frame} {fiber fiber' : Fiber}

theorem Fiber.Sound.mk {control : Control} (henv : EnvFits setup names context.env)
    (h : Control.Sound setup round final names context.visible control frames) :
    Fiber.Sound setup round final ⟨control, context, frames⟩ :=
  ⟨names, henv, h⟩

theorem sound_deliver {value : Value} {promise : Bool} (henv : EnvFits setup names context.env)
    (hvalue : value.isPromise = true → promise = true)
    (h : Accepts setup round final names context.visible promise frames) :
    Fiber.Sound setup round final ⟨.deliver value, context, frames⟩ :=
  .mk henv (.deliver hvalue h)

/-- A value that is not a promise goes anywhere. -/
theorem sound_deliver_ready {value : Value} {promise : Bool}
    (henv : EnvFits setup names context.env) (hvalue : value.isPromise = false)
    (h : Accepts setup round final names context.visible promise frames) :
    Fiber.Sound setup round final ⟨.deliver value, context, frames⟩ :=
  sound_deliver henv (fun hpromise => by rw [hvalue] at hpromise; cases hpromise) h

theorem sound_eval {e : Expression} {promise : Bool} (henv : EnvFits setup names context.env)
    (htracks : Tracks context.visible scope) (he : Analysed round final names scope e)
    (hpromise : delivers round scope e = true → promise = true)
    (h : Accepts setup round final names context.visible promise frames) :
    Fiber.Sound setup round final ⟨.eval false e, context, frames⟩ :=
  .mk henv (.eval htracks he (fun hdelivers _ => hpromise hdelivers) h)

/-- The value of a strict slot is forced, so nothing deferred arrives. -/
theorem sound_eval_slot {e : Expression} (henv : EnvFits setup names context.env)
    (htracks : Tracks context.visible scope) (he : Slot round final names scope e)
    (h : Accepts setup round final names context.visible false frames) :
    Fiber.Sound setup round final ⟨.eval false e, context, frames⟩ :=
  .mk henv (.eval htracks he.toAnalysed (fun hdelivers hsite => absurd (he.forced hdelivers) hsite) h)

theorem read_isPromise {name : String} {span : Span} {address : Nat} {value : Value} {tail : Bool}
    (hs : store.Sound setup round final)
    (hread : ReadTracked setup store ⟨.eval tail (.identifier name span), context, frames⟩)
    (henv : EnvFits setup names context.env) (htracks : Tracks context.visible scope)
    (hlookup : context.env.lookup name = some address)
    (hcell : store.cells[address]? = some (some value)) (hvalue : value.isPromise = true) :
    delivers round scope (.identifier name span) = true := by
  rw [delivers, Round.isDeferred]
  cases value <;> cases hvalue
  rename_i launch
  rcases hread tail name span address launch rfl hlookup hcell with hseen | ⟨hunseen, haddress⟩
  · rw [htracks.lookup_true hseen]
  · rw [htracks.lookup_none hunseen]
    obtain ⟨name', hname', hglobal⟩ := hs.deferred address haddress launch hcell
    rw [henv.globalName (henv.lookup hlookup haddress)] at hglobal
    obtain rfl := Option.some.inj hglobal
    simpa using hname'

theorem Evaluates.sound {e : Expression} {promise : Bool} {frames' : List Frame}
    (h : Evaluates setup store context frames' false e store' fiber)
    (hprepared : Prepared setup round final) (hs : store.Sound setup round final)
    (hread : ReadTracked setup store ⟨.eval false e, context, frames⟩)
    (henv : EnvFits setup names context.env) (htracks : Tracks context.visible scope)
    (he : Analysed round final names scope e)
    (hpromise : delivers round scope e = true → promise = true)
    (hframes : Accepts setup round final names context.visible promise frames') :
    store'.Sound setup round final ∧ fiber.Sound setup round final := by
  have hfinal := hprepared.finished.noneNew
  cases h with
  | literal hliteral =>
    refine ⟨hs, sound_deliver_ready henv ?_ hframes⟩
    cases e <;> cases hliteral <;> rfl
  | read hlookup hcell =>
    exact ⟨hs, sound_deliver henv (fun hvalue => hpromise
      (read_isPromise hs hread henv htracks hlookup hcell hvalue)) hframes⟩
  | chosen hready => exact ⟨hs, sound_deliver_ready henv (not_isPromise_of_ready hready) hframes⟩
  | lambda parameters ty body span =>
    refine ⟨⟨hs.globals, hs.deferred, ?_, hs.methods⟩, sound_deliver_ready henv rfl hframes⟩
    intro code hcode
    rcases List.mem_append.mp hcode with hcode | hcode
    · exact hs.closures code hcode
    · rw [List.mem_singleton.mp hcode]
      exact ⟨rfl, names, scope, henv, htracks, he.slot hfinal List.mem_cons_self⟩
  | tailBlock statements span htail => cases htail
  | scopeBlock statements span hscope =>
    rw [delivers] at hpromise
    exact ⟨hs, .mk henv (.run htracks (he.statements hfinal) hpromise hframes)⟩
  | plainBlock statements span hscope =>
    rw [delivers] at hpromise
    exact ⟨hs, .mk henv (.run htracks (he.statements hfinal) hpromise hframes)⟩
  | ifThenElse condition then_ else_ span =>
    rw [delivers, Bool.or_eq_true] at hpromise
    have hthen : Analysed round final names scope then_ :=
      he.branch hfinal (by simp [parts])
    have helse : Analysed round final names scope else_ :=
      he.branch hfinal (by simp [parts])
    refine ⟨hs, sound_eval_slot henv htracks (he.slot hfinal List.mem_cons_self) ?_⟩
    exact .condition rfl htracks hthen helse (fun h => hpromise (.inl h))
      (fun h => hpromise (.inr h)) hframes
  | match_ scrutinee arms span =>
    refine ⟨hs, sound_eval_slot henv htracks (he.slot hfinal List.mem_cons_self) ?_⟩
    refine .scrutinee rfl htracks (fun arm harm => ?_) (fun arm harm hdelivers => hpromise ?_) hframes
    · exact he.branch hfinal (List.mem_cons_of_mem _ (List.mem_map.mpr ⟨arm, harm, rfl⟩))
    · rw [delivers]
      exact deliversArms_of_mem round harm hdelivers
  | logical left operator right span =>
    have hright := he.slot_of_strict hfinal rfl (c := right) (by simp [Expression.children])
    refine ⟨hs, sound_eval_slot henv htracks
      (he.slot_of_strict hfinal rfl (by simp [Expression.children])) ?_⟩
    exact .shortCircuit htracks hright hframes.weaken
  | @operands e tail' hstrict htail =>
    obtain rfl : tail' = false := by cases tail' <;> simp_all
    rw [delivers_of_strict hstrict] at hpromise
    refine ⟨hs, .mk henv (.operands htracks (fun c hc => ?_) (hframes.mono hpromise))⟩
    exact he.slot_of_operand hfinal hstrict (setup.order_operands e c hc)

/-- Evaluation starts on frames that take what the expression delivers, by way of a force if its
value is forced. -/
theorem Enters.accepts {e : Expression} {promise tail' : Bool} {frames' : List Frame}
    (h : Enters setup false e frames tail' frames') (hprepared : Prepared setup round final)
    (hpromise : delivers round scope e = true → e.span ∉ final.forceSites → promise = true)
    (hframes : Accepts setup round final names visible promise frames) :
    tail' = false ∧ ∃ promise', (delivers round scope e = true → promise' = true) ∧
      Accepts setup round final names visible promise' frames' := by
  cases h with
  | lowered hlowered =>
    unfold Setup.loweredInTail at hlowered
    split at hlowered <;> simp at hlowered
  | forced => exact ⟨rfl, true, fun _ => rfl, .force hframes.weaken⟩
  | plain _ hsite =>
    refine ⟨rfl, promise, fun hdelivers => hpromise hdelivers ?_, hframes⟩
    rw [← hprepared.sites]
    simpa using hsite

theorem callEffect_deferred_iff (function : Expression) (arguments : List Expression)
    (memberCall : Bool) (names : List String) (guarded : Bool) :
    (⟨names, callEffect function arguments memberCall, guarded⟩ : Operation).yieldsPromise =
      producesDeferred function arguments memberCall := by
  unfold Operation.yieldsPromise callEffect
  cases producesDeferred function arguments memberCall with
  | true => rfl
  | false =>
    generalize (namesPrimitive function "sleep" || namesPrimitive function "streamFile") = waits
    cases namesPrimitive function "tcpServe" <;> cases namesPrimitive function "serve" <;>
      cases waits <;> rfl

theorem Dispatches.sound {name : String} {nameSpan span : Span} {arguments : List Expression}
    {memberCall : Bool} {values : List Value}
    (h : Dispatches setup store context frames name nameSpan arguments memberCall values fiber)
    (hs : store.Sound setup round final)
    (hfunctions : ∀ f ∈ setup.functions, f.2.Sound setup round final)
    (henv : EnvFits setup names context.env)
    (hframes : Accepts setup round final names context.visible
      (Expression.call (.identifier name nameSpan) arguments memberCall span).yieldsPromise frames) :
    fiber.Sound setup round final := by
  cases h with
  | builtin =>
    refine .mk henv (.operate ?_)
    rw [callEffect_deferred_iff]
    exact hframes
  | binding hmember hprimitive hlookup hcell hcode =>
    exact .mk henv (.apply (hs.closures _ (List.mem_of_getElem? hcode)) hframes.weaken)
  | function hprimitive hf hmember hplain =>
    exact .mk henv (.apply (hfunctions _ hf) hframes.weaken)
  | method hmember hprimitive hmethod =>
    exact .mk henv (.apply (hs.methods _ hmethod) hframes.weaken)

theorem Operates.sound {operation : Operation} {values : List Value}
    (h : Operates setup store context frames operation values store' fiber)
    (hs : store.Sound setup round final)
    (hfunctions : ∀ f ∈ setup.functions, f.2.Sound setup round final)
    (henv : EnvFits setup names context.env)
    (hframes : Accepts setup round final names context.visible operation.yieldsPromise frames) :
    store'.Sound setup round final ∧ fiber.Sound setup round final := by
  have hwithin : Accepts setup round final names context.visible false
      ((if operation.guarded then Frame.guard context else .builtin operation values) :: frames) := by
    cases operation.guarded with
    | true => exact .guard henv hframes.weaken
    | false => exact .builtin hframes
  have hlaunched : ∀ launch, Accepts setup round final names context.visible operation.yieldsPromise
      (recordLaunch launch (registerLaunch launch frames)) :=
    fun launch => (hframes.register launch).record launch
  cases h with
  | callback hmem hcode hready =>
    exact ⟨hs, .mk henv (.apply (hs.closures _ (List.mem_of_getElem? hcode)) hwithin)⟩
  | method hmethod hready => exact ⟨hs, .mk henv (.apply (hs.methods _ hmethod) hwithin)⟩
  | function hf hname hready => exact ⟨hs, .mk henv (.apply (hfunctions _ hf) hwithin)⟩
  | ends hready => exact ⟨hs, sound_deliver_ready henv (not_isPromise_of_ready hready) hframes⟩
  | launches heffect =>
    refine ⟨⟨hs.globals, hs.deferred, hs.closures, hs.methods⟩,
      sound_deliver henv (fun _ => ?_) (hlaunched _)⟩
    rw [Operation.yieldsPromise, heffect]
  | serves heffect hready =>
    exact ⟨⟨hs.globals, hs.deferred, hs.closures, hs.methods⟩,
      sound_deliver_ready henv (not_isPromise_of_ready hready) (hlaunched _)⟩

theorem Delivers.sound {value : Value} {frame : Frame} {promise : Bool}
    (h : Delivers setup store context frames value frame store' fiber)
    (hprepared : Prepared setup round final) (hs : store.Sound setup round final)
    (henv : EnvFits setup names context.env) (hvalue : value.isPromise = true → promise = true)
    (hframes : Accepts setup round final names context.visible promise (frame :: frames)) :
    store'.Sound setup round final ∧ fiber.Sound setup round final := by
  have hfinal := hprepared.finished.noneNew
  obtain ⟨env, visible⟩ := context
  cases hframes with
  | force hframes =>
    cases h with
    | pass hpass =>
      obtain ⟨-, hvalue⟩ : Frame.force = .force ∧ value.isPromise = false := by simpa using hpass
      exact ⟨hs, sound_deliver_ready henv hvalue hframes⟩
    | forced hpromise hready =>
      exact ⟨hs, sound_deliver_ready henv (not_isPromise_of_ready hready) hframes⟩
  | operands htail htracks hrest hframes =>
    cases h with
    | pass hpass => simp at hpass
    | operands whole tail rest values =>
      subst htail
      exact ⟨hs, .mk henv (.operands htracks hrest hframes)⟩
  | condition htail htracks hthen helse hpthen hpelse hframes =>
    subst htail
    cases h with
    | pass hpass => simp at hpass
    | takeThen =>
      exact ⟨hs, sound_eval henv htracks hthen hpthen (.leaveBranch helse hframes)⟩
    | takeElse tail then_ else_ _ hreserve =>
      obtain ⟨hs', henv', hvisible⟩ := reserve_sound hreserve hfinal hs henv hthen
      exact ⟨hs', sound_eval henv' (hvisible ▸ htracks) helse hpelse (hvisible ▸ hframes)⟩
  | leaveBranch hskipped hframes =>
    cases h with
    | pass hpass => simp at hpass
    | leaveBranch skipped hreserve =>
      obtain ⟨hs', henv', hvisible⟩ := reserve_sound hreserve hfinal hs henv hskipped
      exact ⟨hs', sound_deliver henv' hvalue (hvisible ▸ hframes)⟩
  | shortCircuit htracks hright hframes =>
    cases h with
    | pass hpass => simp at hpass
    | decided right hready hreserve =>
      obtain ⟨hs', henv', hvisible⟩ := reserve_sound hreserve hfinal hs henv hright.toAnalysed
      exact ⟨hs', sound_deliver henv' hvalue (hvisible ▸ hframes)⟩
    | takeRight => exact ⟨hs, sound_eval_slot henv htracks hright (.rightOperand hframes)⟩
  | rightOperand hframes =>
    cases h with
    | pass hpass => exact ⟨hs, sound_deliver henv hvalue hframes⟩
  | scrutinee htail htracks harms hpromise hframes =>
    subst htail
    cases h with
    | pass hpass => simp at hpass
    | @takeArm tail arms arm values store' env' harm hready hbind =>
      obtain ⟨hs', henv'⟩ := bindAll_sound hbind hs henv
      exact ⟨hs', sound_eval henv' htracks (harms arm harm) (hpromise arm harm)
        (.leaveArm henv hframes)⟩
  | leaveArm houter hframes =>
    cases h with
    | pass hpass => simp at hpass
    | leaveArm => exact ⟨hs, sound_deliver houter hvalue hframes⟩
  | lastStatement hframes =>
    cases h with
    | pass hpass => exact ⟨hs, sound_deliver henv hvalue hframes⟩
    | statement tail hrest => exact absurd rfl hrest
  | statement hrest htail htracks hstatements hpromise hframes =>
    subst htail
    cases h with
    | pass hpass => simp_all
    | statement tail _ => exact ⟨hs, .mk henv (.run htracks hstatements hpromise hframes)⟩
  | bind htail htracks hdeclared hstatements hpromise hframes =>
    subst htail
    cases h with
    | pass hpass => simp at hpass
    | bind _ _ _ hbind =>
      have hpart := hstatements.recorded _ List.mem_cons_self
      obtain ⟨before, span, hrecords⟩ := hstatements.records
      obtain ⟨hs', henv', hvisible⟩ := bindStatement_sound hbind hs henv
        fun hdeferred hmutable hname => hpart.stored _ _ rfl (hdeclared (hvalue hdeferred))
          (hrecords before _ _ span .refl hmutable hname)
      rw [deliversStatements_binding] at hpromise
      refine ⟨hs', .mk henv' (.run ?_ (hstatements.tail (List.subset_cons_self _ _)) hpromise
        hframes)⟩
      rw [hvisible]
      exact htracks.push fun hdeferred => hdeclared (hvalue hdeferred)
  | block hframes =>
    cases h with
    | pass hpass => simp at hpass
    | leaveBlock => exact ⟨hs, sound_deliver henv hvalue hframes⟩
  | activation hcaller hframes =>
    cases h with
    | pass hpass => simp at hpass
    | returns => exact ⟨hs, sound_deliver hcaller hvalue hframes⟩
  | builtin hframes =>
    cases h with
    | pass hpass => simp at hpass
    | builtin => exact ⟨hs, .mk henv (.operate hframes)⟩
  | guard houter hframes =>
    cases h with
    | pass hpass => simp at hpass
    | leaveGuard => exact ⟨hs, sound_deliver_ready houter rfl hframes⟩
  | @initialise names declaration rest promise hitems hpromise =>
    cases h with
    | pass hpass => simp at hpass
    | initialise =>
      obtain ⟨before, hprogram, rfl⟩ := hitems
      have hprogram' : setup.program.items = (before ++ [.variableDeclaration declaration]) ++ rest := by
        rw [hprogram, List.append_assoc, List.singleton_append]
      rw [globalBefore_eq hprogram]
      refine ⟨hs.setCell fun hdeferred _ => ⟨declaration.name, hpromise (hvalue hdeferred), ?_⟩,
        .mk (henv.declare hprogram) (.items ⟨_, hprogram', rfl⟩)⟩
      rw [hprogram', globalNames_declare]
      simp

theorem Moves.sound (h : Moves setup store fiber store' fiber')
    (hprepared : Prepared setup round final) (hs : store.Sound setup round final)
    (hfunctions : ∀ f ∈ setup.functions, f.2.Sound setup round final)
    (hread : ReadTracked setup store fiber) (hfiber : fiber.Sound setup round final) :
    store'.Sound setup round final ∧ fiber'.Sound setup round final := by
  have hfinal := hprepared.finished.noneNew
  obtain ⟨control, ⟨env, visible⟩, frames⟩ := fiber
  obtain ⟨names, henv, hcontrol⟩ := hfiber
  cases h with
  | eval henters hevaluates =>
    cases hcontrol with
    | eval htracks he hpromise hframes =>
      obtain ⟨rfl, promise', hpromise', hframes'⟩ := henters.accepts hprepared hpromise hframes
      exact hevaluates.sound hprepared hs hread henv htracks he hpromise' hframes'
  | operand context frames whole tail e rest values =>
    cases hcontrol with
    | operands htracks hrest hframes =>
      obtain ⟨he, hrest⟩ := List.forall_mem_cons.mp hrest
      exact ⟨hs, sound_eval_slot henv htracks he (.operands rfl htracks hrest hframes)⟩
  | tailCall => cases hcontrol
  | call hdispatch =>
    cases hcontrol with
    | operands htracks hrest hframes => exact ⟨hs, hdispatch.sound hs hfunctions henv hframes⟩
  | callComputed hfunction hcode =>
    cases hcontrol with
    | operands htracks hrest hframes =>
      exact ⟨hs, .mk henv (.apply (hs.closures _ (List.mem_of_getElem? hcode)) hframes.weaken)⟩
  | construct =>
    cases hcontrol with
    | operands htracks hrest hframes => exact ⟨hs, .mk henv (.operate hframes.weaken)⟩
  | runEnd =>
    cases hcontrol with
    | run htracks hstatements hpromise hframes =>
      exact ⟨hs, sound_deliver_ready henv rfl (.block hframes)⟩
  | runExpression context frames tail e rest =>
    cases hcontrol with
    | run htracks hstatements hpromise hframes =>
      have he := hstatements.analysed List.mem_cons_self (by simp [Statement.children])
      have hrest := hstatements.tail (List.subset_cons_self _ _)
      cases rest with
      | nil =>
        rw [deliversStatements] at hpromise
        exact ⟨hs, sound_eval henv htracks he hpromise (.lastStatement (.block hframes))⟩
      | cons next rest =>
        refine ⟨hs, sound_eval henv htracks he (fun _ => rfl)
          (.statement (by simp) rfl htracks hrest ?_ hframes)⟩
        rwa [deliversStatements] at hpromise
        all_goals simp
  | runBinding context frames tail declaration rest =>
    cases hcontrol with
    | run htracks hstatements hpromise hframes =>
      have hvalue := hstatements.analysed List.mem_cons_self (by simp [Statement.children])
      exact ⟨hs, sound_eval henv htracks hvalue id (.bind rfl htracks id hstatements hpromise hframes)⟩
  | runFunction frames tail f rest hdeclare =>
    cases hcontrol with
    | run htracks hstatements hpromise hframes =>
      have hbody := hstatements.body List.mem_cons_self (by simp [Statement.children])
      obtain ⟨hs', henv', hvisible⟩ := declareFunction_sound hdeclare hprepared hs henv hbody
      refine ⟨hs', .mk henv' (.run (hvisible ▸ htracks)
        (hstatements.tail (List.subset_cons_self _ _)) ?_ hframes)⟩
      rwa [deliversStatements] at hpromise
      simp
  | runType context frames tail t rest =>
    cases hcontrol with
    | run htracks hstatements hpromise hframes =>
      refine ⟨declareType_sound hs henv hstatements.methods, .mk henv (.run htracks
        (hstatements.tail (List.subset_append_right _ _)) ?_ hframes)⟩
      rwa [deliversStatements] at hpromise
      simp
  | apply hbind =>
    cases hcontrol with
    | apply hcode hframes =>
      obtain ⟨hloop, names', scope', henv', htracks', hbody⟩ := hcode
      obtain ⟨hs', henv''⟩ := bindAll_sound hbind hs henv'
      rw [hloop]
      exact ⟨hs', sound_eval_slot henv'' htracks' hbody (.activation henv hframes)⟩
  | operate hoperates =>
    cases hcontrol with
    | operate hframes => exact hoperates.sound hs hfunctions henv hframes
  | restart => cases hcontrol
  | deliver hdelivers =>
    cases hcontrol with
    | deliver hvalue hframes => exact hdelivers.sound hprepared hs henv hvalue hframes
  | finished => exact ⟨hs, .mk henv .done⟩
  | itemsEnd =>
    cases hcontrol with
    | items hitems => exact ⟨hs, .mk henv .done⟩
  | itemBinding context frames declaration rest =>
    cases hcontrol with
    | items hitems =>
      obtain ⟨before, hprogram, rfl⟩ := hitems
      have hmem : .variableDeclaration declaration ∈ setup.program.items := by simp [hprogram]
      have hpart := hprepared.finished.recorded hmem List.mem_cons_self
      have hvalue : Analysed round final (globalNames before) [] declaration.value :=
        ⟨hpart.visited, hprepared.records before _ rest hprogram _ List.mem_cons_self⟩
      have hstored : delivers round [] declaration.value = true →
          if declaration.isMutable then declaration.name ∈ round.deferredGlobals
          else declaration.value.span ∈ final.forceSites := hpart.initialised _ _ _ rfl
      have hframes : Accepts setup round final (globalNames before) []
          (declaration.isMutable && delivers round [] declaration.value)
          [.initialise declaration rest] := by
        refine .initialise ⟨before, hprogram, rfl⟩ fun hdeferred => ?_
        rw [Bool.and_eq_true] at hdeferred
        rw [hdeferred.1] at hstored
        exact hstored hdeferred.2
      refine ⟨hs, .mk henv (.eval .nil hvalue (fun hdelivers hsite => ?_) hframes)⟩
      cases hmutable : declaration.isMutable with
      | true => simpa using hdelivers
      | false =>
        rw [hmutable] at hstored
        exact absurd (hstored hdelivers) hsite
  | @itemOther context frames item rest hitem =>
    cases hcontrol with
    | items hitems =>
      obtain ⟨before, hprogram, rfl⟩ := hitems
      refine ⟨hs, .mk henv (.items ⟨before ++ [item], by simp [hprogram], ?_⟩)⟩
      cases item with
      | variableDeclaration v => exact absurd rfl (hitem v)
      | functionDeclaration | typeDeclaration | trapDeclaration =>
        simp [globalNames, Item.globalName, List.filterMap_cons]

/-! ### The code of the program -/

theorem withGlobals_fits (items before : List Item) (env : Env)
    (hprogram : setup.program.items = before ++ items)
    (hlength : env.length = (globalNames before).length)
    (henv : EnvFits setup (globalNames before) env) :
    ∀ entry ∈ withGlobals env items, ∃ above below,
      setup.program.items = above ++ entry.1 :: below ∧ EnvFits setup (globalNames above) entry.2 := by
  induction items generalizing before env with
  | nil => simp [withGlobals]
  | cons item items ih =>
    have hprogram' : setup.program.items = (before ++ [item]) ++ items := by
      rw [hprogram, List.append_assoc, List.singleton_append]
    have hother : item.globalName = none → globalNames (before ++ [item]) = globalNames before := by
      intro hnone
      simp [globalNames, hnone]
    cases item with
    | variableDeclaration v =>
      refine List.forall_mem_cons.mpr ⟨⟨before, items, hprogram, henv⟩, ih _ _ hprogram' ?_ ?_⟩
      · simp [globalNames, Item.globalName, hlength]
      · rw [hlength]
        exact henv.declare hprogram
    | functionDeclaration | typeDeclaration | trapDeclaration =>
      refine List.forall_mem_cons.mpr ⟨⟨before, items, hprogram, henv⟩, ih _ _ hprogram' ?_ ?_⟩
      · rw [hother rfl]
        exact hlength
      · rw [hother rfl]
        exact henv

theorem itemsWithGlobals_fits (setup : Setup) :
    ∀ entry ∈ setup.itemsWithGlobals, ∃ above below,
      setup.program.items = above ++ entry.1 :: below ∧ EnvFits setup (globalNames above) entry.2 :=
  withGlobals_fits _ [] _ rfl rfl ⟨List.nil_prefix, fun _ h => by cases h⟩

/-- The parts of an item are analysed under the globals above it. -/
theorem Prepared.slot (hprepared : Prepared setup round final) {above below : List Item}
    {item : Item} (hprogram : setup.program.items = above ++ item :: below) {c : Expression}
    {role : Role} (hpart : ⟨[], c, role⟩ ∈ itemParts item)
    (hrole : role = .operand ∨ ∃ name track, role = .body name track) :
    Slot round final (globalNames above) [] c := by
  have hmem : item ∈ setup.program.items := by simp [hprogram]
  have hrecorded := hprepared.finished.recorded hmem hpart
  exact ⟨⟨hrecorded.visited, hprepared.records above item below hprogram _
    (mem_bodies_of_mem_itemParts hpart)⟩, hrecorded.forced hrole⟩

theorem functions_sound (hprepared : Prepared setup round final) :
    ∀ f ∈ setup.functions, f.2.Sound setup round final := by
  rintro ⟨f, code⟩ h
  obtain ⟨⟨item, env⟩, hitem, heq⟩ := List.mem_filterMap.mp h
  cases item <;> simp only [reduceCtorEq, Option.ite_none_right_eq_some, Option.some.injEq,
    Prod.mk.injEq] at heq
  obtain ⟨-, rfl, rfl⟩ := heq
  obtain ⟨above, below, hprogram, henv⟩ := itemsWithGlobals_fits setup _ hitem
  exact function_sound hprepared henv
    (hprepared.slot hprogram List.mem_cons_self (.inr ⟨_, _, rfl⟩))

theorem topLevelMethods_sound (hprepared : Prepared setup round final) :
    ∀ method ∈ setup.topLevelMethods, method.2.Sound setup round final := by
  intro method h
  obtain ⟨⟨item, env⟩, hitem, heq⟩ := List.mem_flatMap.mp h
  cases item <;> simp only [List.not_mem_nil, List.mem_map] at heq
  obtain ⟨m, hm, rfl⟩ := heq
  obtain ⟨above, below, hprogram, henv⟩ := itemsWithGlobals_fits setup _ hitem
  exact method_sound henv
    (hprepared.slot hprogram (List.mem_map.mpr ⟨m, hm, rfl⟩) (.inr ⟨_, _, rfl⟩))

theorem trapArms_sound (hprepared : Prepared setup round final) :
    ∀ arm ∈ setup.trapArms,
      (⟨arm.1.pattern.names, arm.1.body, ⟨arm.2, []⟩, false⟩ : Closure).Sound setup round final := by
  intro arm h
  obtain ⟨⟨item, env⟩, hitem, heq⟩ := List.mem_flatMap.mp h
  cases item <;> simp only [List.not_mem_nil, List.mem_map] at heq
  obtain ⟨arm, harm, rfl⟩ := heq
  obtain ⟨above, below, hprogram, henv⟩ := itemsWithGlobals_fits setup _ hitem
  exact ⟨rfl, _, [], henv, .nil,
    hprepared.slot hprogram (List.mem_map.mpr ⟨arm, harm, rfl⟩) (.inl rfl)⟩

/-! ### Every run -/

structure State.Sound (setup : Setup) (round : Round) (final : Taint) (state : State) : Prop where
  store : state.store.Sound setup round final
  fibers : ∀ fiber ∈ state.fibers, fiber.Sound setup round final

theorem start_sound (hprepared : Prepared setup round final) :
    setup.start.Sound setup round final := by
  have hlength : setup.start.store.cells.length = setup.globalCount := by simp [Setup.start]
  refine ⟨⟨hlength.ge, ?_, fun _ h => (by cases h), topLevelMethods_sound hprepared⟩, ?_⟩
  · intro address _ launch hcell
    simp [Setup.start, List.getElem?_replicate] at hcell
  · intro fiber hfiber
    rw [List.mem_singleton.mp hfiber]
    exact ⟨[], ⟨List.nil_prefix, fun _ h => by cases h⟩, .items ⟨[], rfl, rfl⟩⟩

theorem Steps.sound {state state' : State} (h : Steps setup state state')
    (hprepared : Prepared setup round final)
    (hread : ∀ fiber ∈ state.fibers, ReadTracked setup state.store fiber)
    (hstate : state.Sound setup round final) : state'.Sound setup round final := by
  have hspawn : ∀ (code : Closure) (arguments : List Value), code.Sound setup round final →
      (⟨state.store, state.fibers ++ [⟨.apply code arguments, ⟨[], []⟩, []⟩]⟩ : State).Sound
        setup round final := by
    intro code arguments hcode
    refine ⟨hstate.store, fun fiber hfiber => ?_⟩
    rcases List.mem_append.mp hfiber with hfiber | hfiber
    · exact hstate.fibers fiber hfiber
    · rw [List.mem_singleton.mp hfiber]
      exact ⟨[], ⟨List.nil_prefix, fun _ h => by cases h⟩, .apply hcode .nil⟩
  cases h with
  | @fiber index fiber fiber' store' hfiber hmoves =>
    have hmem := List.mem_of_getElem? hfiber
    obtain ⟨hs', hfiber'⟩ := hmoves.sound hprepared hstate.store (functions_sound hprepared)
      (hread fiber hmem) (hstate.fibers fiber hmem)
    refine ⟨hs', fun other hother => ?_⟩
    rcases List.mem_or_eq_of_mem_set hother with hother | rfl
    · exact hstate.fibers other hother
    · exact hfiber'
  | settle launch =>
    exact ⟨⟨hstate.store.globals, hstate.store.deferred, hstate.store.closures,
      hstate.store.methods⟩, hstate.fibers⟩
  | enter hf => exact hspawn _ _ (functions_sound hprepared _ hf)
  | handleTcp _ hcode => exact hspawn _ _ (hstate.store.closures _ (List.mem_of_getElem? hcode))
  | handleHttp _ hf => exact hspawn _ _ (functions_sound hprepared _ hf)
  | trap harm => exact hspawn _ _ (trapArms_sound hprepared _ harm)
  | @abandon index fiber context frames hfiber hdrop =>
    refine ⟨hstate.store, fun other hother => ?_⟩
    rcases List.mem_or_eq_of_mem_set hother with hother | rfl
    · exact hstate.fibers other hother
    · obtain ⟨names, -, hcontrol⟩ := hstate.fibers fiber (List.mem_of_getElem? hfiber)
      obtain ⟨names', henv, hframes⟩ := hcontrol.accepts.abandon hdrop
      exact sound_deliver_ready henv rfl hframes

/-- The frames that consume the value they wait for: the operands of a construct, a condition, a
scrutinee, and the end of a function's, method's, lambda's or arm's body. -/
def Frame.isStrict : Frame → Bool
  | .operands _ _ _ _ | .condition _ _ _ | .shortCircuit _ _ | .rightOperand | .scrutinee _ _
  | .activation _ _ _ _ => true
  | _ => false

theorem Accepts.ready_of_isStrict {promise : Bool} {frame : Frame} {frames : List Frame}
    (h : Accepts setup round final names visible promise (frame :: frames))
    (hframe : frame.isStrict = true) : promise = false := by
  cases h <;> first | rfl | cases hframe

end Sound

namespace Waiting

def at_ (start stop : Nat) : Span := ⟨start, stop, 0⟩

def readStdin (start : Nat) : Expression :=
  .call (.identifier "core.io.@readStdin" (at_ start (start + 13))) [] false (at_ start (start + 15))

def declare (isMutable : Bool) (value : Expression) (start stop : Nat) : Statement :=
  .item (.variableDeclaration ⟨isMutable, "x", none, value, false, false, at_ start stop⟩)

/-- `^ = () -> Num => < statements  x == "hi" ? 0 : 1 >` -/
def entry (statements : List Statement) : FunctionDeclaration :=
  ⟨"^", [], some .num, none,
    .block (statements ++
      [.expression (.ifThenElse
        (.binaryOperator (.identifier "x" (at_ 70 71)) .eq (.string "hi" (at_ 75 79)) (at_ 70 79))
        (.number 0 (at_ 82 83)) (.number 1 (at_ 86 87)) (at_ 70 87))]) (at_ 17 89), false, false,
    at_ 0 89⟩

def answers : CheckerAnswers := ⟨[], [], Char.isUpper⟩

def setup (statements : List Statement) (info : DeferInfo) : Setup where
  program := ⟨[.functionDeclaration (entry statements)]⟩
  info := info
  order := Expression.operands
  order_operands _ _ h := h
  evaluatesBoth _ := false
  loops _ := false
  backEdges _ := false

/-- `x = io.@readStdin()` -/
def binding : Setup :=
  setup [declare false (readStdin 23) 19 38] ⟨[at_ 70 71], [at_ 17 89]⟩

/-- `x := ""  true ? x := io.@readStdin() : $` -/
def reassigning : Setup :=
  setup
    [declare true (.string "" (at_ 24 26)) 19 26,
     .expression (.ifThenElse (.bool true (at_ 28 32))
      (.block [declare true (readStdin 40) 35 55] (at_ 35 55)) (.unit (at_ 58 59)) (at_ 28 59))]
    ⟨[], [at_ 35 55]⟩

theorem recordTopLevel (statements : List Statement) (info : DeferInfo) :
    answers.RecordTopLevel (setup statements info).program := by
  intro before item after hitems root hroot earlier v later span hwithin hmutable hname
  obtain rfl : before = [] := by
    have hlength := congrArg List.length hitems
    simp [setup] at hlength
    exact List.eq_nil_of_length_eq_zero (by omega)
  cases hname

/-- The initialisers and the host's call of `^`. -/
def started : List Action :=
  [.fiber 0 .none, .fiber 0 .none, .enter 0 []]

/-- What every read of the run below finds is bound in sight, to a promise. -/
def readsSeen (_ : Action) (state : State) : Bool :=
  state.fibers.all fun fiber =>
    match fiber.control with
    | .eval _ (.identifier name _) => fiber.context.visible.lookup name == some true
    | _ => true

/-- The line was read, and the operator's left operand has its value. -/
def compared : State :=
  (follow (step binding) readsSeen (started ++ List.replicate 4 (.fiber 1 .none) ++
    [.fiber 1 .builtin, .fiber 1 (.result .unit)] ++ List.replicate 6 (.fiber 1 .none) ++
    [.settle 0, .fiber 1 (.result (.text "hi"))]) binding.start).get rfl

/-- What the operand's frame is given. -/
def operand : Value :=
  match (compared.fibers.getLast (by decide)).control with
  | .deliver value => value
  | _ => .promise 0

theorem run_compared : Run (step binding)
    (fun _ s => ∀ fiber ∈ s.fibers, ReadTracked binding s.store fiber) binding.start compared := by
  refine .of_follow (fun action state hcheck fiber hfiber => ?_) .start (Option.some_get rfl).symm
  intro tail name span address launch hcontrol hlookup hcell
  have hseen := List.all_eq_true.mp hcheck fiber hfiber
  rw [hcontrol] at hseen
  exact .inl (by simpa using hseen)

/-- The reassignment in the branch has run, and the operator's left operand has its value. -/
def reassigned : State :=
  (perform reassigning (started ++ List.replicate 12 (.fiber 1 .none) ++
    [.fiber 1 .builtin, .fiber 1 (.result .unit), .fiber 1 .none, .fiber 1 .none, .settle 0] ++
    List.replicate 8 (.fiber 1 .none)) reassigning.start).get rfl

end Waiting

end Quilon
