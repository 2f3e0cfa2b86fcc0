import Quilon.Machine.Provenance
import Quilon.Machine.Sharing

/-!
# The names code knows

Contexts, closures and methods hold names with the cells they stand for.  `Moves.names` says what
names a step adds: those of the cells that it makes, each under its declaration's name, and while
the globals are initialised the global's.
-/

namespace Quilon

/-! ### Every name a fiber or a store holds -/

section All

variable (R : String × Nat → Prop)

def Env.All (env : Env) : Prop :=
  ∀ entry ∈ env, R entry

def Closure.All (code : Closure) : Prop :=
  Env.All R code.context.env

def Frame.All : Frame → Prop
  | .leaveArm context | .guard context => Env.All R context.env
  | .activation code caller _ _ => code.All R ∧ Env.All R caller.env
  | _ => True

structure Fiber.All (fiber : Fiber) : Prop where
  starts : ∀ code, fiber.Starts code → code.All R
  context : Env.All R fiber.context.env
  frames : ∀ frame ∈ fiber.frames, frame.All R

structure Store.All (store : Store) : Prop where
  closures : ∀ code ∈ store.closures, code.All R
  methods : ∀ method ∈ store.methods, method.2.All R

end All

section Mono

variable {R R' : String × Nat → Prop} (hmono : ∀ entry, R entry → R' entry)

include hmono

theorem Env.All.mono {env : Env} (h : Env.All R env) : Env.All R' env :=
  fun entry hentry => hmono entry (h entry hentry)

theorem Frame.All.mono {frame : Frame} (h : frame.All R) : frame.All R' := by
  cases frame with
  | leaveArm context | guard context => exact Env.All.mono hmono h
  | activation code caller scope launched =>
    exact ⟨Env.All.mono hmono h.1, Env.All.mono hmono h.2⟩
  | _ => trivial

theorem framesAll_mono {frames : List Frame} (h : ∀ frame ∈ frames, frame.All R) :
    ∀ frame ∈ frames, frame.All R' :=
  fun frame hframe => (h frame hframe).mono hmono

theorem Fiber.All.mono {fiber : Fiber} (h : fiber.All R) : fiber.All R' :=
  ⟨fun code hcode => Env.All.mono hmono (h.starts code hcode), Env.All.mono hmono h.context,
    framesAll_mono hmono h.frames⟩

theorem Store.All.mono {store : Store} (h : store.All R) : store.All R' :=
  ⟨fun code hcode => Env.All.mono hmono (h.closures code hcode),
    fun method hmethod => Env.All.mono hmono (h.methods method hmethod)⟩

end Mono

section Basic

variable {R : String × Nat → Prop}

theorem Env.All.cons {env : Env} {entry : String × Nat} (hentry : R entry) (h : Env.All R env) :
    Env.All R (entry :: env) :=
  List.forall_mem_cons.mpr ⟨hentry, h⟩

theorem Env.All.lookup {env : Env} (h : Env.All R env) {name : String} {address : Nat}
    (hlookup : env.lookup name = some address) : R (name, address) := by
  obtain ⟨before, after, heq, -⟩ := List.lookup_eq_some_iff.mp hlookup
  exact h _ (by rw [heq]; simp)

theorem Store.All.of_code_eq {store store' : Store} (h : store.All R)
    (hclosures : store'.closures = store.closures) (hmethods : store'.methods = store.methods) :
    store'.All R :=
  ⟨hclosures ▸ h.closures, hmethods ▸ h.methods⟩

theorem Store.All.addClosure {store : Store} {code : Closure} (h : store.All R)
    (hcode : code.All R) {cells : List (Option Value)} :
    ({ store with cells, closures := store.closures ++ [code] } : Store).All R := by
  refine ⟨fun other hother => ?_, h.methods⟩
  rcases List.mem_append.mp hother with hother | hother
  · exact h.closures other hother
  · rw [List.mem_singleton.mp hother]
    exact hcode

/-- A fiber that starts nothing. -/
theorem Fiber.All.of_idle {control : Control} {context : Context} {frames : List Frame}
    (hcontrol : ∀ code arguments, control ≠ .apply code arguments)
    (henv : Env.All R context.env) (hframes : ∀ frame ∈ frames, frame.All R) :
    (⟨control, context, frames⟩ : Fiber).All R :=
  ⟨fun code ⟨arguments, hcode⟩ => absurd hcode (hcontrol code arguments), henv, hframes⟩

theorem Fiber.All.of_starts {code : Closure} {arguments : List Value} {context : Context}
    {frames : List Frame} (hcode : code.All R) (henv : Env.All R context.env)
    (hframes : ∀ frame ∈ frames, frame.All R) :
    (⟨.apply code arguments, context, frames⟩ : Fiber).All R := by
  refine ⟨?_, henv, hframes⟩
  rintro other ⟨passed, hother⟩
  cases hother
  exact hcode

theorem registerLaunch_all {launch : Nat} {frames : List Frame}
    (h : ∀ frame ∈ frames, frame.All R) : ∀ frame ∈ registerLaunch launch frames, frame.All R := by
  induction frames with
  | nil => exact h
  | cons frame frames ih =>
    have hhead := h frame List.mem_cons_self
    have hrest : ∀ frame ∈ frames, frame.All R :=
      fun frame hframe => h frame (List.mem_cons_of_mem _ hframe)
    have htail := ih hrest
    unfold registerLaunch
    split <;> simp_all [Frame.All]

theorem recordLaunch_all {launch : Nat} {frames : List Frame}
    (h : ∀ frame ∈ frames, frame.All R) : ∀ frame ∈ recordLaunch launch frames, frame.All R := by
  induction frames with
  | nil => exact h
  | cons frame frames ih =>
    have hhead := h frame List.mem_cons_self
    have hrest : ∀ frame ∈ frames, frame.All R :=
      fun frame hframe => h frame (List.mem_cons_of_mem _ hframe)
    have htail := ih hrest
    unfold recordLaunch
    split <;> simp_all [Frame.All]

end Basic

/-! ### New names -/

/-- What a step may name: a cell it makes, under the name its declaration gives it if it has one,
and a global that is initialised. -/
inductive NewName (setup : Setup) (store : Store) (fiber : Fiber) (store' : Store) :
    String × Nat → Prop where
  | slot {name : String} {address : Nat} : store.cells.length ≤ address →
      address < store'.cells.length →
      (∀ d, (fiber.declares setup store)[address - store.cells.length]? = some (some d) →
        d.name = name) →
      NewName setup store fiber store' (name, address)
  | global {d : VariableDeclaration} {rest : List Item} {frames : List Frame} :
      fiber.frames = .initialise d rest :: frames →
      NewName setup store fiber store' (d.name, setup.globalBefore rest)

section Binding

variable {setup : Setup} {R : String × Nat → Prop} {store store' : Store}

theorem bindAll_length {names : List String} {values : List Value} {env env' : Env}
    (h : bindAll store env names values = (store', env')) :
    store'.cells.length = store.cells.length + names.length := by
  induction names generalizing store env values with
  | nil =>
    obtain ⟨rfl, -⟩ := Prod.mk.inj h
    rfl
  | cons name names ih =>
    have hlength := ih h
    simp only [List.length_append, List.length_singleton] at hlength
    rw [hlength, List.length_cons]
    omega

theorem bindAll_all {names : List String} {values : List Value} {env env' : Env}
    (h : bindAll store env names values = (store', env')) (hs : store.All R)
    (henv : Env.All R env)
    (hnew : ∀ name address, store.cells.length ≤ address → address < store'.cells.length →
      R (name, address)) : store'.All R ∧ Env.All R env' := by
  have hlength := bindAll_length h
  induction names generalizing store env values with
  | nil =>
    obtain ⟨rfl, rfl⟩ := Prod.mk.inj h
    exact ⟨hs, henv⟩
  | cons name names ih =>
    rw [List.length_cons] at hlength
    refine ih h (hs.of_code_eq rfl rfl) ?_ ?_ (bindAll_length h)
    · exact henv.cons (hnew name _ (Nat.le_refl _) (by omega))
    · intro name' address hle hlt
      simp only [List.length_append, List.length_singleton] at hle
      exact hnew name' address (by omega) hlt

theorem bindStatement_all {context context' : Context} {d : VariableDeclaration} {value : Value}
    (h : bindStatement store context d value = (store', context')) (hs : store.All R)
    (henv : Env.All R context.env)
    (hnew : store.cells.length < store'.cells.length → R (d.name, store.cells.length)) :
    store'.All R ∧ Env.All R context'.env := by
  unfold bindStatement at h
  split at h
  case h_1 address hlookup =>
    obtain ⟨rfl, rfl⟩ := Prod.mk.inj h
    exact ⟨hs.of_code_eq rfl rfl, henv⟩
  case h_2 =>
    obtain ⟨rfl, rfl⟩ := Prod.mk.inj h
    exact ⟨hs.of_code_eq rfl rfl, henv.cons (hnew (by simp))⟩

theorem declareFunction_all {context context' : Context} {f : FunctionDeclaration}
    (h : declareFunction setup store context f = (store', context')) (hs : store.All R)
    (henv : Env.All R context.env) (hnew : R (f.name, store.cells.length)) :
    store'.All R ∧ Env.All R context'.env := by
  obtain ⟨rfl, rfl⟩ := Prod.mk.inj h
  have hgrown : Env.All R ((f.name, store.cells.length) :: context.env) := henv.cons hnew
  refine ⟨hs.addClosure ?_, hgrown⟩
  show Env.All R (if f.returnType.isSome then _ else _)
  split
  · exact hgrown
  · exact henv

theorem declareType_all {context : Context} (hs : store.All R) (henv : Env.All R context.env)
    (t : TypeDeclaration) : (declareType setup store context t).All R := by
  refine ⟨hs.closures, ?_⟩
  intro method hmethod
  rcases List.mem_append.mp hmethod with hmethod | hmethod
  · exact hs.methods method hmethod
  · obtain ⟨m, -, rfl⟩ := List.mem_map.mp hmethod
    exact fun entry hentry => henv entry (List.mem_filter.mp hentry).1

/-- An item of a skipped branch adds no slot, or one under its own name. -/
theorem reserveItem_cases {context : Context} {item : Item} {after : Store × Context}
    (h : reserveItem setup store context item = after) :
    after.1.cells.length = store.cells.length ∧ after.2.env = context.env ∨
      after.1.cells.length = store.cells.length + 1 ∧
        ∃ name, (∀ d, item.declaration? = some d → d.name = name) ∧
          after.2.env = (name, store.cells.length) :: context.env := by
  subst h
  cases item with
  | variableDeclaration v =>
    simp only [reserveItem]
    split
    · exact .inl ⟨rfl, rfl⟩
    · refine .inr ⟨by simp [reserveSlot], v.name, ?_, rfl⟩
      rintro d hd
      rw [Option.some.inj hd]
  | functionDeclaration f =>
    refine .inr ⟨by simp [reserveItem, reserveSlot], f.name, ?_, rfl⟩
    rintro d hd
    cases hd
  | typeDeclaration t => exact .inl ⟨rfl, rfl⟩
  | trapDeclaration trap => exact .inl ⟨rfl, rfl⟩

theorem reserveItem_all {context : Context} {item : Item} {after : Store × Context}
    (h : reserveItem setup store context item = after) (hs : store.All R)
    (henv : Env.All R context.env) : after.1.All R := by
  subst h
  cases item with
  | variableDeclaration v =>
    simp only [reserveItem]
    split
    · exact hs
    · exact hs.of_code_eq rfl rfl
  | functionDeclaration f => exact hs.of_code_eq rfl rfl
  | typeDeclaration t => exact declareType_all hs henv t
  | trapDeclaration trap => exact hs

/-- A skipped branch makes one slot for each declaration listed. -/
theorem reserveItems_length (items : List Item) {store store' : Store} {context context' : Context}
    (h : items.foldl (fun sc item => reserveItem setup sc.1 sc.2 item) (store, context) =
      (store', context')) :
    store'.cells.length =
      store.cells.length + (slotDeclarations setup store context items).length := by
  induction items generalizing store context with
  | nil =>
    obtain ⟨rfl, -⟩ := Prod.mk.inj h
    rfl
  | cons item items ih =>
    rw [List.foldl_cons] at h
    simp only [slotDeclarations]
    generalize hafter : reserveItem setup store context item = after at h ⊢
    have hrest := ih h
    rcases reserveItem_cases hafter with ⟨hsame, -⟩ | ⟨hgrown, -⟩
    · rw [if_pos hsame]
      omega
    · rw [if_neg (by omega), List.length_cons]
      omega

theorem reserveItems_all (items : List Item) {store store' : Store} {context context' : Context}
    (h : items.foldl (fun sc item => reserveItem setup sc.1 sc.2 item) (store, context) =
      (store', context')) (hs : store.All R) (henv : Env.All R context.env)
    (hnew : ∀ name address, store.cells.length ≤ address → address < store'.cells.length →
      (∀ d, (slotDeclarations setup store context items)[address - store.cells.length]? =
        some (some d) → d.name = name) → R (name, address)) :
    store'.All R ∧ Env.All R context'.env := by
  induction items generalizing store context with
  | nil =>
    obtain ⟨rfl, rfl⟩ := Prod.mk.inj h
    exact ⟨hs, henv⟩
  | cons item items ih =>
    rw [List.foldl_cons] at h
    simp only [slotDeclarations] at hnew
    generalize hafter : reserveItem setup store context item = after at h hnew
    have hlength := reserveItems_length items h
    have hstore := reserveItem_all hafter hs henv
    rcases reserveItem_cases hafter with ⟨hsame, hcontext⟩ | ⟨hgrown, name, hname, hcontext⟩
    · rw [if_pos hsame] at hnew
      refine ih h hstore (by rw [hcontext]; exact henv) ?_
      rw [hsame]
      exact hnew
    · rw [if_neg (by omega)] at hnew
      refine ih h hstore ?_ ?_
      · rw [hcontext]
        refine henv.cons (hnew name _ (Nat.le_refl _) (by omega) ?_)
        rw [Nat.sub_self]
        exact fun d hd => hname d (Option.some.inj hd)
      · intro name' address hle hlt hdeclared
        refine hnew name' address (by omega) hlt ?_
        have hindex : address - store.cells.length = address - after.1.cells.length + 1 := by omega
        rw [hindex]
        exact hdeclared

end Binding

/-! ### Steps -/

section Steps

variable {setup : Setup} {R : String × Nat → Prop} {store store' : Store} {context : Context}
  {frames : List Frame} {fiber fiber' : Fiber}

theorem Enters.all {tail tail' : Bool} {e : Expression} {frames' : List Frame}
    (h : Enters setup tail e frames tail' frames') (hframes : ∀ frame ∈ frames, frame.All R) :
    ∀ frame ∈ frames', frame.All R := by
  cases h with
  | lowered => exact hframes
  | plain => exact hframes
  | forced => exact List.forall_mem_cons.mpr ⟨trivial, hframes⟩

theorem Evaluates.all {tail : Bool} {e : Expression}
    (h : Evaluates setup store context frames tail e store' fiber) (hs : store.All R)
    (henv : Env.All R context.env) (hframes : ∀ frame ∈ frames, frame.All R) :
    store'.All R ∧ fiber.All R := by
  cases h with
  | lambda parameters ty body span =>
    have hcode : Closure.All R ⟨parameters.map (·.name), body, context, false⟩ := henv
    exact ⟨hs.addClosure hcode, .of_idle (by simp) henv hframes⟩
  | literal | read | chosen | operands => exact ⟨hs, .of_idle (by simp) henv hframes⟩
  | tailBlock | scopeBlock | plainBlock | ifThenElse | match_ | logical =>
    exact ⟨hs, .of_idle (by simp) henv (List.forall_mem_cons.mpr ⟨trivial, hframes⟩)⟩

theorem Dispatches.all {name : String} {nameSpan : Span} {arguments : List Expression}
    {memberCall : Bool} {values : List Value}
    (h : Dispatches setup store context frames name nameSpan arguments memberCall values fiber)
    (hs : store.All R) (hfunctions : ∀ f ∈ setup.functions, f.2.All R)
    (henv : Env.All R context.env) (hframes : ∀ frame ∈ frames, frame.All R) : fiber.All R := by
  cases h with
  | builtin => exact .of_idle (by simp) henv hframes
  | binding hmember hprimitive hlookup hcell hcode =>
    exact .of_starts (hs.closures _ (List.mem_of_getElem? hcode)) henv hframes
  | function hprimitive hf hmember hplain => exact .of_starts (hfunctions _ hf) henv hframes
  | method hmember hprimitive hmethod => exact .of_starts (hs.methods _ hmethod) henv hframes

theorem Operates.all {operation : Operation} {values : List Value}
    (h : Operates setup store context frames operation values store' fiber)
    (hs : store.All R) (hfunctions : ∀ f ∈ setup.functions, f.2.All R)
    (henv : Env.All R context.env) (hframes : ∀ frame ∈ frames, frame.All R) :
    store'.All R ∧ fiber.All R := by
  have hwithin : ∀ frame ∈ (if operation.guarded then Frame.guard context
      else .builtin operation values) :: frames, frame.All R := by
    refine List.forall_mem_cons.mpr ⟨?_, hframes⟩
    cases operation.guarded with
    | true => exact henv
    | false => trivial
  cases h with
  | callback hmem hcode hready =>
    exact ⟨hs, .of_starts (hs.closures _ (List.mem_of_getElem? hcode)) henv hwithin⟩
  | method hmethod hready => exact ⟨hs, .of_starts (hs.methods _ hmethod) henv hwithin⟩
  | function hf hname hready => exact ⟨hs, .of_starts (hfunctions _ hf) henv hwithin⟩
  | ends => exact ⟨hs, .of_idle (by simp) henv hframes⟩
  | launches | serves =>
    exact ⟨hs.of_code_eq rfl rfl,
      .of_idle (by simp) henv (recordLaunch_all (registerLaunch_all hframes))⟩

/-- The names new in a step that only binds in the context. -/
theorem Delivers.all {value : Value} {frame : Frame}
    (h : Delivers setup store context frames value frame store' fiber') (hs : store.All R)
    (henv : Env.All R context.env) (hframe : frame.All R) (hframes : ∀ frame ∈ frames, frame.All R)
    (hnew : ∀ entry, NewName setup store ⟨.deliver value, context, frame :: frames⟩ store' entry →
      R entry) : store'.All R ∧ fiber'.All R := by
  cases h with
  | pass | forced | operands | statement | leaveBlock | builtin =>
    exact ⟨hs, .of_idle (by simp) henv hframes⟩
  | takeThen | takeRight =>
    exact ⟨hs, .of_idle (by simp) henv (List.forall_mem_cons.mpr ⟨trivial, hframes⟩)⟩
  | takeElse tail then_ else_ hvalue hreserve =>
    obtain ⟨hstore, hcontext⟩ := reserveItems_all _ hreserve hs henv
      fun name address hle hlt hd => hnew _ (.slot hle hlt hd)
    exact ⟨hstore, .of_idle (by simp) hcontext hframes⟩
  | leaveBranch skipped hreserve =>
    obtain ⟨hstore, hcontext⟩ := reserveItems_all _ hreserve hs henv
      fun name address hle hlt hd => hnew _ (.slot hle hlt hd)
    exact ⟨hstore, .of_idle (by simp) hcontext hframes⟩
  | decided right hvalue hreserve =>
    obtain ⟨hstore, hcontext⟩ := reserveItems_all _ hreserve hs henv
      fun name address hle hlt hd => hnew _ (.slot hle hlt hd)
    exact ⟨hstore, .of_idle (by simp) hcontext hframes⟩
  | takeArm harm hready hbind =>
    obtain ⟨hstore, hcontext⟩ := bindAll_all hbind hs henv fun name address hle hlt =>
      hnew _ (.slot hle hlt (by simp [Fiber.declares, Frame.declares]))
    exact ⟨hstore, .of_idle (by simp) hcontext (List.forall_mem_cons.mpr ⟨henv, hframes⟩)⟩
  | leaveArm outer | leaveGuard outer => exact ⟨hs, .of_idle (by simp) hframe hframes⟩
  | bind d tail rest hbind =>
    obtain ⟨hstore, hcontext⟩ := bindStatement_all hbind hs henv fun hlt =>
      hnew _ (.slot (Nat.le_refl _) hlt (by simp [Fiber.declares, Frame.declares]))
    exact ⟨hstore, .of_idle (by simp) hcontext hframes⟩
  | returns code caller launched hsettled => exact ⟨hs, .of_idle (by simp) hframe.2 hframes⟩
  | initialise d rest =>
    exact ⟨hs.of_code_eq rfl rfl, .of_idle (by simp) (henv.cons (hnew _ (.global rfl))) hframes⟩

/-- Where the names of a step come from. -/
theorem Moves.names (h : Moves setup store fiber store' fiber') (hs : store.All R)
    (hfunctions : ∀ f ∈ setup.functions, f.2.All R) (hfiber : fiber.All R)
    (hnew : ∀ entry, NewName setup store fiber store' entry → R entry) :
    store'.All R ∧ fiber'.All R := by
  obtain ⟨hstarts, henv, hframes⟩ := hfiber
  cases h with
  | eval henters hevaluates => exact hevaluates.all hs henv (henters.all hframes)
  | operand | runExpression | runBinding | itemBinding =>
    exact ⟨hs, .of_idle (by simp) henv (List.forall_mem_cons.mpr ⟨trivial, hframes⟩)⟩
  | tailCall | construct | runEnd | itemsEnd | itemOther | finished =>
    exact ⟨hs, .of_idle (by simp) henv hframes⟩
  | call hdispatch => exact ⟨hs, hdispatch.all hs hfunctions henv hframes⟩
  | callComputed hfunction hcode =>
    exact ⟨hs, .of_starts (hs.closures _ (List.mem_of_getElem? hcode)) henv hframes⟩
  | runFunction frames tail f rest hdeclare =>
    obtain ⟨hstore, hcontext⟩ := declareFunction_all hdeclare hs henv
      (hnew _ (.slot (Nat.le_refl _) (by rw [← (Prod.mk.inj hdeclare).1]; simp)
        (by simp [Fiber.declares])))
    exact ⟨hstore, .of_idle (by simp) hcontext hframes⟩
  | runType context frames tail t rest =>
    exact ⟨declareType_all hs henv t, .of_idle (by simp) henv hframes⟩
  | apply hbind =>
    have hcode := hstarts _ ⟨_, rfl⟩
    obtain ⟨hstore, hcontext⟩ := bindAll_all hbind hs hcode
      fun name address hle hlt => hnew _ (.slot hle hlt (by simp [Fiber.declares]))
    exact ⟨hstore, .of_idle (by simp) hcontext
      (List.forall_mem_cons.mpr ⟨⟨hcode, henv⟩, hframes⟩)⟩
  | operate hoperates => exact hoperates.all hs hfunctions henv hframes
  | @restart context caller frames rest arguments code scope launched store' env hdrop hsettled
      hbind =>
    have hrest : ∀ frame ∈ frames.dropWhile (!·.isActivation), frame.All R :=
      fun frame hframe => hframes frame ((List.dropWhile_sublist _).subset hframe)
    rw [hdrop] at hrest
    obtain ⟨hactivation, hrest⟩ := List.forall_mem_cons.mp hrest
    obtain ⟨hstore, hcontext⟩ := bindAll_all hbind hs hactivation.1
      fun name address hle hlt => hnew _ (.slot hle hlt (by simp [Fiber.declares]))
    exact ⟨hstore, .of_idle (by simp) hcontext
      (List.forall_mem_cons.mpr ⟨hactivation, hrest⟩)⟩
  | deliver hdelivers =>
    obtain ⟨hframe, hframes⟩ := List.forall_mem_cons.mp hframes
    exact hdelivers.all hs henv hframe hframes hnew

end Steps

end Quilon
