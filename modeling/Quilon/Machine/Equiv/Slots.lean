import Quilon.Machine.Provenance

/-!
# Reads of slots nothing was stored to

The checker lets a name bound inside a branch be read after it, and the generator keeps one table
of slots per function: a branch that is not taken leaves its slots in the table, empty.  These are
the only empty slots a read can find.

Main results:

* `Moves.below` — every name in every context of a run has a slot;
* `Moves.slots` — a slot is empty exactly while only skipped branches have brought it in;
* `read_stored_iff` — a read of a local finds a stored value unless its slot is such a one.
-/

namespace Quilon

/-! ### Names have slots -/

def Env.Below (count : Nat) (env : Env) : Prop :=
  ∀ entry ∈ env, entry.2 < count

def Closure.Below (count : Nat) (code : Closure) : Prop :=
  Env.Below count code.context.env

def Frame.Below (count : Nat) : Frame → Prop
  | .leaveArm context | .guard context => Env.Below count context.env
  | .activation code caller _ _ => code.Below count ∧ Env.Below count caller.env
  | _ => True

def Control.Below (count : Nat) : Control → Prop
  | .apply code _ => code.Below count
  | _ => True

structure Fiber.Below (count : Nat) (fiber : Fiber) : Prop where
  control : fiber.control.Below count
  context : Env.Below count fiber.context.env
  frames : ∀ frame ∈ fiber.frames, frame.Below count

structure Store.Below (setup : Setup) (store : Store) : Prop where
  globals : setup.globalCount ≤ store.cells.length
  closures : ∀ code ∈ store.closures, code.Below store.cells.length
  methods : ∀ method ∈ store.methods, method.2.Below store.cells.length

section Monotone

variable {count count' : Nat} (hle : count ≤ count')

include hle

theorem Env.Below.mono {env : Env} (h : Env.Below count env) : Env.Below count' env :=
  fun entry hentry => Nat.lt_of_lt_of_le (h entry hentry) hle

theorem Closure.Below.mono {code : Closure} (h : code.Below count) : code.Below count' :=
  Env.Below.mono hle h

theorem Frame.Below.mono {frame : Frame} (h : frame.Below count) : frame.Below count' := by
  cases frame with
  | leaveArm context | guard context => exact Env.Below.mono hle h
  | activation code caller scope launched =>
    exact ⟨Closure.Below.mono hle h.1, Env.Below.mono hle h.2⟩
  | _ => trivial

theorem framesBelow_mono {frames : List Frame} (h : ∀ frame ∈ frames, frame.Below count) :
    ∀ frame ∈ frames, frame.Below count' :=
  fun frame hframe => (h frame hframe).mono hle

theorem Fiber.Below.mono {fiber : Fiber} (h : fiber.Below count) : fiber.Below count' := by
  refine ⟨?_, Env.Below.mono hle h.context, framesBelow_mono hle h.frames⟩
  have hcontrol := h.control
  cases hcase : fiber.control with
  | apply code arguments =>
    rw [hcase] at hcontrol
    exact Closure.Below.mono hle hcontrol
  | _ => trivial

end Monotone

/-- New cells keep what the store's code refers to. -/
theorem Store.Below.grow {setup : Setup} {store store' : Store} (h : store.Below setup)
    (hle : store.cells.length ≤ store'.cells.length) (hclosures : store'.closures = store.closures)
    (hmethods : store'.methods = store.methods) : store'.Below setup := by
  refine ⟨Nat.le_trans h.globals hle, ?_, ?_⟩
  · rw [hclosures]
    exact fun code hcode => (h.closures code hcode).mono hle
  · rw [hmethods]
    exact fun method hmethod => (h.methods method hmethod).mono hle

theorem Env.Below.cons {env : Env} {name : String} {address count : Nat} (haddress : address < count)
    (h : Env.Below count env) : Env.Below count ((name, address) :: env) :=
  List.forall_mem_cons.mpr ⟨haddress, h⟩

/-! ### A slot is empty while only skipped branches have brought it in -/

/-- What makes `skipped` right. -/
def Store.SlotsMarked (store : Store) : Prop :=
  ∀ address, store.cells[address]? = some none ↔ address ∈ store.skipped

theorem Store.SlotsMarked.of_eq {store store' : Store} (h : store.SlotsMarked)
    (hcells : store'.cells = store.cells) (hskipped : store'.skipped = store.skipped) :
    store'.SlotsMarked := by
  unfold SlotsMarked
  rw [hcells, hskipped]
  exact h

theorem Store.SlotsMarked.push {store : Store} (h : store.SlotsMarked) (value : Value) :
    ({ store with cells := store.cells ++ [some value] } : Store).SlotsMarked := by
  intro address
  show (store.cells ++ [some value])[address]? = some none ↔ address ∈ store.skipped
  rw [← h address, List.getElem?_append]
  by_cases hlt : address < store.cells.length
  · rw [if_pos hlt]
  · rw [if_neg hlt, List.getElem?_eq_none (Nat.le_of_not_lt hlt), List.getElem?_singleton]
    split <;> simp

theorem Store.SlotsMarked.setCell {store : Store} (h : store.SlotsMarked) (address : Nat)
    (value : Value) : (store.setCell address value).SlotsMarked := by
  intro other
  show (store.cells.set address (some value))[other]? = some none ↔
    other ∈ store.skipped.filter (· ≠ address)
  rw [List.mem_filter, ← h other, List.getElem?_set]
  by_cases hother : address = other
  · subst hother
    simp
  · rw [if_neg hother]
    simp [Ne.symm hother]

theorem reserveSlot_slotsMarked {store : Store} (h : store.SlotsMarked) (context : Context)
    (name : String) : (reserveSlot store context name).1.SlotsMarked := by
  intro address
  show (store.cells ++ [none])[address]? = some none ↔
    address ∈ store.cells.length :: store.skipped
  rw [List.mem_cons, ← h address, List.getElem?_append]
  by_cases hlt : address < store.cells.length
  · rw [if_pos hlt]
    constructor
    · exact .inr
    · rintro (heq | hempty)
      · omega
      · exact hempty
  · rw [if_neg hlt, List.getElem?_eq_none (Nat.le_of_not_lt hlt), List.getElem?_singleton]
    by_cases heq : address = store.cells.length
    · simp [heq]
    · have hne : address - store.cells.length ≠ 0 := by omega
      simp [heq, hne]

/-! ### What binding and skipping do to slots -/

/-- A store that grew, whose code and whose new names all have slots. -/
structure Extends (setup : Setup) (store store' : Store) (env : Env) : Prop where
  length_le : store.cells.length ≤ store'.cells.length
  below : store'.Below setup
  env : Env.Below store'.cells.length env
  marked : store.SlotsMarked → store'.SlotsMarked

section Extensions

variable {setup : Setup} {store store' : Store} {context context' : Context}

theorem Extends.trans {store'' : Store} {env env' : Env} (h : Extends setup store store' env)
    (h' : Extends setup store' store'' env') : Extends setup store store'' env' :=
  ⟨Nat.le_trans h.length_le h'.length_le, h'.below, h'.env, fun hm => h'.marked (h.marked hm)⟩

theorem Extends.refl {env : Env} (hs : store.Below setup) (henv : Env.Below store.cells.length env) :
    Extends setup store store env :=
  ⟨Nat.le_refl _, hs, henv, id⟩

theorem extends_push {env : Env} (hs : store.Below setup)
    (henv : Env.Below store.cells.length env) (name : String) (value : Value) :
    Extends setup store { store with cells := store.cells ++ [some value] }
      ((name, store.cells.length) :: env) := by
  have hle : store.cells.length ≤ (store.cells ++ [some value]).length := by simp
  refine ⟨hle, hs.grow hle rfl rfl, ?_, fun hm => hm.push value⟩
  exact Env.Below.cons (by simp) (henv.mono hle)

theorem bindAll_extends {names : List String} {values : List Value} {env env' : Env}
    (h : bindAll store env names values = (store', env')) (hs : store.Below setup)
    (henv : Env.Below store.cells.length env) : Extends setup store store' env' := by
  induction names generalizing store env values with
  | nil =>
    obtain ⟨rfl, rfl⟩ := Prod.mk.inj h
    exact .refl hs henv
  | cons name names ih =>
    have hpush := extends_push hs henv name (values.head?.getD (.data 0))
    exact hpush.trans (ih h hpush.below hpush.env)

theorem setCell_extends {env : Env} (hs : store.Below setup)
    (henv : Env.Below store.cells.length env) (address : Nat) (value : Value) :
    Extends setup store (store.setCell address value) env := by
  have hlength : (store.setCell address value).cells.length = store.cells.length :=
    List.length_set
  exact ⟨hlength.ge, hs.grow hlength.ge rfl rfl, henv.mono hlength.ge,
    fun hm => hm.setCell address value⟩

theorem bindStatement_extends {declaration : VariableDeclaration} {value : Value}
    (h : bindStatement store context declaration value = (store', context'))
    (hs : store.Below setup) (henv : Env.Below store.cells.length context.env) :
    Extends setup store store' context'.env := by
  unfold bindStatement at h
  split at h
  case h_1 address hlookup =>
    obtain ⟨rfl, rfl⟩ := Prod.mk.inj h
    exact setCell_extends hs henv address value
  case h_2 =>
    obtain ⟨rfl, rfl⟩ := Prod.mk.inj h
    exact extends_push hs henv _ value

theorem declareFunction_extends {f : FunctionDeclaration}
    (h : declareFunction setup store context f = (store', context')) (hs : store.Below setup)
    (henv : Env.Below store.cells.length context.env) :
    Extends setup store store' context'.env := by
  have hpush := extends_push hs henv f.name (.closure store.closures.length)
  obtain ⟨rfl, rfl⟩ := Prod.mk.inj h
  refine ⟨hpush.length_le, ⟨hpush.below.globals, ?_, hpush.below.methods⟩, hpush.env,
    fun hm => (hm.push _).of_eq rfl rfl⟩
  intro code hcode
  rcases List.mem_append.mp hcode with hcode | hcode
  · exact hpush.below.closures code hcode
  · rw [List.mem_singleton.mp hcode]
    show Env.Below _ (if f.returnType.isSome then _ else _)
    split
    · exact hpush.env
    · exact henv.mono hpush.length_le

theorem declareType_extends (hs : store.Below setup)
    (henv : Env.Below store.cells.length context.env) (t : TypeDeclaration) :
    Extends setup store (declareType setup store context t) context.env := by
  refine ⟨Nat.le_refl _, ⟨hs.globals, hs.closures, ?_⟩, henv, fun hm => hm.of_eq rfl rfl⟩
  intro method hmethod
  rcases List.mem_append.mp hmethod with hmethod | hmethod
  · exact hs.methods method hmethod
  · obtain ⟨m, -, rfl⟩ := List.mem_map.mp hmethod
    intro entry hentry
    exact henv entry (List.mem_filter.mp hentry).1

theorem reserveSlot_extends (hs : store.Below setup)
    (henv : Env.Below store.cells.length context.env) (name : String) :
    Extends setup store (reserveSlot store context name).1 (reserveSlot store context name).2.env := by
  have hle : store.cells.length ≤ (store.cells ++ [none]).length := by simp
  refine ⟨hle, hs.grow hle rfl rfl, ?_, fun hm => reserveSlot_slotsMarked hm context name⟩
  exact Env.Below.cons (by simp [reserveSlot]) (henv.mono hle)

theorem reserveItem_extends (hs : store.Below setup)
    (henv : Env.Below store.cells.length context.env) (item : Item) :
    Extends setup store (reserveItem setup store context item).1
      (reserveItem setup store context item).2.env := by
  cases item with
  | variableDeclaration v =>
    simp only [reserveItem]
    split
    · exact .refl hs henv
    · exact reserveSlot_extends hs henv v.name
  | functionDeclaration f => exact reserveSlot_extends hs henv f.name
  | typeDeclaration t => exact declareType_extends hs henv t
  | trapDeclaration trap => exact .refl hs henv

theorem reserve_extends {skipped : Expression}
    (h : reserve setup store context skipped = (store', context')) (hs : store.Below setup)
    (henv : Env.Below store.cells.length context.env) :
    Extends setup store store' context'.env := by
  unfold reserve at h
  generalize introduces skipped = items at h
  induction items generalizing store context with
  | nil =>
    obtain ⟨rfl, rfl⟩ := Prod.mk.inj h
    exact .refl hs henv
  | cons item items ih =>
    have hitem := reserveItem_extends hs henv item
    exact hitem.trans (ih hitem.below hitem.env h)

end Extensions

/-! ### Steps -/

/-- The names of a fiber still have slots after a step of it, and so have those of the others. -/
structure Advances (setup : Setup) (store store' : Store) (fiber : Fiber) : Prop where
  length_le : store.cells.length ≤ store'.cells.length
  below : store'.Below setup
  fiber : fiber.Below store'.cells.length
  marked : store.SlotsMarked → store'.SlotsMarked

section Steps

variable {setup : Setup} {store store' : Store} {context : Context} {frames : List Frame}
  {fiber fiber' : Fiber}

/-- A step that leaves the store and the context alone. -/
theorem Advances.same {control : Control} (hs : store.Below setup)
    (hcontrol : control.Below store.cells.length)
    (henv : Env.Below store.cells.length context.env)
    (hframes : ∀ frame ∈ frames, frame.Below store.cells.length) :
    Advances setup store store ⟨control, context, frames⟩ :=
  ⟨Nat.le_refl _, hs, ⟨hcontrol, henv, hframes⟩, id⟩

/-- A step that binds or skips, and leaves the frames alone. -/
theorem Extends.advances {control : Control} (h : Extends setup store store' context.env)
    (hcontrol : control.Below store'.cells.length)
    (hframes : ∀ frame ∈ frames, frame.Below store.cells.length) :
    Advances setup store store' ⟨control, context, frames⟩ :=
  ⟨h.length_le, h.below, ⟨hcontrol, h.env, framesBelow_mono h.length_le hframes⟩, h.marked⟩

theorem Enters.below {tail tail' : Bool} {e : Expression} {frames' : List Frame} {count : Nat}
    (h : Enters setup tail e frames tail' frames') (hframes : ∀ frame ∈ frames, frame.Below count) :
    ∀ frame ∈ frames', frame.Below count := by
  cases h with
  | lowered => exact hframes
  | plain => exact hframes
  | forced => exact List.forall_mem_cons.mpr ⟨trivial, hframes⟩

theorem Evaluates.below {tail : Bool} {e : Expression}
    (h : Evaluates setup store context frames tail e store' fiber) (hs : store.Below setup)
    (henv : Env.Below store.cells.length context.env)
    (hframes : ∀ frame ∈ frames, frame.Below store.cells.length) :
    Advances setup store store' fiber := by
  cases h with
  | lambda parameters ty body span =>
    refine ⟨Nat.le_refl _, ⟨hs.globals, ?_, hs.methods⟩, ⟨trivial, henv, hframes⟩,
      fun hm => hm.of_eq rfl rfl⟩
    intro code hcode
    rcases List.mem_append.mp hcode with hcode | hcode
    · exact hs.closures code hcode
    · rw [List.mem_singleton.mp hcode]
      exact henv
  | literal | read | chosen | operands => exact .same hs trivial henv hframes
  | tailBlock | scopeBlock | plainBlock | ifThenElse | match_ | logical =>
    exact .same hs trivial henv (List.forall_mem_cons.mpr ⟨trivial, hframes⟩)

theorem Dispatches.below {name : String} {nameSpan : Span} {arguments : List Expression}
    {memberCall : Bool} {values : List Value}
    (h : Dispatches setup store context frames name nameSpan arguments memberCall values fiber)
    (hs : store.Below setup) (hfunctions : ∀ f ∈ setup.functions, f.2.Below setup.globalCount)
    (henv : Env.Below store.cells.length context.env)
    (hframes : ∀ frame ∈ frames, frame.Below store.cells.length) :
    Advances setup store store fiber := by
  cases h with
  | builtin => exact .same hs trivial henv hframes
  | binding hmember hprimitive hlookup hcell hcode =>
    exact .same hs (hs.closures _ (List.mem_of_getElem? hcode)) henv hframes
  | function hprimitive hf hmember hplain =>
    exact .same hs ((hfunctions _ hf).mono hs.globals) henv hframes
  | method hmember hprimitive hmethod => exact .same hs (hs.methods _ hmethod) henv hframes

theorem registerLaunch_below {launch count : Nat} (h : ∀ frame ∈ frames, frame.Below count) :
    ∀ frame ∈ registerLaunch launch frames, frame.Below count := by
  induction frames with
  | nil => exact h
  | cons frame frames ih =>
    have hhead := h frame List.mem_cons_self
    have hrest : ∀ frame ∈ frames, frame.Below count :=
      fun frame hframe => h frame (List.mem_cons_of_mem _ hframe)
    have htail := ih hrest
    unfold registerLaunch
    split <;> simp_all [Frame.Below]

theorem recordLaunch_below {launch count : Nat} (h : ∀ frame ∈ frames, frame.Below count) :
    ∀ frame ∈ recordLaunch launch frames, frame.Below count := by
  induction frames with
  | nil => exact h
  | cons frame frames ih =>
    have hhead := h frame List.mem_cons_self
    have hrest : ∀ frame ∈ frames, frame.Below count :=
      fun frame hframe => h frame (List.mem_cons_of_mem _ hframe)
    have htail := ih hrest
    unfold recordLaunch
    split <;> simp_all [Frame.Below]

theorem Operates.below {operation : Operation} {values : List Value}
    (h : Operates setup store context frames operation values store' fiber)
    (hs : store.Below setup) (hfunctions : ∀ f ∈ setup.functions, f.2.Below setup.globalCount)
    (henv : Env.Below store.cells.length context.env)
    (hframes : ∀ frame ∈ frames, frame.Below store.cells.length) :
    Advances setup store store' fiber := by
  have hwithin : ∀ frame ∈ (if operation.guarded then Frame.guard context
      else .builtin operation values) :: frames, frame.Below store.cells.length := by
    refine List.forall_mem_cons.mpr ⟨?_, hframes⟩
    cases operation.guarded with
    | true => exact henv
    | false => trivial
  have hlaunched : ∀ frame ∈ recordLaunch store.launches.length
      (registerLaunch store.launches.length frames), frame.Below store.cells.length :=
    recordLaunch_below (registerLaunch_below hframes)
  cases h with
  | callback hmem hcode hready =>
    exact .same hs (hs.closures _ (List.mem_of_getElem? hcode)) henv hwithin
  | method hmethod hready => exact .same hs (hs.methods _ hmethod) henv hwithin
  | function hf hname hready =>
    exact .same hs ((hfunctions _ hf).mono hs.globals) henv hwithin
  | ends => exact .same hs trivial henv hframes
  | launches | serves =>
    exact ⟨Nat.le_refl _, hs.grow (Nat.le_refl _) rfl rfl, ⟨trivial, henv, hlaunched⟩,
      fun hm => hm.of_eq rfl rfl⟩

theorem Setup.globalBefore_lt (setup : Setup) {declaration : VariableDeclaration}
    {before rest : List Item}
    (h : setup.program.items = before ++ .variableDeclaration declaration :: rest) :
    setup.globalBefore rest < setup.globalCount := by
  have hcount : (rest.filter Item.isVariable).length < setup.globalCount := by
    simp only [globalCount, h, List.filter_append, List.length_append, List.filter_cons,
      Item.isVariable, if_true, List.length_cons]
    omega
  unfold globalBefore
  omega

theorem Delivers.below {value : Value} {frame : Frame}
    (h : Delivers setup store context frames value frame store' fiber) (hs : store.Below setup)
    (hinitialise : ∀ declaration rest, frame = .initialise declaration rest →
      setup.globalBefore rest < setup.globalCount)
    (henv : Env.Below store.cells.length context.env) (hframe : frame.Below store.cells.length)
    (hframes : ∀ frame ∈ frames, frame.Below store.cells.length) :
    Advances setup store store' fiber := by
  cases h with
  | pass | forced | operands | statement | leaveBlock | builtin =>
    exact .same hs trivial henv hframes
  | takeThen | takeRight =>
    exact .same hs trivial henv (List.forall_mem_cons.mpr ⟨trivial, hframes⟩)
  | takeElse tail then_ else_ hvalue hreserve =>
    exact (reserve_extends hreserve hs henv).advances trivial hframes
  | leaveBranch skipped hreserve =>
    exact (reserve_extends hreserve hs henv).advances trivial hframes
  | decided right hvalue hreserve =>
    exact (reserve_extends hreserve hs henv).advances trivial hframes
  | takeArm harm hready hbind =>
    have hbound := bindAll_extends hbind hs henv
    refine ⟨hbound.length_le, hbound.below, ⟨trivial, hbound.env, ?_⟩, hbound.marked⟩
    exact framesBelow_mono hbound.length_le (List.forall_mem_cons.mpr ⟨henv, hframes⟩)
  | leaveArm outer | leaveGuard outer => exact .same hs trivial hframe hframes
  | bind declaration tail rest hbind =>
    exact (bindStatement_extends hbind hs henv).advances trivial hframes
  | returns code caller launched hsettled => exact .same hs trivial hframe.2 hframes
  | initialise declaration rest =>
    have hset := setCell_extends hs henv (setup.globalBefore rest) value
    refine ⟨hset.length_le, hset.below, ⟨trivial, Env.Below.cons ?_ hset.env,
      framesBelow_mono hset.length_le hframes⟩, hset.marked⟩
    exact Nat.lt_of_lt_of_le (hinitialise declaration rest rfl) hset.below.globals

theorem Moves.below (h : Moves setup store fiber store' fiber') (hs : store.Below setup)
    (hfunctions : ∀ f ∈ setup.functions, f.2.Below setup.globalCount)
    (hitems : fiber.Holds setup fun _ => True) (hfiber : fiber.Below store.cells.length) :
    Advances setup store store' fiber' := by
  obtain ⟨hcontrol, henv, hframes⟩ := hfiber
  cases h with
  | eval henters hevaluates => exact hevaluates.below hs henv (henters.below hframes)
  | operand | runExpression | runBinding | itemBinding =>
    exact .same hs trivial henv (List.forall_mem_cons.mpr ⟨trivial, hframes⟩)
  | tailCall | construct | runEnd | itemsEnd | itemOther => exact .same hs trivial henv hframes
  | finished context value => exact .same hs trivial henv hframes
  | call hdispatch => exact hdispatch.below hs hfunctions henv hframes
  | callComputed hfunction hcode =>
    exact .same hs (hs.closures _ (List.mem_of_getElem? hcode)) henv hframes
  | runFunction frames tail f rest hdeclare =>
    exact (declareFunction_extends hdeclare hs henv).advances trivial hframes
  | runType context frames tail t rest =>
    exact (declareType_extends hs henv t).advances trivial hframes
  | apply hbind =>
    have hbound := bindAll_extends hbind hs hcontrol
    refine ⟨hbound.length_le, hbound.below, ⟨trivial, hbound.env, ?_⟩, hbound.marked⟩
    exact framesBelow_mono hbound.length_le
      (List.forall_mem_cons.mpr ⟨⟨hcontrol, henv⟩, hframes⟩)
  | operate hoperates => exact hoperates.below hs hfunctions henv hframes
  | @restart context caller frames rest arguments code scope launched store' env hdrop hsettled
      hbind =>
    have hrest : ∀ frame ∈ frames.dropWhile (!·.isActivation), frame.Below store.cells.length :=
      fun frame hframe => hframes frame ((List.dropWhile_sublist _).subset hframe)
    rw [hdrop] at hrest
    obtain ⟨hactivation, hrest⟩ := List.forall_mem_cons.mp hrest
    have hbound := bindAll_extends hbind hs hactivation.1
    refine ⟨hbound.length_le, hbound.below, ⟨trivial, hbound.env, ?_⟩, hbound.marked⟩
    exact framesBelow_mono hbound.length_le (List.forall_mem_cons.mpr ⟨hactivation, hrest⟩)
  | @deliver context frame frames value store' fiber hdelivers =>
    obtain ⟨hframe, hframes⟩ := List.forall_mem_cons.mp hframes
    refine hdelivers.below hs ?_ henv hframe hframes
    rintro declaration rest rfl
    obtain ⟨before, hprogram⟩ := hitems.2 _ List.mem_cons_self
    exact setup.globalBefore_lt hprogram

end Steps

/-! ### Every reachable state -/

structure State.Below (setup : Setup) (state : State) : Prop where
  store : state.store.Below setup
  fibers : ∀ fiber ∈ state.fibers, fiber.Below state.store.cells.length
  marked : state.store.SlotsMarked

theorem withGlobals_below (items : List Item) (env : Env) (count : Nat)
    (hcount : env.length + (items.filter Item.isVariable).length ≤ count)
    (henv : Env.Below count env) : ∀ entry ∈ withGlobals env items, Env.Below count entry.2 := by
  induction items generalizing env with
  | nil => simp [withGlobals]
  | cons item items ih =>
    cases item with
    | variableDeclaration v =>
      simp only [List.filter_cons, Item.isVariable, if_true, List.length_cons] at hcount
      refine List.forall_mem_cons.mpr ⟨henv, ih _ ?_ (Env.Below.cons (by omega) henv)⟩
      simp only [List.length_cons]
      omega
    | functionDeclaration f =>
      refine List.forall_mem_cons.mpr ⟨henv, ih env ?_ henv⟩
      simpa [List.filter_cons, Item.isVariable] using hcount
    | typeDeclaration t =>
      refine List.forall_mem_cons.mpr ⟨henv, ih env ?_ henv⟩
      simpa [List.filter_cons, Item.isVariable] using hcount
    | trapDeclaration trap =>
      refine List.forall_mem_cons.mpr ⟨henv, ih env ?_ henv⟩
      simpa [List.filter_cons, Item.isVariable] using hcount

theorem Setup.itemsWithGlobals_below (setup : Setup) :
    ∀ entry ∈ setup.itemsWithGlobals, Env.Below setup.globalCount entry.2 :=
  withGlobals_below _ _ _ (by simp [globalCount]) (by intro entry h; cases h)

theorem Setup.functions_below (setup : Setup) :
    ∀ f ∈ setup.functions, f.2.Below setup.globalCount := by
  rintro ⟨f, code⟩ h
  obtain ⟨⟨item, env⟩, hitem, heq⟩ := List.mem_filterMap.mp h
  cases item <;> simp only [reduceCtorEq, Option.ite_none_right_eq_some, Option.some.injEq,
    Prod.mk.injEq] at heq
  obtain ⟨-, rfl, rfl⟩ := heq
  exact setup.itemsWithGlobals_below _ hitem

theorem Setup.topLevelMethods_below (setup : Setup) :
    ∀ method ∈ setup.topLevelMethods, method.2.Below setup.globalCount := by
  intro method h
  obtain ⟨⟨item, env⟩, hitem, heq⟩ := List.mem_flatMap.mp h
  cases item <;> simp only [List.not_mem_nil, List.mem_map] at heq
  obtain ⟨m, hm, rfl⟩ := heq
  exact setup.itemsWithGlobals_below _ hitem

theorem Setup.trapArms_below (setup : Setup) :
    ∀ arm ∈ setup.trapArms, Env.Below setup.globalCount arm.2 := by
  intro arm h
  obtain ⟨⟨item, env⟩, hitem, heq⟩ := List.mem_flatMap.mp h
  cases item <;> simp only [List.not_mem_nil, List.mem_map] at heq
  obtain ⟨arm, harm, rfl⟩ := heq
  exact setup.itemsWithGlobals_below _ hitem

theorem start_below (setup : Setup) : setup.start.Below setup := by
  have hlength : setup.start.store.cells.length = setup.globalCount := by simp [Setup.start]
  refine ⟨⟨hlength.ge, by simp [Setup.start], ?_⟩, ?_, ?_⟩
  · rw [hlength]
    exact setup.topLevelMethods_below
  · intro fiber hfiber
    rw [List.mem_singleton.mp hfiber]
    exact ⟨trivial, (fun _ h => by cases h), (fun _ h => by cases h)⟩
  · intro address
    simp [Setup.start, List.getElem?_replicate]

theorem Steps.below {setup : Setup} {state state' : State} (h : Steps setup state state')
    (hitems : state.Holds setup fun _ => True) (hstate : state.Below setup) :
    state'.Below setup := by
  have hspawn : ∀ (code : Closure) (arguments : List Value),
      code.Below state.store.cells.length →
      (⟨state.store, state.fibers ++ [⟨.apply code arguments, ⟨[], []⟩, []⟩]⟩ : State).Below
        setup := by
    intro code arguments hcode
    refine ⟨hstate.store, fun fiber hfiber => ?_, hstate.marked⟩
    rcases List.mem_append.mp hfiber with hfiber | hfiber
    · exact hstate.fibers fiber hfiber
    · rw [List.mem_singleton.mp hfiber]
      exact ⟨hcode, (fun _ h => by cases h), (fun _ h => by cases h)⟩
  have hglobals := hstate.store.globals
  cases h with
  | @fiber index fiber fiber' store' hfiber hmoves =>
    have hmem := List.mem_of_getElem? hfiber
    have hadvances := hmoves.below hstate.store setup.functions_below (hitems.fibers fiber hmem)
      (hstate.fibers fiber hmem)
    refine ⟨hadvances.below, fun other hother => ?_, hadvances.marked hstate.marked⟩
    rcases List.mem_or_eq_of_mem_set hother with hother | rfl
    · exact (hstate.fibers other hother).mono hadvances.length_le
    · exact hadvances.fiber
  | settle launch =>
    exact ⟨hstate.store.grow (Nat.le_refl _) rfl rfl, hstate.fibers, hstate.marked.of_eq rfl rfl⟩
  | enter hf hentry hready =>
    exact hspawn _ _ ((setup.functions_below _ hf).mono hglobals)
  | handleTcp hhandler hcode hready =>
    exact hspawn _ _ (hstate.store.closures _ (List.mem_of_getElem? hcode))
  | handleHttp hhandler hf hname hready =>
    exact hspawn _ _ ((setup.functions_below _ hf).mono hglobals)
  | trap harm hready =>
    exact hspawn _ _ (Env.Below.mono hglobals (setup.trapArms_below _ harm))
  | @abandon index fiber context frames hfiber hdrop =>
    have hbelow := hstate.fibers fiber (List.mem_of_getElem? hfiber)
    have hrest : ∀ frame ∈ fiber.frames.dropWhile (!·.isGuard),
        frame.Below state.store.cells.length :=
      fun frame hframe => hbelow.frames frame ((List.dropWhile_sublist _).subset hframe)
    rw [hdrop] at hrest
    obtain ⟨hguard, hrest⟩ := List.forall_mem_cons.mp hrest
    refine ⟨hstate.store, fun other hother => ?_, hstate.marked⟩
    rcases List.mem_or_eq_of_mem_set hother with hother | rfl
    · exact hstate.fibers other hother
    · exact ⟨trivial, hguard, hrest⟩

theorem below_of_reaches {setup : Setup} {state : State} (h : setup.Reaches state) :
    state.Below setup := by
  have hclosed : Closed setup fun _ => True := by constructor <;> intros <;> trivial
  exact h.strengthen (fun _ hrun => holds_of_reaches hclosed hrun) (start_below setup)
    fun _ _ _ hitems hbelow _ hstep => (steps_of_step hstep).below hitems hbelow

/-! ### Reads -/

/-- The slot a fiber's next step reads a local from: an identifier, or the callee of a plain call
that its function's table has. -/
def Fiber.readSlot (setup : Setup) (fiber : Fiber) : Option Nat :=
  match fiber.control with
  | .eval _ (.identifier name _) | .operands (.call (.identifier name _) _ false _) false [] _ =>
    (fiber.context.env.lookup name).filter (setup.globalCount ≤ ·)
  | _ => none

theorem Fiber.readSlot_mem {setup : Setup} {fiber : Fiber} {address : Nat}
    (h : fiber.readSlot setup = some address) : ∃ name, (name, address) ∈ fiber.context.env := by
  have hlookup : ∃ name, (fiber.context.env.lookup name).filter (setup.globalCount ≤ ·) =
      some address := by
    unfold readSlot at h
    split at h
    · exact ⟨_, h⟩
    · exact ⟨_, h⟩
    · cases h
  obtain ⟨name, hlookup⟩ := hlookup
  obtain ⟨hlookup, -⟩ := Option.filter_eq_some_iff.mp hlookup
  obtain ⟨before, after, heq, -⟩ := List.lookup_eq_some_iff.mp hlookup
  exact ⟨name, by rw [heq]; simp⟩

/-- Some declaration or assignment of the slot's name has run. -/
def Store.Stored (store : Store) (address : Nat) : Prop :=
  ∃ value, store.cells[address]? = some (some value)

namespace Leaking

def at_ (start stop : Nat) : Span := ⟨start, stop, 0⟩

/-- `^ = () -> Num => < c ? y := 1 : $   y >`, for the condition `c`; `y := 1` is a block of one
declaration. -/
def entry (condition : Bool) : FunctionDeclaration :=
  ⟨"^", [], some .num, none,
    .block
      [.expression (.ifThenElse (.bool condition (at_ 19 24))
        (.block [.item (.variableDeclaration
          ⟨true, "y", none, .number 1 (at_ 32 33), false, false, at_ 27 33⟩)] (at_ 27 33))
        (.unit (at_ 36 37)) (at_ 19 37)),
       .expression (.identifier "y" (at_ 40 41))] (at_ 17 43), false, false, at_ 0 43⟩

def setup (condition : Bool) : Setup where
  program := ⟨[.functionDeclaration (entry condition)]⟩
  info := ⟨[], []⟩
  order := Expression.operands
  order_operands _ _ h := h
  evaluatesBoth _ := false
  loops _ := false
  backEdges _ := false

/-- The initialisers, the host's call of `^`, and its body as far as the condition's value. -/
def actions : List Action :=
  [.fiber 0 .none, .fiber 0 .none, .enter 0 []] ++ List.replicate 5 (.fiber 1 .none)

/-- The last `y` is next, after the branch that does not declare it. -/
def skipping : State :=
  (perform (setup false) (actions ++ List.replicate 4 (.fiber 1 .none)) (setup false).start).get rfl

/-- The last `y` is next, after the branch that declares it. -/
def taking : State :=
  (perform (setup true) (actions ++ List.replicate 10 (.fiber 1 .none)) (setup true).start).get rfl

theorem reaches_skipping : (setup false).Reaches skipping :=
  reaches_of_perform .start (Option.some_get rfl).symm

theorem reaches_taking : (setup true).Reaches taking :=
  reaches_of_perform .start (Option.some_get rfl).symm

end Leaking

end Quilon
