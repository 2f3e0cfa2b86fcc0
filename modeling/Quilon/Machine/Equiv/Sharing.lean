import Quilon.Machine.Equiv.Names
import Quilon.Machine.Equiv.Slots

/-!
# What fibers share

A program that the fiber-sharing check accepts has no race on a `:=` variable in a run whose steps
are all `Allowed`: the check follows plain calls of top-level functions and looks at the locals
beside a launch, and what is reached in these ways is declared with `@`.

The invariant of a watched run says where every name's cell comes from (`Named`), that handlers and
arms run code that is `Unshared`, and that the accesses so far are `Safe`.

Main results:

* `accepted_raceFree` — an accepted program has no race in a run of allowed steps;
* `method_reaches_shared` — the handler of an accepted program may reach a `:=` global through a
  method.
-/

namespace Quilon

/-! ### Handlers run no items -/

def NoItems (frames : List Frame) : Prop :=
  ∀ frame ∈ frames, ∀ d rest, frame ≠ .initialise d rest

/-- A fiber that does not run the items of the program. -/
structure Fiber.Apart (fiber : Fiber) : Prop where
  control : ∀ rest, fiber.control ≠ .items rest
  frames : NoItems fiber.frames

section Apart

variable {setup : Setup} {store store' : Store} {context : Context} {frames : List Frame}
  {fiber fiber' : Fiber}

theorem NoItems.cons {frame : Frame} (hframe : ∀ d rest, frame ≠ .initialise d rest)
    (h : NoItems frames) : NoItems (frame :: frames) :=
  List.forall_mem_cons.mpr ⟨hframe, h⟩

theorem registerLaunch_noItems {launch : Nat} (h : NoItems frames) :
    NoItems (registerLaunch launch frames) := by
  induction frames with
  | nil => exact h
  | cons frame frames ih =>
    have hhead := h frame List.mem_cons_self
    have hrest : NoItems frames := fun frame hframe => h frame (List.mem_cons_of_mem _ hframe)
    have htail := ih hrest
    unfold registerLaunch
    split <;> simp_all [NoItems]

theorem recordLaunch_noItems {launch : Nat} (h : NoItems frames) :
    NoItems (recordLaunch launch frames) := by
  induction frames with
  | nil => exact h
  | cons frame frames ih =>
    have hhead := h frame List.mem_cons_self
    have hrest : NoItems frames := fun frame hframe => h frame (List.mem_cons_of_mem _ hframe)
    have htail := ih hrest
    unfold recordLaunch
    split <;> simp_all [NoItems]

theorem Evaluates.apart {tail : Bool} {e : Expression}
    (h : Evaluates setup store context frames tail e store' fiber) (hframes : NoItems frames) :
    fiber.Apart := by
  cases h with
  | literal | read | chosen | lambda | operands => exact ⟨by simp, hframes⟩
  | tailBlock | scopeBlock | plainBlock | ifThenElse | match_ | logical =>
    exact ⟨by simp, NoItems.cons (by simp) hframes⟩

theorem Operates.apart {operation : Operation} {values : List Value}
    (h : Operates setup store context frames operation values store' fiber)
    (hframes : NoItems frames) : fiber.Apart := by
  cases h with
  | callback | method | function => exact ⟨by simp, NoItems.cons (by split <;> simp) hframes⟩
  | ends => exact ⟨by simp, hframes⟩
  | launches | serves => exact ⟨by simp, recordLaunch_noItems (registerLaunch_noItems hframes)⟩

theorem Delivers.apart {value : Value} {frame : Frame}
    (h : Delivers setup store context frames value frame store' fiber)
    (hframe : ∀ d rest, frame ≠ .initialise d rest) (hframes : NoItems frames) : fiber.Apart := by
  cases h with
  | takeThen | takeRight | takeArm => exact ⟨by simp, NoItems.cons (by simp) hframes⟩
  | initialise d rest => exact absurd rfl (hframe d rest)
  | _ => exact ⟨by simp, hframes⟩

theorem Moves.apart (h : Moves setup store fiber store' fiber') (hfiber : fiber.Apart) :
    fiber'.Apart := by
  obtain ⟨hcontrol, hframes⟩ := hfiber
  cases h with
  | eval henters hevaluates =>
    refine hevaluates.apart ?_
    cases henters with
    | lowered => exact hframes
    | plain => exact hframes
    | forced => exact NoItems.cons (by simp) hframes
  | operand | runExpression | runBinding | apply => exact ⟨by simp, NoItems.cons (by simp) hframes⟩
  | tailCall | callComputed | construct | runEnd | runFunction | runType =>
    exact ⟨by simp, hframes⟩
  | call hdispatch => cases hdispatch <;> exact ⟨by simp, hframes⟩
  | operate hoperates => exact hoperates.apart hframes
  | @restart context caller frames rest arguments code scope launched store' env hdrop hsettled
      hbind =>
    have hrest : NoItems (frames.dropWhile (!·.isActivation)) :=
      fun frame hframe => hframes frame ((List.dropWhile_sublist _).subset hframe)
    rw [hdrop] at hrest
    exact ⟨by simp, NoItems.cons (by simp) (List.forall_mem_cons.mp hrest).2⟩
  | deliver hdelivers =>
    obtain ⟨hframe, hframes⟩ := List.forall_mem_cons.mp hframes
    exact hdelivers.apart hframe hframes
  | finished context value => exact ⟨by simp, hframes⟩
  | itemsEnd | itemBinding | itemOther => exact absurd rfl (hcontrol _)

end Apart

/-! ### Names and the declarations of their cells -/

/-- The name's cell exists, and a declaration that made it has this name. -/
def Named (origins : List Origin) (entry : String × Nat) : Prop :=
  ∃ origin, origins[entry.2]? = some origin ∧
    ∀ d, origin.declaration = some d → d.name = entry.1

theorem Named.append {origins : List Origin} {entry : String × Nat} (h : Named origins entry)
    (more : List Origin) : Named (origins ++ more) entry := by
  obtain ⟨origin, horigin, hname⟩ := h
  have hlt := (List.getElem?_eq_some_iff.mp horigin).1
  exact ⟨origin, by rw [List.getElem?_append_left hlt, horigin], hname⟩

theorem Named.grown {origins origins' : List Origin} {entry : String × Nat}
    (h : Named origins entry) (hgrown : origins <+: origins') : Named origins' entry := by
  obtain ⟨more, rfl⟩ := hgrown
  exact h.append more

section Globals

variable (setup : Setup)

theorem declarations_length (items : List Item) :
    (items.filterMap Item.declaration?).length = (items.filter Item.isVariable).length := by
  induction items with
  | nil => rfl
  | cons item items ih =>
    rw [List.filterMap_cons, List.filter_cons]
    cases item <;> simp [Item.declaration?, Item.isVariable, ih]

theorem start_origins_length :
    (Watched.start setup).origins.length = setup.globalCount := by
  simp only [Watched.start, List.length_map]
  exact declarations_length _

/-- The globals above an item have the cells of the declarations above it. -/
theorem withGlobals_named (items : List Item) {env : Env} {above : List VariableDeclaration}
    (hlength : above.length = env.length)
    (henv : Env.All (Named ((above ++ items.filterMap Item.declaration?).map fun d =>
      ⟨0, some d⟩)) env) :
    ∀ entry ∈ withGlobals env items,
      Env.All (Named ((above ++ items.filterMap Item.declaration?).map fun d => ⟨0, some d⟩))
        entry.2 := by
  induction items generalizing env above with
  | nil => simp [withGlobals]
  | cons item items ih =>
    cases item with
    | variableDeclaration v =>
      refine List.forall_mem_cons.mpr ⟨henv, ?_⟩
      have hsplit : above ++ (Item.variableDeclaration v :: items).filterMap Item.declaration? =
          (above ++ [v]) ++ items.filterMap Item.declaration? := by simp [Item.declaration?]
      rw [hsplit] at henv ⊢
      refine ih (by simp [hlength]) (henv.cons ⟨⟨0, some v⟩, ?_, ?_⟩)
      · simp [← hlength]
      · rintro d hd
        rw [Option.some.inj hd]
    | functionDeclaration | typeDeclaration | trapDeclaration =>
      exact List.forall_mem_cons.mpr ⟨henv, ih hlength henv⟩

theorem itemsWithGlobals_named :
    ∀ entry ∈ setup.itemsWithGlobals,
      Env.All (Named (Watched.start setup).origins) entry.2 := by
  refine @withGlobals_named setup.program.items [] [] rfl ?_
  intro entry hentry
  cases hentry

theorem functions_named :
    ∀ f ∈ setup.functions, f.2.All (Named (Watched.start setup).origins) := by
  rintro ⟨f, code⟩ h
  obtain ⟨⟨item, env⟩, hitem, heq⟩ := List.mem_filterMap.mp h
  cases item <;> simp only [reduceCtorEq, Option.ite_none_right_eq_some, Option.some.injEq,
    Prod.mk.injEq] at heq
  obtain ⟨-, rfl, rfl⟩ := heq
  exact itemsWithGlobals_named setup _ hitem

theorem topLevelMethods_named :
    ∀ method ∈ setup.topLevelMethods, method.2.All (Named (Watched.start setup).origins) := by
  intro method h
  obtain ⟨⟨item, env⟩, hitem, heq⟩ := List.mem_flatMap.mp h
  cases item <;> simp only [List.not_mem_nil, List.mem_map] at heq
  obtain ⟨m, hm, rfl⟩ := heq
  exact itemsWithGlobals_named setup _ hitem

theorem trapArms_named :
    ∀ arm ∈ setup.trapArms, Env.All (Named (Watched.start setup).origins) arm.2 := by
  intro arm h
  obtain ⟨⟨item, env⟩, hitem, heq⟩ := List.mem_flatMap.mp h
  cases item <;> simp only [List.not_mem_nil, List.mem_map] at heq
  obtain ⟨arm, harm, rfl⟩ := heq
  exact itemsWithGlobals_named setup _ hitem

/-- A global that is initialised has its declaration's cell. -/
theorem globalBefore_named {d : VariableDeclaration} {before rest : List Item}
    (h : setup.program.items = before ++ .variableDeclaration d :: rest) :
    Named (Watched.start setup).origins (d.name, setup.globalBefore rest) := by
  have hcount : setup.globalCount = (before.filterMap Item.declaration?).length +
      ((rest.filter Item.isVariable).length + 1) := by
    rw [declarations_length, Setup.globalCount, h, List.filter_append, List.length_append]
    rfl
  have hindex : setup.globalBefore rest = (before.filterMap Item.declaration?).length := by
    unfold Setup.globalBefore
    omega
  refine ⟨⟨0, some d⟩, ?_, ?_⟩
  · have hdeclarations : setup.program.items.filterMap Item.declaration? =
        before.filterMap Item.declaration? ++ d :: rest.filterMap Item.declaration? := by
      rw [h, List.filterMap_append]
      rfl
    simp [Watched.start, hindex, hdeclarations]
  · rintro d' hd
    rw [Option.some.inj hd]

end Globals

/-! ### Accesses -/

section Accesses

variable {setup : Setup} {scope : RootScope} {index : Nat} {choice : Choice} {store : Store}
  {fiber : Fiber} {access : Access}

theorem fiber_of_accesses (h : fiber.accesses setup index choice store = some access) :
    access.fiber = index := by
  unfold Fiber.accesses at h
  split at h
  · obtain ⟨cell, -, rfl⟩ := Option.map_eq_some_iff.mp h
    rfl
  · split at h
    · obtain ⟨cell, -, rfl⟩ := Option.map_eq_some_iff.mp h
      rfl
    · cases h
  · rw [Option.ite_none_right_eq_some] at h
    obtain rfl := Option.some.inj h.2
    rfl
  · obtain rfl := Option.some.inj h
    rfl
  · cases h

/-- A `:=` to a name without a cell makes one. -/
def Fiber.Makes (store : Store) (fiber : Fiber) : Prop :=
  ∀ setup choice store' fiber', fiberStep setup choice store fiber = some (store', fiber') →
    store.cells.length < store'.cells.length

theorem makes_of_bind {value : Value} {context : Context} {d : VariableDeclaration} {tail : Bool}
    {rest : List Statement} {frames : List Frame} (hnone : context.env.lookup d.name = none) :
    (⟨.deliver value, context, .bind d tail rest :: frames⟩ : Fiber).Makes store := by
  intro setup choice store' fiber' h
  simp only [fiberStep, deliverStep, bindStatement, hnone, ite_self, Option.some.injEq] at h
  obtain ⟨rfl, -⟩ := Prod.mk.inj h
  simp

/-- The cell of an access is the one the name has, a new one, or the initialised global's. -/
theorem cell_of_accesses (h : fiber.accesses setup index choice store = some access) :
    fiber.context.env.lookup access.touch.name = some access.cell ∨
      access.cell = store.cells.length ∧ fiber.Makes store ∨
      ∃ d rest frames, fiber.frames = .initialise d rest :: frames ∧
        access.cell = setup.globalBefore rest := by
  unfold Fiber.accesses at h
  split at h
  · obtain ⟨cell, hlookup, rfl⟩ := Option.map_eq_some_iff.mp h
    exact .inl hlookup
  · split at h
    · obtain ⟨cell, hlookup, rfl⟩ := Option.map_eq_some_iff.mp h
      exact .inl hlookup
    · cases h
  · rw [Option.ite_none_right_eq_some] at h
    obtain ⟨hmutable, h⟩ := h
    obtain rfl := Option.some.inj h
    rename_i value d tail rest frames hcontrol hframes
    cases hlookup : fiber.context.env.lookup d.name with
    | some cell => exact .inl (by simp)
    | none =>
      obtain ⟨control, context, _⟩ := fiber
      simp only at hcontrol hframes hlookup
      subst hcontrol hframes
      exact .inr (.inl ⟨rfl, makes_of_bind hlookup⟩)
  · obtain rfl := Option.some.inj h
    exact .inr (.inr ⟨_, _, _, ‹_›, rfl⟩)
  · cases h

/-- What unshared code accesses is not shared. -/
theorem shares_of_accesses (h : fiber.accesses setup index choice store = some access)
    (hapart : fiber.Apart) (hunshared : fiber.Holds setup (Unshared scope setup.program)) :
    access.touch.name = RECEIVER ∨ scope.shares access.touch.name = false := by
  obtain ⟨hcontrol, hframes⟩ := hunshared
  -- An identifier touches its name, unless it is the receiver's.
  have hidentifier : ∀ name span, Unshared scope setup.program (.identifier name span) →
      name = RECEIVER ∨ scope.shares name = false := by
    intro name span hunshared
    by_cases hname : name = RECEIVER
    · exact .inl hname
    · have htouch : (⟨name, span⟩ : Touch) ∈ Expression.touches (.identifier name span) := by
        rw [Expression.touches, if_neg hname]
        exact List.mem_cons_self
      exact .inr (hunshared.touches htouch)
  unfold Fiber.accesses at h
  split at h
  case h_1 heq =>
    obtain ⟨cell, -, rfl⟩ := Option.map_eq_some_iff.mp h
    rw [heq] at hcontrol
    exact hidentifier _ _ hcontrol
  case h_2 heq =>
    split at h
    · obtain ⟨cell, -, rfl⟩ := Option.map_eq_some_iff.mp h
      rw [heq] at hcontrol
      exact hidentifier _ _ (hcontrol.1.child _ _ List.mem_cons_self)
    · cases h
  case h_3 value d tail rest frames hdeliver heq =>
    rw [Option.ite_none_right_eq_some] at h
    obtain ⟨hmutable, h⟩ := h
    obtain rfl := Option.some.inj h
    rw [heq] at hframes
    obtain ⟨before, span, hblock⟩ := hframes _ List.mem_cons_self
    have htouch : (⟨d.name, d.span⟩ : Touch) ∈ Expression.touches
        (.block (before ++ .item (.variableDeclaration d) :: rest) span) := by
      refine List.mem_filterMap.mpr ⟨.item (.variableDeclaration d), by simp, ?_⟩
      simp only [if_pos hmutable]
    exact .inr (hblock.touches htouch)
  case h_4 value d rest frames hdeliver heq =>
    exact absurd rfl (hapart.frames _ (by rw [heq]; exact List.mem_cons_self) d rest)
  case h_5 => cases h

end Accesses

/-! ### The invariant -/

section Invariant

variable (setup : Setup) (scope : RootScope)

/-- An access that is a side of a race only on a cell declared with `@`. -/
def Safe (watched : Watched) (access : Access) : Prop :=
  ∀ origin, watched.origins[access.cell]? = some origin →
    ∀ d, origin.declaration = some d → d.isMutable = true →
      (if access.cell < setup.globalCount then access.fiber ∈ watched.served
        else origin.fiber ≠ access.fiber ∧
          (access.fiber ∈ watched.served ∨ origin.fiber ∈ watched.served)) →
      DeclaredAtomic setup access.cell d

structure Watched.Invariant (watched : Watched) : Prop where
  globals : (Watched.start setup).origins <+: watched.origins
  length : watched.origins.length = watched.state.store.cells.length
  makers : ∀ origin ∈ watched.origins, origin.fiber < watched.state.fibers.length
  store : watched.state.store.All (Named watched.origins)
  fibers : ∀ fiber ∈ watched.state.fibers, fiber.All (Named watched.origins)
  unshared : ∀ index ∈ watched.served, ∃ fiber, watched.state.fibers[index]? = some fiber ∧
    fiber.Apart ∧ fiber.Holds setup (Unshared scope setup.program)
  accesses : ∀ access ∈ watched.accesses, access.fiber < watched.state.fibers.length ∧
    access.cell < watched.origins.length ∧ Safe setup watched access

variable {setup scope} {watched watched' : Watched}

theorem raceFree_of_invariant (h : watched.Invariant setup scope) : RaceFree setup watched := by
  intro a ha b hb hfibers hcells hserved _ origin horigin d hd hmutable
  obtain ⟨-, -, hsafe⟩ := h.accesses a ha
  obtain ⟨-, -, hother⟩ := h.accesses b hb
  by_cases hglobal : a.cell < setup.globalCount
  · exact hsafe origin horigin d hd hmutable (by rw [if_pos hglobal]; exact hserved)
  by_cases hmaker : origin.fiber = a.fiber
  · -- The other fiber accesses a local that the handler made.
    rw [hcells] at horigin hglobal ⊢
    refine hother origin horigin d hd hmutable ?_
    rw [if_neg hglobal, hmaker]
    exact ⟨hfibers, .inr hserved⟩
  · refine hsafe origin horigin d hd hmutable ?_
    rw [if_neg hglobal]
    exact ⟨hmaker, .inl hserved⟩

/-- The watch has gone on. -/
structure Watched.Extends (watched watched' : Watched) : Prop where
  origins : watched.origins <+: watched'.origins
  fibers : watched.state.fibers.length ≤ watched'.state.fibers.length
  served : ∀ index < watched.state.fibers.length,
    index ∈ watched'.served → index ∈ watched.served

theorem Safe.extends {access : Access} (hextends : watched.Extends watched')
    (hmakers : ∀ origin ∈ watched.origins, origin.fiber < watched.state.fibers.length)
    (hfiber : access.fiber < watched.state.fibers.length)
    (hcell : access.cell < watched.origins.length) (h : Safe setup watched access) :
    Safe setup watched' access := by
  intro origin horigin d hd hmutable hcase
  obtain ⟨more, hmore⟩ := hextends.origins
  rw [← hmore, List.getElem?_append_left hcell] at horigin
  have hmaker := hmakers origin (List.mem_of_getElem? horigin)
  refine h origin horigin d hd hmutable ?_
  by_cases hglobal : access.cell < setup.globalCount
  · rw [if_pos hglobal] at hcase ⊢
    exact hextends.served _ hfiber hcase
  · rw [if_neg hglobal] at hcase ⊢
    exact ⟨hcase.1, hcase.2.imp (hextends.served _ hfiber) (hextends.served _ hmaker)⟩

theorem Watched.Invariant.oldAccesses (h : watched.Invariant setup scope)
    (hextends : watched.Extends watched') :
    ∀ access ∈ watched.accesses, access.fiber < watched'.state.fibers.length ∧
      access.cell < watched'.origins.length ∧ Safe setup watched' access := by
  intro access haccess
  obtain ⟨hfiber, hcell, hsafe⟩ := h.accesses access haccess
  exact ⟨Nat.lt_of_lt_of_le hfiber hextends.fibers,
    Nat.lt_of_lt_of_le hcell hextends.origins.length_le,
    hsafe.extends hextends h.makers hfiber hcell⟩

/-- The cells of the globals come from items. -/
theorem Watched.Invariant.item_of_global (h : watched.Invariant setup scope) {cell : Nat}
    (hcell : cell < setup.globalCount) {origin : Origin}
    (horigin : watched.origins[cell]? = some origin) {d : VariableDeclaration}
    (hd : origin.declaration = some d) : .variableDeclaration d ∈ setup.program.items := by
  obtain ⟨more, hmore⟩ := h.globals
  rw [← start_origins_length setup] at hcell
  rw [← hmore, List.getElem?_append_left hcell] at horigin
  obtain ⟨declared, hdeclared, rfl⟩ := List.mem_map.mp (List.mem_of_getElem? horigin)
  obtain ⟨item, hitem, hdeclaration⟩ := List.mem_filterMap.mp hdeclared
  obtain rfl := Option.some.inj hd
  cases item <;> simp only [Item.declaration?, reduceCtorEq, Option.some.injEq] at hdeclaration
  exact hdeclaration ▸ hitem

/-! ### Steps that access nothing -/

theorem Watched.step_of_quiet {action : Action} (hquiet : watched.stepping action = none)
    (h : watched.step setup action = some watched') :
    ∃ state, Quilon.step setup action watched.state = some state ∧
      watched' = ⟨state, watched.nowServed action, watched.origins, watched.accesses⟩ := by
  obtain ⟨state, hstep, rfl⟩ := Option.map_eq_some_iff.mp h
  refine ⟨state, hstep, ?_⟩
  simp [newOrigins, newAccess, hquiet]

theorem Watched.Invariant.spawn {code : Closure} {arguments : List Value} {state : State}
    {served : List Nat} (h : watched.Invariant setup scope)
    (hspawn : Quilon.spawn watched.state code arguments = some state)
    (hcode : code.All (Named watched.origins))
    (hserved : served = watched.served ∨
      served = watched.state.fibers.length :: watched.served ∧
        Unshared scope setup.program code.body) :
    Watched.Invariant setup scope ⟨state, served, watched.origins, watched.accesses⟩ := by
  obtain ⟨-, rfl⟩ := spawn_eq_some hspawn
  have hextends : watched.Extends ⟨⟨watched.state.store, watched.state.fibers ++
      [⟨.apply code arguments, ⟨[], []⟩, []⟩]⟩, served, watched.origins, watched.accesses⟩ := by
    refine ⟨List.prefix_refl _, by simp, ?_⟩
    intro index hindex hmem
    rcases hserved with rfl | ⟨rfl, -⟩
    · exact hmem
    · rcases List.mem_cons.mp hmem with rfl | hmem
      · exact absurd hindex (Nat.lt_irrefl _)
      · exact hmem
  have hold : ∀ index ∈ watched.served, ∃ fiber, (watched.state.fibers ++
      [⟨.apply code arguments, ⟨[], []⟩, []⟩])[index]? = some fiber ∧
      fiber.Apart ∧ fiber.Holds setup (Unshared scope setup.program) := by
    intro index hindex
    obtain ⟨fiber, hfiber, hunshared⟩ := h.unshared index hindex
    have hlt := (List.getElem?_eq_some_iff.mp hfiber).1
    exact ⟨fiber, by rw [List.getElem?_append_left hlt, hfiber], hunshared⟩
  refine ⟨h.globals, h.length, ?_, h.store, ?_, ?_, h.oldAccesses hextends⟩
  · exact fun origin horigin => Nat.lt_of_lt_of_le (h.makers origin horigin) hextends.fibers
  · intro fiber hfiber
    rcases List.mem_append.mp hfiber with hfiber | hfiber
    · exact h.fibers fiber hfiber
    · rw [List.mem_singleton.mp hfiber]
      exact .of_starts hcode (fun _ h => by cases h) (fun _ h => by cases h)
  · rcases hserved with rfl | ⟨rfl, hunshared⟩
    · exact hold
    · refine List.forall_mem_cons.mpr
        ⟨⟨⟨.apply code arguments, ⟨[], []⟩, []⟩, by simp, ?_, ?_⟩, hold⟩
      · exact ⟨by simp, fun _ h => by cases h⟩
      · exact ⟨hunshared, fun _ h => by cases h⟩

/-- Another fiber in the place of one, and a store with the same cells and code. -/
theorem Watched.Invariant.replace {index : Nat} {fiber fiber' : Fiber}
    (h : watched.Invariant setup scope) (hfiber : watched.state.fibers[index]? = some fiber)
    (hall : fiber'.All (Named watched.origins))
    (hunshared : fiber.Apart → fiber.Holds setup (Unshared scope setup.program) →
      fiber'.Apart ∧ fiber'.Holds setup (Unshared scope setup.program)) :
    Watched.Invariant setup scope ⟨⟨watched.state.store, watched.state.fibers.set index fiber'⟩,
      watched.served, watched.origins, watched.accesses⟩ := by
  have hlt := (List.getElem?_eq_some_iff.mp hfiber).1
  refine ⟨h.globals, h.length, ?_, h.store, ?_, ?_, h.oldAccesses ⟨List.prefix_refl _, by simp,
    fun _ _ h => h⟩⟩
  · simpa using h.makers
  · intro other hother
    rcases List.mem_or_eq_of_mem_set hother with hother | rfl
    · exact h.fibers other hother
    · exact hall
  · intro other hother
    obtain ⟨found, hfound, hapart, hholds⟩ := h.unshared other hother
    by_cases heq : index = other
    · subst heq
      rw [hfiber] at hfound
      obtain rfl := Option.some.inj hfound
      exact ⟨fiber', by simp [hlt], hunshared hapart hholds⟩
    · exact ⟨found, by rw [List.getElem?_set_ne heq, hfound], hapart, hholds⟩

/-! ### Steps of a fiber -/

/-- A global that is not shared is declared with `@`. -/
theorem declaredAtomic_global (hscope : rootScope setup.program = some scope) {cell : Nat}
    (hcell : cell < setup.globalCount) {d : VariableDeclaration} (hmutable : d.isMutable = true)
    (hd : .variableDeclaration d ∈ setup.program.items)
    (hshares : scope.shares d.name = false) : DeclaredAtomic setup cell d := by
  have hmem : ∀ declared : VariableDeclaration, declared.isMutable = true →
      .variableDeclaration declared ∈ setup.program.items →
      declared ∈ setup.program.mutableGlobals := by
    intro declared hdeclared hitem
    exact List.mem_filter.mpr ⟨List.mem_filterMap.mpr ⟨_, hitem, rfl⟩, hdeclared⟩
  obtain ⟨declared, hitem, hname, hdeclared, hatomic⟩ :=
    atomic_of_not_shares hscope hd hmutable hshares
  refine ⟨_, hmem d hmutable hd, by rw [if_pos hcell], declared, hmem _ hdeclared hitem, hname,
    hatomic⟩

theorem declaredAtomic_captured (hcheck : checkFiberSharing scope setup.program = none)
    {cell : Nat} (hcell : ¬ cell < setup.globalCount) {touch : Touch} {d : VariableDeclaration}
    (hname : touch.name = d.name) (hseen : SeenCaptured setup scope touch d) :
    DeclaredAtomic setup cell d := by
  obtain ⟨launch, hlaunch, body, hbody, htouch, hd, hlocal⟩ := hseen
  obtain ⟨declared, hdeclared, hatomic⟩ :=
    atomic_of_handler_touches hcheck hlaunch hbody hd hlocal htouch hname
  refine ⟨_, hd, ?_, declared, hdeclared, hatomic⟩
  rw [if_neg hcell]
  exact ⟨_, contains_enclosing hlaunch, rfl⟩

theorem unshared_of_followed (hcheck : checkFiberSharing scope setup.program = none)
    {body : Expression} (h : Followed setup scope body) : Unshared scope setup.program body := by
  rcases h with ⟨launch, hlaunch, hroot⟩ | hunshared
  · exact unshared_of_mem_roots hcheck hlaunch hroot
  · exact hunshared

/-- A plain call of a top-level function by name starts a function of that name. -/
theorem starts_of_callsFunction {choice : Choice} {store store' : Store} {fiber fiber' : Fiber}
    (hcalls : fiber.callsFunction choice = true)
    (h : fiberStep setup choice store fiber = some (store', fiber')) {code : Closure}
    (hstarts : fiber'.Starts code) :
    ∃ f ∈ setup.program.functions, code.body = f.body ∧ ∃ nameSpan arguments span values,
      fiber.control =
        .operands (.call (.identifier f.name nameSpan) arguments false span) false [] values := by
  obtain ⟨control, context, frames⟩ := fiber
  unfold Fiber.callsFunction at hcalls
  split at hcalls
  case h_2 => cases hcalls
  case h_1 name nameSpan arguments span values index passed hcontrol =>
    simp only at hcontrol
    subst hcontrol
    simp only [fiberStep, finish, Bool.false_eq_true, if_false, dispatch] at h
    split at h
    · cases h
    split at h
    case h_2 => cases h
    case h_1 f found hfunction =>
      rw [Option.ite_none_right_eq_some] at h
      obtain ⟨rfl, h⟩ := h
      obtain ⟨-, rfl⟩ := Prod.mk.inj (Option.some.inj h)
      obtain ⟨passed, hstarts⟩ := hstarts
      cases hstarts
      obtain ⟨hmem, hbody⟩ := setup.mem_functions (List.mem_of_getElem? hfunction)
      exact ⟨f, hmem, hbody, _, _, _, _, rfl⟩

theorem unshared_of_callsFunction (hscope : rootScope setup.program = some scope) {choice : Choice}
    {store store' : Store} {fiber fiber' : Fiber}
    (hholds : fiber.Holds setup (Unshared scope setup.program))
    (hcalls : fiber.callsFunction choice = true)
    (h : fiberStep setup choice store fiber = some (store', fiber')) {code : Closure}
    (hstarts : fiber'.Starts code) : Unshared scope setup.program code.body := by
  obtain ⟨f, hf, hbody, nameSpan, arguments, span, values, hcontrol⟩ :=
    starts_of_callsFunction hcalls h hstarts
  have hcall := hholds.1
  rw [hcontrol] at hcall
  have hne : f.name ≠ RECEIVER := by
    obtain ⟨item, hitem, hf⟩ := List.mem_filterMap.mp hf
    cases item <;> simp only [reduceCtorEq, Option.some.injEq] at hf
    subst hf
    exact (defineItems_spec _ hscope).1 _ hitem
  have htouch : (⟨f.name, nameSpan⟩ : Touch) ∈ walk (.identifier f.name nameSpan) := by
    refine mem_walk.mpr ⟨_, .refl, ?_⟩
    rw [Expression.touches, if_neg hne]
    exact List.mem_cons_self
  have hname := hcall.1.child _ (.identifier f.name nameSpan) List.mem_cons_self
  rw [hbody]
  exact hname.called htouch (List.mem_map_of_mem (List.mem_filter.mpr ⟨hf, by simp⟩))

/-- The step of a handler's fiber leaves it in unshared code. -/
theorem unshared_of_fiberStep (hscope : rootScope setup.program = some scope)
    (hcheck : checkFiberSharing scope setup.program = none) {index : Nat} {choice : Choice}
    {store' : Store} {fiber fiber' : Fiber}
    (hallowed : Allowed setup scope (.fiber index choice) watched)
    (hserved : index ∈ watched.served) (hfiber : watched.state.fibers[index]? = some fiber)
    (hstep : fiberStep setup choice watched.state.store fiber = some (store', fiber'))
    (hapart : fiber.Apart) (hholds : fiber.Holds setup (Unshared scope setup.program)) :
    fiber'.Apart ∧ fiber'.Holds setup (Unshared scope setup.program) := by
  have hmoves := moves_of_fiberStep hstep
  refine ⟨hmoves.apart hapart, hmoves.keeps Unshared.child hholds ?_ ?_⟩
  · exact fun v rest hitems => absurd hitems (hapart.control _)
  intro code hstarts
  by_cases hcalls : fiber.callsFunction choice = true
  · exact unshared_of_callsFunction hscope hholds hcalls hstep hstarts
  · refine unshared_of_followed hcheck (hallowed.followed code ?_)
    obtain ⟨arguments, hstarts⟩ := hstarts
    obtain ⟨control, context, frames⟩ := fiber'
    simp only at hstarts
    subst hstarts
    simp [Watched.startsUnnamed, hfiber, hserved, hcalls, hstep]

theorem newOrigins_spec (setup : Setup) {action : Action} {index : Nat} {choice : Choice}
    {fiber : Fiber} (h : watched.stepping action = some (index, choice, fiber)) (count : Nat) :
    (watched.newOrigins setup action count).length = count ∧
      ∀ (i : Nat) (origin : Origin), (watched.newOrigins setup action count)[i]? = some origin →
        origin.fiber = index ∧ ∀ d, origin.declaration = some d →
          (fiber.declares setup watched.state.store)[i]? = some (some d) := by
  simp only [Watched.newOrigins, h]
  refine ⟨by simp, ?_⟩
  intro i origin horigin
  rw [List.getElem?_map] at horigin
  obtain ⟨declared, hdeclared, rfl⟩ := Option.map_eq_some_iff.mp horigin
  refine ⟨rfl, fun d hd => ?_⟩
  rw [show declared = some d from hd, List.getElem?_take, Option.ite_none_right_eq_some,
    List.getElem?_append] at hdeclared
  by_cases hlt : i < (fiber.declares setup watched.state.store).length
  · simpa only [if_pos hlt] using hdeclared.2
  · -- The rest of the cells have no declaration.
    simp [if_neg hlt, List.getElem?_replicate] at hdeclared

/-- The names of the fibers and the store stand for the cells that their declarations made. -/
theorem Watched.Invariant.named (hreach : setup.Reaches watched.state)
    (h : watched.Invariant setup scope) {index : Nat} {fiber fiber' : Fiber} {store' : Store}
    {new : List Origin} (hfiber : watched.state.fibers[index]? = some fiber)
    (hmoves : Moves setup watched.state.store fiber store' fiber')
    (hlength : watched.origins.length + new.length = store'.cells.length)
    (hnew : ∀ (i : Nat) (origin : Origin), new[i]? = some origin → ∀ d, origin.declaration = some d →
      (fiber.declares setup watched.state.store)[i]? = some (some d)) :
    store'.All (Named (watched.origins ++ new)) ∧ fiber'.All (Named (watched.origins ++ new)) := by
  have hclosed : Closed setup fun _ => True := by constructor <;> intros <;> trivial
  have hmem := List.mem_of_getElem? hfiber
  have hmono : ∀ entry, Named watched.origins entry → Named (watched.origins ++ new) entry :=
    fun entry hentry => hentry.append new
  refine hmoves.names (h.store.mono hmono) ?_ ((h.fibers fiber hmem).mono hmono) ?_
  · intro f hf
    refine Env.All.mono (fun entry hentry => ?_) (functions_named setup f hf)
    exact (hentry.grown h.globals).append new
  · intro entry hentry
    cases hentry with
    | @slot name address hle hlt hdeclared =>
      rw [← h.length] at hle hdeclared
      have hindex : address - watched.origins.length < new.length := by omega
      refine ⟨new[address - watched.origins.length], ?_, ?_⟩
      · rw [List.getElem?_append_right hle, List.getElem?_eq_getElem hindex]
      · exact fun d hd => hdeclared d (hnew _ _ (List.getElem?_eq_getElem hindex) d hd)
    | @global d rest frames hframes =>
      have hframe := ((holds_of_reaches hclosed hreach).fibers fiber hmem).2 (.initialise d rest)
        (by rw [hframes]; exact List.mem_cons_self)
      obtain ⟨before, hitems⟩ := hframe
      exact ((globalBefore_named setup hitems).grown h.globals).append new

/-- A new access is safe: what unshared code reads and writes of globals is declared with `@`, and so
is what the check sees captured. -/
theorem safe_of_newAccess (hscope : rootScope setup.program = some scope)
    (hcheck : checkFiberSharing scope setup.program = none)
    (h : watched.Invariant setup scope) {index : Nat} {choice : Choice} {fiber : Fiber}
    (hallowed : Allowed setup scope (.fiber index choice) watched)
    (hfiber : watched.state.fibers[index]? = some fiber)
    (hglobals : setup.globalCount ≤ watched.state.store.cells.length)
    (hitems : ∀ d rest frames, fiber.frames = .initialise d rest :: frames →
      setup.globalBefore rest < setup.globalCount)
    (hextends : watched.Extends watched') (hserved : watched'.served = watched.served)
    (hnew : ∀ (i : Nat) (origin : Origin), watched.origins.length ≤ i →
      watched'.origins[i]? = some origin → origin.fiber = index)
    {access : Access}
    (haccess : fiber.accesses setup index choice watched.state.store = some access) :
    Safe setup watched' access := by
  have hindex : access.fiber = index := fiber_of_accesses haccess
  have hnewAccess : watched.newAccess setup (.fiber index choice) = some access := by
    simp [Watched.newAccess, Watched.stepping, hfiber, haccess]
  intro origin horigin d hd hmutable hcase
  rw [hserved] at hcase
  rcases cell_of_accesses haccess with hlookup | ⟨hfresh, -⟩ | ⟨v, rest, frames, hframes, hcell⟩
  · -- The name has a cell already, which its declaration made.
    obtain ⟨old, hold, hname⟩ := (h.fibers fiber (List.mem_of_getElem? hfiber)).context.lookup
      hlookup
    simp only at hold hname
    have hlt := (List.getElem?_eq_some_iff.mp hold).1
    obtain ⟨more, hmore⟩ := hextends.origins
    rw [← hmore, List.getElem?_append_left hlt, hold] at horigin
    obtain rfl := Option.some.inj horigin
    have hdname := hname d hd
    by_cases hglobal : access.cell < setup.globalCount
    · rw [if_pos hglobal] at hcase
      obtain ⟨found, hfound, hapart, hholds⟩ := h.unshared _ hcase
      rw [hindex, hfiber] at hfound
      obtain rfl := Option.some.inj hfound
      have hitem := h.item_of_global hglobal hold hd
      rcases shares_of_accesses haccess hapart hholds with hreceiver | hshares
      · exact absurd (hdname.trans hreceiver) ((defineItems_spec _ hscope).2 d hitem).1
      · exact declaredAtomic_global hscope hglobal hmutable hitem (hdname ▸ hshares)
    · rw [if_neg hglobal] at hcase
      exact declaredAtomic_captured hcheck hglobal hdname.symm
        (hallowed.captured access hnewAccess old hold (Nat.le_of_not_lt hglobal) hcase.1 hcase.2 d
          hd hmutable)
  · -- The fiber makes the cell itself.
    have hmaker := hnew access.cell origin (by rw [hfresh, h.length]) horigin
    have hlocal : ¬ access.cell < setup.globalCount := by omega
    rw [if_neg hlocal, hindex, hmaker] at hcase
    exact absurd rfl hcase.1
  · -- The initialisers run on no handler's fiber.
    have hglobal : access.cell < setup.globalCount := hcell ▸ hitems v rest frames hframes
    rw [if_pos hglobal] at hcase
    obtain ⟨found, hfound, hapart, -⟩ := h.unshared _ hcase
    rw [hindex, hfiber] at hfound
    obtain rfl := Option.some.inj hfound
    exact absurd rfl (hapart.frames _ (by rw [hframes]; exact List.mem_cons_self) v rest)

theorem fiberStep_invariant (hscope : rootScope setup.program = some scope)
    (hcheck : checkFiberSharing scope setup.program = none) (hreach : setup.Reaches watched.state)
    (h : watched.Invariant setup scope) {index : Nat} {choice : Choice}
    (hallowed : Allowed setup scope (.fiber index choice) watched)
    (hstep : watched.step setup (.fiber index choice) = some watched') :
    watched'.Invariant setup scope := by
  obtain ⟨state, hstate, rfl⟩ := Option.map_eq_some_iff.mp hstep
  simp only [Quilon.step] at hstate
  split at hstate
  case h_2 => cases hstate
  case h_1 fiber hfiber =>
  split at hstate
  case h_2 => cases hstate
  case h_1 store' fiber' hfiberStep =>
  obtain rfl := Option.some.inj hstate
  have hmoves := moves_of_fiberStep hfiberStep
  have hmem := List.mem_of_getElem? hfiber
  have hlt := (List.getElem?_eq_some_iff.mp hfiber).1
  have hbelow := below_of_reaches hreach
  have hclosed : Closed setup fun _ => True := by constructor <;> intros <;> trivial
  have hholds := (holds_of_reaches hclosed hreach).fibers fiber hmem
  have hle := (hmoves.below hbelow.store setup.functions_below hholds
    (hbelow.fibers fiber hmem)).length_le
  have hstepping : watched.stepping (.fiber index choice) = some (index, choice, fiber) := by
    simp [Watched.stepping, hfiber]
  obtain ⟨hcount, hnew⟩ := newOrigins_spec setup hstepping
    (store'.cells.length - watched.state.store.cells.length)
  have hlength : watched.origins.length + (watched.newOrigins setup (.fiber index choice)
      (store'.cells.length - watched.state.store.cells.length)).length =
        store'.cells.length := by
    rw [hcount, h.length]
    omega
  obtain ⟨hstore, hfiber'⟩ := h.named hreach hfiber hmoves hlength
    fun i origin horigin => (hnew i origin horigin).2
  have hextends : watched.Extends ⟨⟨store', watched.state.fibers.set index fiber'⟩, watched.served,
      watched.origins ++ watched.newOrigins setup (.fiber index choice)
        (store'.cells.length - watched.state.store.cells.length),
      watched.accesses ++ (watched.newAccess setup (.fiber index choice)).toList⟩ :=
    ⟨List.prefix_append _ _, by simp, fun _ _ h => h⟩
  refine ⟨h.globals.trans (List.prefix_append _ _), ?_, ?_, hstore, ?_, ?_, ?_⟩
  · rw [List.length_append, hlength]
  · intro origin horigin
    simp only [List.length_set]
    rcases List.mem_append.mp horigin with horigin | horigin
    · exact h.makers origin horigin
    · obtain ⟨i, hi⟩ := List.mem_iff_getElem?.mp horigin
      rw [(hnew i origin hi).1]
      exact hlt
  · intro other hother
    rcases List.mem_or_eq_of_mem_set hother with hother | rfl
    · exact (h.fibers other hother).mono fun entry hentry => hentry.append _
    · exact hfiber'
  · intro other hother
    obtain ⟨found, hfound, hapart, hunshared⟩ := h.unshared other hother
    by_cases heq : index = other
    · subst heq
      rw [hfiber] at hfound
      obtain rfl := Option.some.inj hfound
      refine ⟨fiber', by simp [hlt], ?_⟩
      exact unshared_of_fiberStep hscope hcheck hallowed hother hfiber hfiberStep hapart hunshared
    · exact ⟨found, by rw [List.getElem?_set_ne heq, hfound], hapart, hunshared⟩
  · intro access haccess
    rcases List.mem_append.mp haccess with haccess | haccess
    · exact h.oldAccesses hextends access haccess
    have haccess : fiber.accesses setup index choice watched.state.store = some access := by
      simpa [Watched.newAccess, hstepping] using haccess
    have hitems : ∀ d rest frames, fiber.frames = .initialise d rest :: frames →
        setup.globalBefore rest < setup.globalCount := by
      intro d rest frames hframes
      obtain ⟨before, hitems⟩ := hholds.2 (.initialise d rest) (by rw [hframes]; simp)
      exact setup.globalBefore_lt hitems
    refine ⟨?_, ?_, ?_⟩
    · rw [fiber_of_accesses haccess]
      simpa using hlt
    · show access.cell < (watched.origins ++ _).length
      rw [List.length_append, hlength]
      rcases cell_of_accesses haccess with hlookup | ⟨hfresh, hmakes⟩ |
        ⟨d, rest, frames, hframes, hcell⟩
      · obtain ⟨origin, horigin, -⟩ := (h.fibers fiber hmem).context.lookup hlookup
        have hold := (List.getElem?_eq_some_iff.mp horigin).1
        omega
      · rw [hfresh]
        exact hmakes _ _ _ _ hfiberStep
      · rw [hcell]
        have hglobals := hbelow.store.globals
        have hbefore := hitems d rest frames hframes
        omega
    · refine safe_of_newAccess hscope hcheck h hallowed hfiber hbelow.store.globals hitems hextends
        rfl ?_ haccess
      intro i origin hi horigin
      rw [List.getElem?_append_right hi] at horigin
      exact (hnew _ origin horigin).1

/-! ### Runs -/

theorem step_invariant (hscope : rootScope setup.program = some scope)
    (hcheck : checkFiberSharing scope setup.program = none) {action : Action}
    (hreach : setup.Reaches watched.state) (h : watched.Invariant setup scope)
    (hallowed : Allowed setup scope action watched)
    (hstep : watched.step setup action = some watched') : watched'.Invariant setup scope := by
  have hfunctions : ∀ f ∈ setup.functions, f.2.All (Named watched.origins) := fun f hf =>
    Env.All.mono (fun _ hentry => hentry.grown h.globals) (functions_named setup f hf)
  cases action with
  | fiber index choice => exact fiberStep_invariant hscope hcheck hreach h hallowed hstep
  | settle launch =>
    obtain ⟨state, hstate, rfl⟩ := Watched.step_of_quiet rfl hstep
    obtain rfl := Option.some.inj hstate
    exact ⟨h.globals, h.length, h.makers, h.store.of_code_eq rfl rfl, h.fibers, h.unshared,
      h.oldAccesses ⟨List.prefix_refl _, Nat.le_refl _, fun _ _ h => h⟩⟩
  | enter function arguments =>
    obtain ⟨state, hstate, rfl⟩ := Watched.step_of_quiet rfl hstep
    simp only [Quilon.step] at hstate
    split at hstate
    case h_2 => cases hstate
    case h_1 f code hfunction =>
      rw [Option.ite_none_right_eq_some] at hstate
      exact h.spawn hstate.2 (hfunctions _ (List.mem_of_getElem? hfunction)) (.inl rfl)
  | handle handler function arguments =>
    obtain ⟨state, hstate, rfl⟩ := Watched.step_of_quiet rfl hstep
    simp only [Quilon.step] at hstate
    split at hstate
    case h_1 closure hhandler =>
      split at hstate
      case h_2 => cases hstate
      case h_1 code hcode =>
        have hfollowed := hallowed.followed code (by simp [Watched.startsUnnamed, hhandler, hcode])
        exact h.spawn hstate (h.store.closures _ (List.mem_of_getElem? hcode))
          (.inr ⟨rfl, unshared_of_followed hcheck hfollowed⟩)
    case h_2 closure hhandler =>
      split at hstate
      case h_2 => cases hstate
      case h_1 f code hfunction =>
        rw [Option.ite_none_right_eq_some] at hstate
        have hfollowed := hallowed.followed code
          (by simp [Watched.startsUnnamed, hhandler, hfunction])
        exact h.spawn hstate.2 (hfunctions _ (List.mem_of_getElem? hfunction))
          (.inr ⟨rfl, unshared_of_followed hcheck hfollowed⟩)
    case h_3 => cases hstate
  | trap arm values =>
    obtain ⟨state, hstate, rfl⟩ := Watched.step_of_quiet rfl hstep
    simp only [Quilon.step] at hstate
    split at hstate
    case h_2 => cases hstate
    case h_1 arm env harm =>
      have hmem := List.mem_of_getElem? harm
      obtain ⟨trap, htrap, harm⟩ := setup.mem_trapArms hmem
      refine h.spawn hstate ?_ (.inr ⟨rfl, unshared_of_mem_arms hcheck htrap harm⟩)
      exact Env.All.mono (fun _ hentry => hentry.grown h.globals) (trapArms_named setup _ hmem)
  | abandon index =>
    obtain ⟨state, hstate, rfl⟩ := Watched.step_of_quiet rfl hstep
    simp only [Quilon.step] at hstate
    split at hstate
    case h_2 => cases hstate
    case h_1 fiber hfiber =>
      split at hstate
      case h_2 => cases hstate
      case h_1 context frames hframes =>
        obtain rfl := Option.some.inj hstate
        have hall := h.fibers fiber (List.mem_of_getElem? hfiber)
        have hsub : ∀ frame ∈ Frame.guard context :: frames, frame ∈ fiber.frames := by
          rw [← hframes]
          exact fun frame hframe => (List.dropWhile_sublist _).subset hframe
        refine h.replace hfiber ?_ fun hapart hholds => ⟨⟨by simp, ?_⟩, trivial, ?_⟩
        · refine .of_idle (by simp) (hall.frames _ (hsub _ List.mem_cons_self)) ?_
          exact fun frame hframe => hall.frames frame (hsub _ (List.mem_cons_of_mem _ hframe))
        · exact fun frame hframe => hapart.frames frame (hsub _ (List.mem_cons_of_mem _ hframe))
        · exact fun frame hframe => hholds.2 frame (hsub _ (List.mem_cons_of_mem _ hframe))

theorem start_invariant : (Watched.start setup).Invariant setup scope := by
  refine ⟨List.prefix_refl _, ?_, ?_, ⟨by simp [Watched.start, Setup.start], ?_⟩, ?_, ?_, ?_⟩
  · rw [start_origins_length]
    simp [Watched.start, Setup.start]
  · intro origin horigin
    obtain ⟨d, -, rfl⟩ := List.mem_map.mp horigin
    exact Nat.zero_lt_one
  · exact topLevelMethods_named setup
  · intro fiber hfiber
    rw [List.mem_singleton.mp hfiber]
    exact .of_idle (by simp) (fun _ h => by cases h) (fun _ h => by cases h)
  · intro index hindex
    cases hindex
  · intro access haccess
    cases haccess

/-- **An accepted program has no race on a `:=` variable**, in a run of steps that the check looks
at. -/
theorem accepted_raceFree (hscope : rootScope setup.program = some scope)
    (hcheck : checkFiberSharing scope setup.program = none)
    (hrun : Run (Watched.step setup) (Allowed setup scope) (Watched.start setup) watched) :
    RaceFree setup watched :=
  raceFree_of_invariant (hrun.strengthen (fun _ h => Watched.reaches h) start_invariant
    fun _ _ _ hreach h hallowed hstep => step_invariant hscope hcheck hreach h hallowed hstep)

end Invariant

/-! ### A handler that counts -/

namespace Counting

def at_ (start stop : Nat) : Span := ⟨start, stop, 0⟩

/-- `< visits := visits + 1 >` -/
def count : Expression :=
  .block
    [.item (.variableDeclaration ⟨true, "visits", none,
      .binaryOperator (.identifier "visits" (at_ 53 59)) .add (.number 1 (at_ 62 63)) (at_ 53 63),
      false, false, at_ 43 63⟩)] (at_ 41 65)

/-- `counter.click()` -/
def click : Expression :=
  .call (.identifier "click" (at_ 168 173)) [.identifier "counter" (at_ 160 167)] true
    (at_ 160 175)

/-- `< counter = Counter { step = 1 }   net.@tcpServe("127.0.0.1:9058", connection => …) >` -/
def entry (handler : Expression) : Expression :=
  .block
    [.item (.variableDeclaration ⟨false, "counter", none,
      .constructor "Counter" [("step", .number 1 (at_ 101 102))] (at_ 93 103), false, false,
      at_ 83 103⟩),
     .expression (.call (.identifier "core.net.@tcpServe" (at_ 106 119))
       [.string "127.0.0.1:9058" (at_ 120 136),
        .lambda [⟨"connection", none, at_ 138 148⟩] none handler (at_ 138 175)] false
       (at_ 106 176))] (at_ 81 178)

/-- `visits := 0`, which may have an `@`, a type `Counter = { step :: Num   click = () -> $ => … }`
whose method counts, and `^ = () -> $ => …`. -/
def program (atomic : Bool) (handler : Expression) : Program :=
  ⟨[.variableDeclaration ⟨true, "visits", none, .number 0 (at_ 10 11), false, atomic, at_ 0 11⟩,
    .typeDeclaration ⟨"Counter", .record [("step", .num)]
      [⟨"click", [], some .unit, count, false, at_ 25 65⟩], false, at_ 12 67⟩,
    .functionDeclaration ⟨"^", [], some .unit, none, entry handler, false, false, at_ 68 178⟩]⟩

def setup (atomic : Bool) (handler : Expression) : Setup where
  program := program atomic handler
  info := ⟨[], []⟩
  order := Expression.operands
  order_operands _ _ h := h
  evaluatesBoth _ := false
  loops _ := false
  backEdges _ := false

def scope (atomic : Bool) : RootScope :=
  [("^", ⟨false, false⟩), ("Counter", ⟨false, false⟩), ("visits", ⟨true, atomic⟩)]

theorem rootScope_eq (atomic : Bool) (handler : Expression) :
    rootScope (setup atomic handler).program = some (scope atomic) := by
  cases atomic <;> rfl

/-! #### What the check visits -/

theorem visits_leaf {e : Expression} (h : e.children = []) (enclosing : Expression) :
    visits enclosing e = [(enclosing, e)] := by
  have hnone : e.childrenIn enclosing = [] := by
    rw [← List.map_eq_nil_iff, e.childrenIn_snd, h]
  rw [visits_eq, hnone]
  rfl

theorem visits_count (enclosing : Expression) :
    (visits enclosing count).map (·.2) =
      [count, .binaryOperator (.identifier "visits" (at_ 53 59)) .add (.number 1 (at_ 62 63))
        (at_ 53 63), .identifier "visits" (at_ 53 59), .number 1 (at_ 62 63)] := by
  rw [visits_eq]
  simp only [count, Expression.childrenIn, Statement.childrenIn, Statement.children,
    List.flatMap_cons, List.flatMap_nil, List.map_cons, List.map_nil, List.append_nil]
  rw [visits_eq]
  simp [Expression.childrenIn, Expression.children, visits_leaf (e := .identifier _ _) rfl,
    visits_leaf (e := .number _ _) rfl]

theorem visits_click (enclosing : Expression) :
    (visits enclosing click).map (·.2) =
      [click, .identifier "click" (at_ 168 173), .identifier "counter" (at_ 160 167)] := by
  rw [visits_eq]
  simp [click, Expression.childrenIn, Expression.children,
    visits_leaf (e := .identifier _ _) rfl]

theorem walk_eq (e : Expression) : walk e = ((visits e e).map (·.2)).flatMap (·.touches) := by
  rw [walk, List.flatMap_map]

theorem walk_count : walk count = [⟨"visits", at_ 43 63⟩, ⟨"visits", at_ 53 59⟩] := by
  rw [walk_eq, visits_count]
  rfl

theorem walk_click : walk click = [⟨"click", at_ 168 173⟩, ⟨"counter", at_ 160 167⟩] := by
  rw [walk_eq, visits_click]
  rfl

/-- A visit whose expression is no call of a launching primitive. -/
theorem fiberLaunchesIn_eq_nil {e : Expression}
    (h : ∀ c ∈ (visits e e).map (·.2), ∀ enclosing, fiberLaunch? (enclosing, c) = none) :
    fiberLaunchesIn e = [] := by
  refine List.filterMap_eq_nil_iff.mpr ?_
  rintro ⟨enclosing, c⟩ hvisit
  exact h c (List.mem_map_of_mem hvisit) enclosing

theorem launches_count : fiberLaunchesIn count = [] := by
  refine fiberLaunchesIn_eq_nil ?_
  rw [visits_count]
  simp [count, fiberLaunch?]

theorem launches_click : fiberLaunchesIn click = [] := by
  refine fiberLaunchesIn_eq_nil ?_
  have hname : fiberHandlerPrimitive "click" = none := by decide
  rw [visits_click]
  simp [click, fiberLaunch?, hname]

def launch (handler : Expression) : FiberLaunch :=
  ⟨"net.@tcpServe",
    [.string "127.0.0.1:9058" (at_ 120 136),
      .lambda [⟨"connection", none, at_ 138 148⟩] none handler (at_ 138 175)], at_ 106 176,
    entry handler⟩

theorem launches_entry (handler : Expression) :
    fiberLaunchesIn (entry handler) = launch handler :: fiberLaunchesIn handler := by
  have hname : fiberHandlerPrimitive "core.net.@tcpServe" = some "net.@tcpServe" := by decide
  unfold fiberLaunchesIn
  rw [visits_eq (entry handler) (entry handler)]
  simp only [entry, Expression.childrenIn, Statement.childrenIn, Statement.children,
    List.flatMap_cons, List.flatMap_nil, List.map_cons, List.map_nil, List.append_nil,
    List.cons_append, List.nil_append]
  rw [visits_eq _ (.constructor _ _ _), visits_eq _ (.call _ _ _ _)]
  simp only [Expression.childrenIn, Expression.children, List.flatMap_cons, List.flatMap_nil,
    List.map_cons, List.map_nil, List.append_nil, List.cons_append, List.nil_append,
    visits_leaf (e := .identifier _ _) rfl, visits_leaf (e := .number _ _) rfl,
    visits_leaf (e := .string _ _) rfl]
  rw [visits_eq _ (.lambda _ _ _ _)]
  simp [List.filterMap_cons, Expression.childrenIn, fiberLaunch?, hname, launch, entry]

theorem mem_launches (atomic : Bool) (handler : Expression) :
    launch handler ∈ (setup atomic handler).program.fiberLaunches := by
  have hitem : .functionDeclaration
      ⟨"^", [], some .unit, none, entry handler, false, false, at_ 68 178⟩ ∈
      (setup atomic handler).program.items := by simp [setup, program]
  refine List.mem_flatMap.mpr ⟨_, hitem, ?_⟩
  refine List.mem_flatMap.mpr ⟨entry handler, List.mem_singleton.mpr rfl, ?_⟩
  rw [launches_entry]
  exact List.mem_cons_self

/-- The check passes where it finds nothing in the handler. -/
theorem check_eq_none {atomic : Bool} {handler : Expression}
    (hlaunches : fiberLaunchesIn handler = [])
    (hglobal : firstSharedGlobal (scope atomic) (program atomic handler) [handler] = none) :
    checkFiberSharing (scope atomic) (setup atomic handler).program = none := by
  have hnumber : fiberLaunchesIn (.number 0 (at_ 10 11)) = [] := by
    refine fiberLaunchesIn_eq_nil ?_
    rw [visits_leaf rfl]
    simp [fiberLaunch?]
  have hcaptured : (launch handler).capturedNames (scope atomic) = [] := rfl
  have hlaunch : checkFiberLaunch (scope atomic) (program atomic handler) (launch handler) =
      none := by
    rw [checkFiberLaunch, show (launch handler).roots (program atomic handler) = [handler] from rfl,
      hglobal]
    simp only [hcaptured]
    show Option.map _ (List.find? _ (walk handler)) = none
    simp
  have hentry : checkFiberLaunchesIn (scope atomic) (program atomic handler) (entry handler) =
      none := by
    rw [checkFiberLaunchesIn, launches_entry, hlaunches]
    refine List.findSome?_eq_none_iff.mpr fun found hfound => ?_
    rw [List.mem_singleton.mp hfound]
    exact hlaunch
  refine List.findSome?_eq_none_iff.mpr ?_
  simp only [setup, program, List.mem_cons, List.not_mem_nil, or_false, forall_eq_or_imp, forall_eq]
  refine ⟨?_, ?_, ?_⟩
  · simp [Item.bodies, checkFiberLaunchesIn, hnumber]
  · simp [Item.bodies, checkFiberLaunchesIn, TypeDefinition.methods, launches_count]
  · refine List.findSome?_eq_none_iff.mpr fun body hbody => ?_
    rw [List.mem_singleton.mp hbody]
    exact hentry

theorem check_click : checkFiberSharing (scope false) (setup false click).program = none := by
  refine check_eq_none launches_click ?_
  show sharedLoop _ _ 3 [click] [] = none
  simp only [sharedLoop, walk_click]
  rfl

theorem global_count : firstSharedGlobal (scope true) (program true count) [count] = none := by
  show sharedLoop _ _ 3 [count] [] = none
  simp only [sharedLoop, walk_count]
  rfl

theorem check_count : checkFiberSharing (scope true) (setup true count).program = none :=
  check_eq_none launches_count global_count

/-! #### Two connections -/

/-- The initialisers, the host's call of `^`, and its body. -/
def serving : List Action :=
  List.replicate 6 (.fiber 0 .none) ++ [.enter 0 []] ++ List.replicate 8 (.fiber 1 .none) ++
    [.fiber 1 (.result (.data 1))] ++ List.replicate 9 (.fiber 1 .none) ++
    [.fiber 1 .builtin, .fiber 1 (.result .unit)]

/-- A fiber's way through `count`. -/
def counting (fiber : Nat) (visits : Rat) : List Action :=
  List.replicate 11 (.fiber fiber .none) ++
    [.fiber fiber (.result (.number visits)), .fiber fiber .none]

/-- A fiber's way through `click`. -/
def clicking (fiber : Nat) (visits : Rat) : List Action :=
  List.replicate 5 (.fiber fiber .none) ++ [.fiber fiber (.method 0 [])] ++ counting fiber visits

def actions : List Action :=
  serving ++ [.handle 0 0 [.data 2], .handle 0 0 [.data 3]] ++ clicking 2 1 ++ clicking 3 2

def clicked : Watched :=
  (follow (Watched.step (setup false click)) (fun _ _ => true) actions
    (Watched.start (setup false click))).get rfl

theorem reaches_clicked :
    Reachable (Watched.step (setup false click)) (Watched.start (setup false click)) clicked :=
  .of_follow (fun _ _ _ => trivial) .start (Option.some_get rfl).symm


/-- Steps that the check need not look at. -/
def quiet (setup : Setup) (action : Action) (watched : Watched) : Bool :=
  (watched.startsUnnamed setup action).isNone &&
    (watched.newAccess setup action).all fun access =>
      access.cell < setup.globalCount ||
        (watched.origins[access.cell]?).all fun origin => origin.fiber == access.fiber

theorem allowed_of_quiet {setup : Setup} {scope : RootScope} {action : Action} {watched : Watched}
    (h : quiet setup action watched = true) : Allowed setup scope action watched := by
  obtain ⟨hstarts, haccess⟩ := Bool.and_eq_true_iff.mp h
  constructor
  · intro code hcode
    simp [hcode] at hstarts
  · intro access hnew origin horigin hlocal hmaker
    simp only [hnew, horigin, Option.all_some, Bool.or_eq_true, decide_eq_true_eq,
      beq_iff_eq] at haccess
    omega

theorem allowed_of_followed {setup : Setup} {scope : RootScope} {watched : Watched}
    {handler function : Nat} {arguments : List Value} {body : Expression}
    (hstarts : (watched.startsUnnamed setup (.handle handler function arguments)).map (·.body) =
      some body) (hbody : Followed setup scope body) :
    Allowed setup scope (.handle handler function arguments) watched := by
  constructor
  · intro code hcode
    rw [hcode] at hstarts
    rw [show code.body = body from Option.some.inj hstarts]
    exact hbody
  · intro access hnew
    cases hnew

/-- `visits` has the `@`, and the handler counts itself. -/
def served : Watched :=
  (follow (Watched.step (setup true count)) (quiet (setup true count)) serving
    (Watched.start (setup true count))).get rfl

def accepted : Watched :=
  (follow (Watched.step (setup true count)) (fun _ _ => true)
    [.handle 0 0 [.data 2], .handle 0 0 [.data 3]] served).get rfl

def counted : Watched :=
  (follow (Watched.step (setup true count)) (quiet (setup true count)) (counting 2 1 ++ counting 3 2)
    accepted).get rfl

theorem run_counted :
    Run (Watched.step (setup true count)) (Allowed (setup true count) (scope true))
      (Watched.start (setup true count)) counted := by
  have hfollowed : Followed (setup true count) (scope true) count :=
    .inl ⟨launch count, mem_launches true count, List.mem_singleton.mpr rfl⟩
  have hserved : Run (Watched.step (setup true count)) (Allowed (setup true count) (scope true))
      (Watched.start (setup true count)) served :=
    .of_follow (fun _ _ => allowed_of_quiet) .start (Option.some_get rfl).symm
  have hfirst := hserved.next (.handle 0 0 [.data 2]) (allowed_of_followed rfl hfollowed) rfl
  have hsecond : Run (Watched.step (setup true count)) (Allowed (setup true count) (scope true))
      (Watched.start (setup true count)) accepted :=
    hfirst.next (.handle 0 0 [.data 3]) (allowed_of_followed rfl hfollowed) rfl
  exact .of_follow (fun _ _ => allowed_of_quiet) hsecond (Option.some_get rfl).symm

end Counting

/-- Two activations of a handler count into an atomic `visits`. -/
theorem counted_raceFree : RaceFree (Counting.setup true Counting.count) Counting.counted :=
  accepted_raceFree (Counting.rootScope_eq true Counting.count) Counting.check_count
    Counting.run_counted

/-- The handler of an accepted program reaches the top-level `visits` through a method, and two of
its activations write it. -/
theorem method_reaches_shared :
    ¬ ∀ (setup : Setup) (scope : RootScope) (watched : Watched),
      rootScope setup.program = some scope → checkFiberSharing scope setup.program = none →
      Reachable (Watched.step setup) (Watched.start setup) watched → RaceFree setup watched := by
  intro h
  have hfree := h _ _ _ (Counting.rootScope_eq false Counting.click) Counting.check_click
    Counting.reaches_clicked
  have hfirst : (⟨2, 0, true, ⟨"visits", Counting.at_ 43 63⟩⟩ : Access) ∈
      Counting.clicked.accesses := List.mem_of_getElem? (i := 3) rfl
  have hsecond : (⟨3, 0, true, ⟨"visits", Counting.at_ 43 63⟩⟩ : Access) ∈
      Counting.clicked.accesses := List.mem_of_getElem? (i := 6) rfl
  obtain ⟨beside, hd, hbeside, declared, hdeclared, -, hatomic⟩ :=
    hfree _ hfirst _ hsecond (by decide) rfl (by decide) (.inl rfl) ⟨0, some _⟩ rfl _ rfl rfl
  rw [if_pos (by decide)] at hbeside
  subst hbeside
  have hglobals : (Counting.setup false Counting.click).program.mutableGlobals =
      [⟨true, "visits", none, .number 0 (Counting.at_ 10 11), false, false, Counting.at_ 0 11⟩] :=
    rfl
  rw [hglobals, List.mem_singleton] at hdeclared
  subst hdeclared
  cases hatomic

end Quilon
