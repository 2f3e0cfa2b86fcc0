import Quilon.Typechecker.FiberSharing

/-!
# What the fiber-sharing check has seen

Code is `Unshared` when neither it nor the top-level functions it reaches by name touch a top-level
`:=` binding that is not atomic.  The check passes exactly over that: the handlers it finds and the
arms of traps are, and the `:=` locals of the block around a launch that its handler touches
are atomic.

Main results:

* `unshared_of_firstSharedGlobal` — the loop has followed every name when it finds nothing;
* `unshared_of_mem_roots`, `unshared_of_mem_arms` — what an accepted program's handlers touch;
* `atomic_of_handler_touches` — and which locals they capture.
-/

namespace Quilon

/-! ### The root scope -/

section Root

variable {program : Program} {scope scope' : RootScope}

theorem RootScope.lookup_define {name : String} {symbol : Symbol}
    (h : scope.define name symbol = some scope') :
    scope.lookup name = none ∧ scope' = (name, symbol) :: scope := by
  unfold define at h
  split at h
  · cases h
  · exact ⟨Option.not_isSome_iff_eq_none.mp ‹_›, (Option.some.inj h).symm⟩

/-- What is in scope stays, and what an item adds has an `@` only from the item's own. -/
structure Adds (scope scope' : RootScope) (item : Item) : Prop where
  keeps : ∀ name symbol, scope.lookup name = some symbol → scope'.lookup name = some symbol
  new : ∀ name symbol, scope'.lookup name = some symbol → symbol.atomic = true →
    scope.lookup name = some symbol ∨
      ∃ d, item = .variableDeclaration d ∧ d.name = name ∧ d.isMutable = true ∧ d.atomic = true

theorem Adds.refl {item : Item} : Adds scope scope item :=
  ⟨fun _ _ h => h, fun _ _ h _ => .inl h⟩

theorem Adds.push {item : Item} {name : String} {symbol : Symbol} (hnone : scope.lookup name = none)
    (hatomic : symbol.atomic = true →
      ∃ d, item = .variableDeclaration d ∧ d.name = name ∧ d.isMutable = true ∧ d.atomic = true) :
    Adds scope ((name, symbol) :: scope) item := by
  constructor
  · intro other found h
    rw [List.lookup_cons]
    by_cases hother : other = name
    · rw [hother, hnone] at h
      cases h
    · rw [beq_false_of_ne hother]
      exact h
  · intro other found h hfound
    rw [List.lookup_cons] at h
    by_cases hother : other = name
    · subst hother
      rw [beq_self_eq_true] at h
      obtain rfl := Option.some.inj h
      exact .inr (hatomic hfound)
    · rw [beq_false_of_ne hother] at h
      exact .inl h

theorem adds_of_defineAll {item : Item} (names : List String) {scope : RootScope}
    (h : scope.defineAll names = some scope') : Adds scope scope' item := by
  induction names generalizing scope with
  | nil =>
    obtain rfl := Option.some.inj h
    exact .refl
  | cons name names ih =>
    obtain ⟨next, hdefine, h⟩ := Option.bind_eq_some_iff.mp h
    obtain ⟨hnone, rfl⟩ := RootScope.lookup_define hdefine
    have hfirst : Adds scope ((name, ⟨false, false⟩) :: scope) item := .push hnone (by simp)
    have hrest := ih h
    refine ⟨fun other symbol hother => hrest.keeps _ _ (hfirst.keeps _ _ hother), ?_⟩
    intro other symbol hother hatomic
    rcases hrest.new other symbol hother hatomic with hother | hitem
    · exact hfirst.new other symbol hother hatomic
    · exact .inr hitem

theorem adds_of_defineItem {item : Item} (h : defineItem program scope item = some scope') :
    Adds scope scope' item := by
  cases item with
  | variableDeclaration d =>
    simp only [defineItem] at h
    split at h
    · cases h
    split at h
    case h_1 symbol hlookup =>
      rw [Option.ite_none_right_eq_some] at h
      obtain rfl := Option.some.inj h.2
      exact .refl
    case h_2 hlookup =>
      rw [Option.ite_none_left_eq_some] at h
      obtain ⟨hmarked, h⟩ := h
      obtain rfl := Option.some.inj h
      refine .push hlookup fun hatomic => ⟨d, rfl, rfl, ?_, hatomic⟩
      simpa [show d.atomic = true from hatomic] using hmarked
  | functionDeclaration f =>
    simp only [defineItem] at h
    split at h
    · cases h
    split at h
    · obtain rfl := Option.some.inj h
      exact .refl
    split at h
    · rw [Option.ite_none_left_eq_some] at h
      obtain rfl := Option.some.inj h.2
      exact .refl
    · obtain ⟨hnone, rfl⟩ := RootScope.lookup_define h
      exact .push hnone (by simp)
  | typeDeclaration t => exact adds_of_defineAll _ h
  | trapDeclaration trap =>
    obtain rfl := Option.some.inj h
    exact .refl

theorem name_ne_of_defineItem {item : Item} (h : defineItem program scope item = some scope') :
    (∀ d, item = .variableDeclaration d → d.name ≠ RECEIVER) ∧
      ∀ f, item = .functionDeclaration f → f.name ≠ RECEIVER := by
  constructor
  · rintro d rfl hname
    simp [defineItem, hname] at h
  · rintro f rfl hname
    simp [defineItem, hname] at h

theorem mutable_of_defineItem {d : VariableDeclaration} (hd : d.isMutable = true)
    (h : defineItem program scope (.variableDeclaration d) = some scope') :
    ∃ symbol, scope'.lookup d.name = some symbol ∧ symbol.isMutable = true := by
  simp only [defineItem] at h
  split at h
  · cases h
  split at h
  case h_1 symbol hlookup =>
    rw [Option.ite_none_right_eq_some] at h
    obtain ⟨hboth, h⟩ := h
    obtain rfl := Option.some.inj h
    simp only [Bool.and_eq_true] at hboth
    exact ⟨symbol, hlookup, hboth.1.2⟩
  case h_2 hlookup =>
    rw [Option.ite_none_left_eq_some] at h
    obtain rfl := Option.some.inj h.2
    exact ⟨_, by rw [List.lookup_cons_self], hd⟩

theorem defineItems_keeps (items : List Item) {scope : RootScope}
    (h : defineItems program items scope = some scope') :
    ∀ name symbol, scope.lookup name = some symbol → scope'.lookup name = some symbol := by
  induction items generalizing scope with
  | nil =>
    obtain rfl := Option.some.inj h
    exact fun _ _ h => h
  | cons item items ih =>
    obtain ⟨next, hitem, h⟩ := Option.bind_eq_some_iff.mp h
    exact fun name symbol hname => ih h name symbol ((adds_of_defineItem hitem).keeps _ _ hname)

/-- The names of the items, and what their `:=` leave in scope. -/
theorem defineItems_spec (items : List Item) {scope : RootScope}
    (h : defineItems program items scope = some scope') :
    (∀ f, .functionDeclaration f ∈ items → f.name ≠ RECEIVER) ∧
      ∀ d, .variableDeclaration d ∈ items → d.name ≠ RECEIVER ∧ (d.isMutable = true →
        ∃ symbol, scope'.lookup d.name = some symbol ∧ symbol.isMutable = true) := by
  induction items generalizing scope with
  | nil => simp
  | cons item items ih =>
    obtain ⟨next, hitem, hrest⟩ := Option.bind_eq_some_iff.mp h
    obtain ⟨hvariable, hfunction⟩ := name_ne_of_defineItem hitem
    obtain ⟨hfunctions, hvariables⟩ := ih hrest
    constructor
    · intro f hf
      rcases List.mem_cons.mp hf with hf | hf
      · exact hfunction f hf.symm
      · exact hfunctions f hf
    · intro d hd
      rcases List.mem_cons.mp hd with rfl | hd
      · refine ⟨hvariable d rfl, fun hmutable => ?_⟩
        obtain ⟨symbol, hlookup, hsymbol⟩ := mutable_of_defineItem hmutable hitem
        exact ⟨symbol, defineItems_keeps items hrest _ _ hlookup, hsymbol⟩
      · exact hvariables d hd

/-- An atomic name in scope has its `@` from an item. -/
theorem defineItems_atomic (items : List Item) {scope : RootScope}
    (h : defineItems program items scope = some scope') {name : String} {symbol : Symbol}
    (hlookup : scope'.lookup name = some symbol) (hatomic : symbol.atomic = true) :
    scope.lookup name = some symbol ∨ ∃ d, .variableDeclaration d ∈ items ∧ d.name = name ∧
      d.isMutable = true ∧ d.atomic = true := by
  induction items generalizing scope with
  | nil =>
    obtain rfl := Option.some.inj h
    exact .inl hlookup
  | cons item items ih =>
    obtain ⟨next, hitem, h⟩ := Option.bind_eq_some_iff.mp h
    rcases ih h with hnext | ⟨d, hd, hspec⟩
    · rcases (adds_of_defineItem hitem).new name symbol hnext hatomic with hfirst | ⟨d, rfl, hspec⟩
      · exact .inl hfirst
      · exact .inr ⟨d, List.mem_cons_self, hspec⟩
    · exact .inr ⟨d, List.mem_cons_of_mem _ hd, hspec⟩

/-- A `:=` item that the check does not take for shared has an item of its name with the `@`. -/
theorem atomic_of_not_shares (h : rootScope program = some scope) {d : VariableDeclaration}
    (hd : .variableDeclaration d ∈ program.items) (hmutable : d.isMutable = true)
    (hshares : scope.shares d.name = false) :
    ∃ declared, .variableDeclaration declared ∈ program.items ∧ declared.name = d.name ∧
      declared.isMutable = true ∧ declared.atomic = true := by
  obtain ⟨symbol, hlookup, hsymbol⟩ := ((defineItems_spec _ h).2 d hd).2 hmutable
  have hatomic : symbol.atomic = true := by simpa [RootScope.shares, hlookup, hsymbol] using hshares
  rcases defineItems_atomic _ h hlookup hatomic with hnone | hdeclared
  · cases hnone
  · exact hdeclared

end Root

/-! ### Touched names -/

theorem exists_mem_childrenIn {e c : Expression} (h : c ∈ e.children) (enclosing : Expression) :
    ∃ around, (around, c) ∈ e.childrenIn enclosing := by
  rw [← e.childrenIn_snd enclosing] at h
  obtain ⟨⟨around, c⟩, hmem, rfl⟩ := List.mem_map.mp h
  exact ⟨around, hmem⟩

/-- The body around a child is the one around its parent, or lies within the parent. -/
theorem around_of_mem_childrenIn {e enclosing : Expression} {p : Expression × Expression}
    (h : p ∈ e.childrenIn enclosing) : p.1 = enclosing ∨ p.1 ∈ e.children := by
  unfold Expression.childrenIn at h
  split at h
  · obtain rfl := List.mem_singleton.mp h
    exact .inr List.mem_cons_self
  · obtain ⟨s, hs, h⟩ := List.mem_flatMap.mp h
    unfold Statement.childrenIn at h
    split at h
    · obtain rfl := List.mem_singleton.mp h
      exact .inr (List.mem_flatMap.mpr ⟨_, hs, List.mem_cons_self⟩)
    · obtain ⟨m, hm, rfl⟩ := List.mem_map.mp h
      exact .inr (List.mem_flatMap.mpr ⟨_, hs, List.mem_map_of_mem hm⟩)
    · obtain ⟨c, hc, rfl⟩ := List.mem_map.mp h
      exact .inl rfl
  · obtain ⟨c, hc, rfl⟩ := List.mem_map.mp h
    exact .inl rfl

theorem mem_visits_self (enclosing e : Expression) : (enclosing, e) ∈ visits enclosing e := by
  rw [visits_eq]
  exact List.mem_cons_self

/-- Both parts of a visit lie within the body that is visited. -/
theorem within_of_mem_visits {enclosing : Expression} (e : Expression)
    {p : Expression × Expression} (h : p ∈ visits enclosing e) :
    Within e p.2 ∧ (p.1 = enclosing ∨ Within e p.1) := by
  induction e using Expression.childrenInduction generalizing enclosing with
  | h e ih =>
    rw [visits_eq, List.mem_cons, List.mem_flatMap] at h
    rcases h with rfl | ⟨child, hchild, h⟩
    · exact ⟨.refl, .inl rfl⟩
    have hmem := Expression.mem_children_of_mem_childrenIn hchild
    have hwithin : ∀ {c}, Within child.2 c → Within e c := (Within.refl.child hmem).trans
    obtain ⟨hsecond, hfirst⟩ := ih _ hmem h
    refine ⟨hwithin hsecond, ?_⟩
    rcases hfirst with heq | hfirst
    · rw [heq]
      exact (around_of_mem_childrenIn hchild).imp id fun h => Within.refl.child h
    · exact .inr (hwithin hfirst)

/-- Every sub-expression is visited. -/
theorem exists_mem_visits {e c : Expression} (h : Within e c) (enclosing : Expression) :
    ∃ around, (around, c) ∈ visits enclosing e := by
  -- A visited expression's children are visited, by induction on the body.
  have hchild : ∀ (e enclosing : Expression) {p : Expression × Expression} {c : Expression},
      p ∈ visits enclosing e → c ∈ p.2.children → ∃ around, (around, c) ∈ visits enclosing e := by
    intro e
    induction e using Expression.childrenInduction with
    | h e ih =>
      intro enclosing p c hp hc
      rw [visits_eq, List.mem_cons, List.mem_flatMap] at hp
      rcases hp with rfl | ⟨child, hchild, hp⟩
      · obtain ⟨around, hmem⟩ := exists_mem_childrenIn hc enclosing
        refine ⟨around, ?_⟩
        rw [visits_eq]
        exact List.mem_cons_of_mem _ (List.mem_flatMap.mpr ⟨_, hmem, mem_visits_self around c⟩)
      · obtain ⟨around, hmem⟩ :=
          ih _ (Expression.mem_children_of_mem_childrenIn hchild) child.1 hp hc
        refine ⟨around, ?_⟩
        rw [visits_eq]
        exact List.mem_cons_of_mem _ (List.mem_flatMap.mpr ⟨child, hchild, hmem⟩)
  induction h with
  | refl => exact ⟨enclosing, mem_visits_self enclosing e⟩
  | child _ hc ih =>
    obtain ⟨around, hmem⟩ := ih
    exact hchild e enclosing hmem hc

theorem mem_walk {e : Expression} {touch : Touch} :
    touch ∈ walk e ↔ ∃ c, Within e c ∧ touch ∈ c.touches := by
  rw [walk, List.mem_flatMap]
  constructor
  · rintro ⟨p, hp, htouch⟩
    exact ⟨p.2, (within_of_mem_visits e hp).1, htouch⟩
  · rintro ⟨c, hwithin, htouch⟩
    obtain ⟨around, hmem⟩ := exists_mem_visits hwithin e
    exact ⟨_, hmem, htouch⟩

theorem mem_walk_of_within {e c : Expression} (h : Within e c) {touch : Touch}
    (htouch : touch ∈ walk c) : touch ∈ walk e := by
  obtain ⟨inner, hinner, htouch⟩ := mem_walk.mp htouch
  exact mem_walk.mpr ⟨inner, h.trans hinner, htouch⟩

/-! ### Unshared code -/

section Unshared

variable (scope : RootScope) (program : Program)

/-- The names code touches, in its own text and in that of the top-level functions it names. -/
inductive ReachesName (e : Expression) : String → Prop where
  | touches {touch : Touch} : touch ∈ walk e → ReachesName e touch.name
  | through {name : String} {body : Expression} {touch : Touch} : ReachesName e name →
      body ∈ definedBodies program name → touch ∈ walk body → ReachesName e touch.name

def Unshared (e : Expression) : Prop :=
  ∀ name, ReachesName program e name → scope.shares name = false

variable {scope program} {e : Expression}

theorem Unshared.within (h : Unshared scope program e) {c : Expression} (hc : Within e c) :
    Unshared scope program c := by
  intro name hname
  refine h name ?_
  induction hname with
  | touches htouch => exact .touches (mem_walk_of_within hc htouch)
  | through _ hbody htouch ih => exact .through ih hbody htouch

theorem Unshared.child (e : Expression) (h : Unshared scope program e) :
    ∀ c ∈ e.children, Unshared scope program c :=
  fun _ hc => h.within (Within.refl.child hc)

theorem Unshared.touches (h : Unshared scope program e) {touch : Touch} (htouch : touch ∈ e.touches) :
    scope.shares touch.name = false :=
  h _ (.touches (mem_walk.mpr ⟨e, .refl, htouch⟩))

/-- A function that unshared code names is unshared. -/
theorem Unshared.called (h : Unshared scope program e) {touch : Touch} (htouch : touch ∈ walk e)
    {body : Expression} (hbody : body ∈ definedBodies program touch.name) :
    Unshared scope program body := by
  intro name hname
  refine h name ?_
  induction hname with
  | touches hinner => exact .through (.touches htouch) hbody hinner
  | through _ hinner hlast ih => exact .through ih hinner hlast

/-! ### The loop -/

/-- The bodies the names of a body are defined with are among `all`. -/
def Covered (scope : RootScope) (program : Program) (all : List Expression) (body : Expression) :
    Prop :=
  ∀ touch ∈ walk body, scope.shares touch.name = false ∧
    ∀ defined ∈ definedBodies program touch.name, defined ∈ all

theorem unshared_of_covered {all : List Expression}
    (hall : ∀ body ∈ all, Covered scope program all body) {body : Expression}
    (hbody : body ∈ all) : Unshared scope program body := by
  -- Every name reached is one that a covered body touches.
  have hreached : ∀ name, ReachesName program body name →
      ∃ found ∈ all, ∃ touch ∈ walk found, touch.name = name := by
    intro name hname
    induction hname with
    | touches htouch => exact ⟨body, hbody, _, htouch, rfl⟩
    | through _ hdefined htouch ih =>
      obtain ⟨found, hfound, touch, hmem, rfl⟩ := ih
      exact ⟨_, (hall found hfound touch hmem).2 _ hdefined, _, htouch, rfl⟩
  intro name hname
  obtain ⟨found, hfound, touch, htouch, rfl⟩ := hreached name hname
  exact (hall found hfound touch htouch).1

/-- The functions under names that were not visited. -/
def unvisited (program : Program) (visited : List String) : List FunctionDeclaration :=
  program.functions.filter (·.name ∉ visited)

/-- A name that is visited takes the functions under it out. -/
theorem unvisited_cons (visited : List String) {name : String} (hname : name ∉ visited) :
    (definedBodies program name).length + (unvisited program (name :: visited)).length =
      (unvisited program visited).length := by
  unfold definedBodies unvisited
  induction program.functions with
  | nil => rfl
  | cons f functions ih =>
    simp only [List.length_map] at ih ⊢
    by_cases hf : f.name = name
    · subst hf
      simp [hname] at ih ⊢
      omega
    · have hbeq : (f.name == name) = false := by simpa using hf
      by_cases hmem : f.name ∈ visited
      · simp [hmem, hbeq] at ih ⊢
        exact ih
      · simp [hmem, hf, hbeq] at ih ⊢
        omega

theorem pushDefined_spec (touches : List Touch) {pending pending' : List Expression}
    {visited visited' : List String}
    (h : pushDefined program touches pending visited = (pending', visited')) :
    pending ⊆ pending' ∧ visited ⊆ visited' ∧ (∀ touch ∈ touches, touch.name ∈ visited') ∧
      (∀ name ∈ visited', name ∉ visited → ∀ body ∈ definedBodies program name, body ∈ pending') ∧
      pending'.length + (unvisited program visited').length =
        pending.length + (unvisited program visited).length := by
  induction touches generalizing pending visited with
  | nil =>
    obtain ⟨rfl, rfl⟩ := Prod.mk.inj h
    refine ⟨fun _ h => h, fun _ h => h, by simp, ?_, rfl⟩
    exact fun name hname hnot => absurd hname hnot
  | cons touch touches ih =>
    rw [pushDefined] at h
    split at h
    case isTrue hseen =>
      rw [List.contains_iff_mem] at hseen
      obtain ⟨hpending, hvisited, htouches, hnew, hlength⟩ := ih h
      exact ⟨hpending, hvisited, List.forall_mem_cons.mpr ⟨hvisited hseen, htouches⟩, hnew,
        hlength⟩
    case isFalse hseen =>
      rw [List.contains_iff_mem] at hseen
      obtain ⟨hpending, hvisited, htouches, hnew, hlength⟩ := ih h
      have hname : touch.name ∈ visited' := hvisited List.mem_cons_self
      refine ⟨fun body hbody => hpending (List.mem_append_right _ hbody),
        fun name h => hvisited (List.mem_cons_of_mem _ h),
        List.forall_mem_cons.mpr ⟨hname, htouches⟩, ?_, ?_⟩
      · intro name hmem hnot body hbody
        by_cases heq : name = touch.name
        · subst heq
          exact hpending (List.mem_append_left _ (List.mem_reverse.mpr hbody))
        · exact hnew name hmem (by simp [heq, hnot]) body hbody
      · have hcount : (definedBodies program touch.name).length + _ = _ :=
          unvisited_cons visited hseen
        simp only [List.length_append, List.length_reverse] at hlength
        omega

/-- When the loop finds nothing, it has come past all that was pending and all that it reaches. -/
theorem sharedLoop_covered (done : List Expression) {fuel : Nat} {pending : List Expression}
    {visited : List String}
    (hfuel : pending.length + (unvisited program visited).length < fuel)
    (hdone : ∀ body ∈ done, ∀ touch ∈ walk body,
      scope.shares touch.name = false ∧ touch.name ∈ visited)
    (hvisited : ∀ name ∈ visited, ∀ body ∈ definedBodies program name,
      body ∈ done ∨ body ∈ pending)
    (h : sharedLoop scope program fuel pending visited = none) :
    ∃ all, done ⊆ all ∧ pending ⊆ all ∧ ∀ body ∈ all, Covered scope program all body := by
  induction fuel generalizing done pending visited with
  | zero => omega
  | succ fuel ih =>
    cases pending with
    | nil =>
      refine ⟨done, fun _ h => h, List.nil_subset _, ?_⟩
      intro body hbody touch htouch
      obtain ⟨hshares, hmem⟩ := hdone body hbody touch htouch
      exact ⟨hshares, fun defined hdefined => by simpa using hvisited _ hmem defined hdefined⟩
    | cons body pending =>
      rw [sharedLoop] at h
      split at h
      case h_1 => cases h
      case h_2 hfind =>
        obtain ⟨pending', visited', hpush⟩ : ∃ p v,
          pushDefined program (walk body) pending visited = (p, v) := ⟨_, _, rfl⟩
        rw [hpush] at h
        obtain ⟨hpending, hsub, htouches, hnew, hlength⟩ := pushDefined_spec _ hpush
        simp only [List.length_cons] at hfuel
        have hdone' : ∀ b ∈ body :: done, ∀ touch ∈ walk b,
            scope.shares touch.name = false ∧ touch.name ∈ visited' := by
          refine List.forall_mem_cons.mpr ⟨fun touch htouch => ?_, fun b hb touch htouch => ?_⟩
          · exact ⟨by simpa using List.find?_eq_none.mp hfind touch htouch, htouches touch htouch⟩
          · obtain ⟨hshares, hmem⟩ := hdone b hb touch htouch
            exact ⟨hshares, hsub hmem⟩
        have hvisited' : ∀ name ∈ visited', ∀ defined ∈ definedBodies program name,
            defined ∈ body :: done ∨ defined ∈ pending' := by
          intro name hname defined hdefined
          by_cases hold : name ∈ visited
          · rcases hvisited name hold defined hdefined with hmem | hmem
            · exact .inl (List.mem_cons_of_mem _ hmem)
            · rcases List.mem_cons.mp hmem with rfl | hmem
              · exact .inl List.mem_cons_self
              · exact .inr (hpending hmem)
          · exact .inr (hnew name hname hold defined hdefined)
        obtain ⟨all, hall, hrest, hcovered⟩ :=
          ih (body :: done) (by omega) hdone' hvisited' h
        refine ⟨all, fun b hb => hall (List.mem_cons_of_mem _ hb), ?_, hcovered⟩
        exact List.cons_subset.mpr ⟨hall List.mem_cons_self, fun b hb => hrest (hpending hb)⟩

theorem unshared_of_firstSharedGlobal {roots : List Expression}
    (h : firstSharedGlobal scope program roots = none) {root : Expression} (hroot : root ∈ roots) :
    Unshared scope program root := by
  have hbound : roots.reverse.length + (unvisited program []).length <
      sharedBound program roots := by
    have hle := List.length_filter_le (fun f : FunctionDeclaration => f.name ∉ ([] : List String))
      program.functions
    simp only [List.length_reverse, sharedBound, unvisited]
    omega
  obtain ⟨all, -, hroots, hcovered⟩ := sharedLoop_covered [] hbound (by simp) (by simp) h
  exact unshared_of_covered hcovered (hroots (List.mem_reverse.mpr hroot))

end Unshared

/-! ### An accepted program -/

/-- The launching calls of a program. -/
def Program.fiberLaunches (program : Program) : List FiberLaunch :=
  program.items.flatMap fun item => item.bodies.flatMap fiberLaunchesIn

theorem enclosing_of_fiberLaunch? {p : Expression × Expression} {launch : FiberLaunch}
    (h : fiberLaunch? p = some launch) : launch.enclosing = p.1 := by
  unfold fiberLaunch? at h
  split at h
  · obtain ⟨primitive, -, rfl⟩ := Option.map_eq_some_iff.mp h
    rfl
  · cases h

theorem contains_enclosing {program : Program} {launch : FiberLaunch}
    (hlaunch : launch ∈ program.fiberLaunches) : program.Contains launch.enclosing := by
  obtain ⟨item, hitem, hlaunch⟩ := List.mem_flatMap.mp hlaunch
  obtain ⟨body, hbody, hlaunch⟩ := List.mem_flatMap.mp hlaunch
  obtain ⟨p, hvisit, hlaunch⟩ := List.mem_filterMap.mp hlaunch
  refine ⟨item, hitem, body, hbody, ?_⟩
  rw [enclosing_of_fiberLaunch? hlaunch]
  rcases (within_of_mem_visits body hvisit).2 with heq | hwithin
  · rw [heq]
    exact .refl
  · exact hwithin

section Accepted

variable {scope : RootScope} {program : Program} (h : checkFiberSharing scope program = none)

include h

theorem checkFiberLaunch_eq_none {launch : FiberLaunch} (hlaunch : launch ∈ program.fiberLaunches) :
    checkFiberLaunch scope program launch = none := by
  obtain ⟨item, hitem, hlaunch⟩ := List.mem_flatMap.mp hlaunch
  obtain ⟨body, hbody, hlaunch⟩ := List.mem_flatMap.mp hlaunch
  have hchecked := List.findSome?_eq_none_iff.mp h item hitem
  suffices hin : checkFiberLaunchesIn scope program body = none from
    List.findSome?_eq_none_iff.mp hin launch hlaunch
  cases item with
  | trapDeclaration trap =>
    obtain ⟨arm, harm, rfl⟩ := List.mem_map.mp hbody
    have harm := List.findSome?_eq_none_iff.mp hchecked arm harm
    unfold checkTrapArm at harm
    split at harm
    · cases harm
    · assumption
  | _ => exact List.findSome?_eq_none_iff.mp hchecked body hbody

theorem unshared_of_mem_roots {launch : FiberLaunch} (hlaunch : launch ∈ program.fiberLaunches)
    {root : Expression} (hroot : root ∈ launch.roots program) : Unshared scope program root := by
  have hchecked := checkFiberLaunch_eq_none h hlaunch
  unfold checkFiberLaunch at hchecked
  split at hchecked
  · cases hchecked
  · exact unshared_of_firstSharedGlobal ‹_› hroot

theorem unshared_of_mem_arms {trap : TrapDeclaration} (htrap : .trapDeclaration trap ∈ program.items)
    {arm : MatchArm} (harm : arm ∈ trap.arms) : Unshared scope program arm.body := by
  have hchecked := List.findSome?_eq_none_iff.mp (List.findSome?_eq_none_iff.mp h _ htrap) arm harm
  unfold checkTrapArm at hchecked
  split at hchecked
  · cases hchecked
  · exact unshared_of_firstSharedGlobal (Option.map_eq_none_iff.mp hchecked) List.mem_cons_self

/-- A `:=` local of the block around a launch that its handler touches is declared with `@`. -/
theorem atomic_of_handler_touches {launch : FiberLaunch} (hlaunch : launch ∈ program.fiberLaunches)
    {body : Expression} (hbody : launch.handlerBody program = some body)
    {d : VariableDeclaration} (hd : d ∈ directMutableLocals launch.enclosing)
    (hlocal : scope.holds d.name = false) {touch : Touch} (htouch : touch ∈ walk body)
    (hname : touch.name = d.name) :
    ∃ declared ∈ directMutableLocals launch.enclosing,
      declared.name = d.name ∧ declared.atomic = true := by
  have hchecked := checkFiberLaunch_eq_none h hlaunch
  unfold checkFiberLaunch at hchecked
  split at hchecked
  · cases hchecked
  rw [hbody] at hchecked
  have hnone := List.find?_eq_none.mp (Option.map_eq_none_iff.mp hchecked) touch htouch
  by_contra hnot
  apply hnone
  rw [hname]
  simp only [FiberLaunch.capturedNames, List.contains_iff_mem, List.mem_filter, hlocal,
    Bool.not_false, Bool.true_and, Bool.not_eq_true', List.any_eq_false, Bool.and_eq_true,
    beq_iff_eq, not_and, Bool.not_eq_true]
  refine ⟨List.mem_map_of_mem hd, fun declared hdeclared heq => ?_⟩
  by_contra hatomic
  exact hnot ⟨declared, hdeclared, heq, by simpa using hatomic⟩

end Accepted

end Quilon
