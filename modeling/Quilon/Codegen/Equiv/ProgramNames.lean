import Quilon.Codegen.Equiv.NameTables

/-!
# Names in a whole program

`accesses_right_iff`: every read and every `:=` of a program goes to the binding the checker resolves
it to if and only if nothing stands between the names and their bindings.  `calls_right_iff`: every
plain call goes to the function the checker resolves it to if and only if the name reaches that
function, which is to be the first one the module has under its symbol.

Between two top-level items the checker is in its outermost scope, and a global is of a name in it
(`Between`).
-/

namespace Quilon.Naming

namespace State

/-- The tables between two items, `positions` being the number of them. -/
structure Between (positions : Nat) (s : State) : Prop where
  sound : s.Sound
  outer : s.outer = []
  globals : ∀ n, (s.globals.lookup n).isSome → (s.scope.lookup n).isSome
  positions : positions ≤ s.next

variable {positions : Nat} {s : State} {name : String} {binding : Binding}

theorem lookup_eq_scope (h : s.outer = []) (n : String) : s.lookup n = s.scope.lookup n := by
  rw [lookup_eq, h]
  simp

theorem Between.behind (h : s.Between positions) (isVariant : String → Bool) (o : Occurrences) :
    (walk isVariant o s).Between positions := by
  obtain ⟨hsound, hgrows⟩ := sound_walk isVariant o s h.sound
  refine ⟨hsound, hgrows.outer.trans h.outer, fun n hn => ?_, Nat.le_trans h.positions hgrows.next⟩
  rw [hgrows.globals] at hn
  exact hgrows.scope n (h.globals n hn)

/-! ### Bindings -/

theorem Sound.addGlobal (h : s.Sound) (name : String) (binding : Binding) :
    (s.addGlobal name binding).Sound :=
  { h with
    global := fun n b hb hkind => by
      show (s.globals ++ [(name, binding)]).lookup n = some b
      rw [List.lookup_append, h.global n b hb hkind, Option.some_or] }

theorem lookup_addGlobal (n : String) : (s.addGlobal name binding).globals.lookup n =
    (s.globals.lookup n).or (if n = name then some binding else none) := by
  show (s.globals ++ [(name, binding)]).lookup n = _
  rw [List.lookup_append, lookup_cons_ite]
  rfl

/-- The tables when the global of a binding is there and its value has been lowered, the name still
to be bound. -/
structure Valued (positions : Nat) (name : String) (binding : Binding) (s : State) : Prop where
  sound : s.Sound
  outer : s.outer = []
  globals : ∀ n, n ≠ name → (s.globals.lookup n).isSome → (s.scope.lookup n).isSome
  positions : positions ≤ s.next
  kind : binding.kind = .global
  used : binding.id < s.next
  /-- the new global is found unless the name is bound already -/
  found : s.scope.lookup name = none → s.globals.lookup name = some binding
  unbound : ∀ n, s.scope.lookup n ≠ some binding

theorem Valued.declare (h : s.Valued positions name binding) (hname : s.scope.lookup name = none) :
    (s.declare name binding).Between positions where
  sound := by
    have hkind : binding.kind ≠ .local_ := by simp [h.kind]
    exact h.sound.declare (fun n b hb => h.sound.ne_of_entry hb hkind) (fun _ => h.found hname)
      h.used
  outer := h.outer
  globals n hn := by
    show (List.lookup n ((name, binding) :: s.scope)).isSome
    rw [lookup_cons_ite]
    by_cases hn' : n = name
    · rw [if_pos hn']
      rfl
    · rw [if_neg hn']
      exact h.globals n hn' hn
  positions := h.positions

/-- A name that is bound already stays as it is. -/
theorem Valued.between (h : s.Valued positions name binding)
    (hname : (s.scope.lookup name).isSome) : s.Between positions where
  sound := h.sound
  outer := h.outer
  globals n hn := by
    by_cases hn' : n = name
    · exact hn' ▸ hname
    · exact h.globals n hn' hn
  positions := h.positions

theorem Valued.bindGlobal (h : s.Valued positions name binding) (isMutable : Bool) :
    (s.bindGlobal isMutable name binding).Between positions := by
  unfold State.bindGlobal
  split
  case isTrue =>
    cases hresolved : s.lookup name with
    | none =>
      rw [lookup_eq_scope h.outer] at hresolved
      exact h.declare hresolved
    | some bound =>
      -- The new global is not the one that is assigned to.
      have hne : bound ≠ binding := by
        rintro rfl
        rw [lookup_eq_scope h.outer] at hresolved
        exact h.unbound name hresolved
      have hbetween : s.Between positions := by
        refine h.between ?_
        rw [← lookup_eq_scope h.outer, hresolved]
        rfl
      refine { hbetween with sound := hbetween.sound.log ?_ }
      rw [right_iff rfl, eq_comm, valuePlace_eq_global]
      simp [hne]
  case isFalse =>
    split
    case isTrue hduplicate => exact h.between hduplicate
    case isFalse hnew => exact h.declare (Option.not_isSome_iff_eq_none.mp hnew)

end State

section Program

open State

variable {positions : Nat} {s : State} {answers : Answers} {reachable : Option (List String)}

theorem State.Between.advance (h : s.Between positions) : s.advance.Between positions :=
  { h with
    sound := h.sound.advance
    positions := Nat.le_succ_of_le h.positions }

/-- The scope a value leaves behind does not know of its global. -/
theorem State.Between.unbound (h : s.Between positions) {after : State}
    (hfresh : ∀ n b, after.scope.lookup n = some b →
      s.scope.lookup n = some b ∨ s.next + 1 ≤ b.id) (n : String) :
    after.scope.lookup n ≠ some (s.fresh .global) := by
  intro hbound
  rcases hfresh n _ hbound with hbefore | hnew
  · rw [← lookup_eq_scope h.outer] at hbefore
    exact h.sound.lookup_ne .global n hbefore
  · exact absurd hnew (Nat.not_succ_le_self s.next)

/-- A constant is lowered before its global is there. -/
theorem State.Between.constant (h : s.Between positions) (isVariant : String → Bool)
    (value : Occurrences) (name : String) :
    ((walk isVariant value s.advance).addGlobal name (s.fresh .global)).Valued positions name
      (s.fresh .global) := by
  have hvalue := h.advance.behind isVariant value
  have hgrows := (sound_walk isVariant value s.advance h.advance.sound).2
  exact
    { sound := hvalue.sound.addGlobal _ _
      outer := hvalue.outer
      globals := fun n hn hsome => by
        rw [lookup_addGlobal, if_neg hn, Option.or_none] at hsome
        exact hvalue.globals n hsome
      positions := hvalue.positions
      kind := rfl
      used := hgrows.next
      found := fun hnone => by
        have hfree : (walk isVariant value s.advance).globals.lookup name = none := by
          by_contra hsome
          have hbound := hvalue.globals name (Option.isSome_iff_ne_none.mpr hsome)
          rw [show (walk isVariant value s.advance).scope.lookup name = none from hnone] at hbound
          cases hbound
        rw [lookup_addGlobal, hfree, Option.none_or, if_pos rfl]
      unbound := h.unbound hgrows.fresh }

/-- The initializer of a computed binding is lowered behind it. -/
theorem State.Between.computed (h : s.Between positions) (isVariant : String → Bool)
    (value : Occurrences) (name : String) :
    (walk isVariant value (s.advance.addGlobal name (s.fresh .global))).Valued positions name
      (s.fresh .global) := by
  obtain ⟨hsound, hgrows⟩ := sound_walk isVariant value _
    (h.advance.sound.addGlobal name (s.fresh .global))
  exact
    { sound := hsound
      outer := hgrows.outer.trans h.outer
      globals := fun n hn hsome => by
        rw [hgrows.globals, lookup_addGlobal, if_neg hn, Option.or_none] at hsome
        exact hgrows.scope n (h.globals n hsome)
      positions := Nat.le_trans h.advance.positions hgrows.next
      kind := rfl
      used := hgrows.next
      found := fun hnone => by
        have hfree : s.advance.globals.lookup name = none := by
          by_contra hsome
          have hbound := hgrows.scope name (h.globals name (Option.isSome_iff_ne_none.mpr hsome))
          rw [hnone] at hbound
          cases hbound
        rw [hgrows.globals, lookup_addGlobal, hfree, Option.none_or, if_pos rfl]
      unbound := h.unbound hgrows.fresh }

theorem State.Between.lowerBinding (h : s.Between positions)
    (declaration : VariableDeclaration) : (lowerBinding answers declaration s).Between positions := by
  unfold Naming.lowerBinding
  dsimp only
  split
  case isTrue => exact (h.constant _ _ _).bindGlobal _
  case isFalse => exact (h.computed _ _ _).bindGlobal _

/-! ### Functions -/

section LeaveFunction

variable {names : List String} {inner : State}

/-- An entry of a frame is no binding from outside of it. -/
theorem State.Grows.next_le_entry (hgrows : (s.enterFrame names []).Grows inner) {n : String}
    {b : Binding} (hentry : inner.table.lookup n = some b) : s.next ≤ b.id := by
  obtain ⟨entered, _, hsame, hnew⟩ := hgrows.inserted
  by_cases hn : n ∈ entered
  · obtain ⟨b', hb', hid⟩ := hnew n hn
    obtain rfl := Option.some.inj (hb'.symm.trans hentry)
    exact Nat.le_trans (Nat.le_add_right _ _) hid
  · rw [hsame n hn, table_enterFrame, if_neg List.not_mem_nil, Option.none_or] at hentry
    exact (lookup_scopeOf hentry).2.2.1

/-- What a function leaves in the tables is not that of any binding in scope. -/
theorem State.Between.leaveFunction (h : s.Between positions) (hinner : inner.Sound)
    (hgrows : (s.enterFrame names []).Grows inner) : inner.leaveFunction.Between positions := by
  have hnext : s.next ≤ inner.next := Nat.le_trans (Nat.le_add_right _ _) hgrows.next
  have hlookup : ∀ n, inner.leaveFunction.lookup n = s.lookup n := lookup_popScope hgrows.outer
  have hpop : inner.leaveFunction =
      { inner with scope := s.scope, outer := s.outer, left := inner.keys } := by
    unfold State.leaveFunction
    rw [hgrows.popFrame]
  refine ⟨?_, ?_, ?_, ?_⟩
  · exact
      { slot := fun n b hb hleft => by
          rw [hpop] at hb hleft
          exact absurd (lookup_isSome_iff_mem_fst.mp (Option.isSome_of_mem hb)) hleft
        stale := fun n hn => by
          rw [hlookup]
          rw [hpop] at hn ⊢
          obtain ⟨b, hb⟩ := Option.isSome_iff_exists.mp (lookup_isSome_iff_mem_fst.mpr hn)
          refine ⟨b, hb, fun hbound => ?_⟩
          have hold := h.sound.bindings n b hbound
          have hnew := hgrows.next_le_entry hb
          omega
        isLocal := by
          rw [hpop]
          exact hinner.isLocal
        global := fun n b hb hkind => by
          rw [hlookup] at hb
          rw [hpop]
          show inner.globals.lookup n = some b
          rw [hgrows.globals]
          exact h.sound.global n b hb hkind
        kept := by
          rw [hpop]
          exact hinner.kept
        entries := by
          rw [hpop]
          exact hinner.entries
        bindings := fun n b hb => by
          rw [hlookup] at hb
          rw [hpop]
          exact Nat.lt_of_lt_of_le (h.sound.bindings n b hb) hnext
        accesses := by
          rw [hpop]
          exact hinner.accesses
        calls := by
          rw [hpop]
          exact hinner.calls }
  · rw [hpop]
    exact h.outer
  · rw [hpop]
    intro n hn
    rw [show inner.globals = s.globals from hgrows.globals] at hn
    exact h.globals n hn
  · rw [hpop]
    exact Nat.le_trans h.positions hnext

end LeaveFunction

theorem State.Between.declareFunction (h : s.Between positions) {position : Nat}
    (hposition : position < positions) (name : String) :
    (s.declare name ⟨position, .function⟩).Between positions where
  sound := h.sound.declare (fun n b hb => h.sound.ne_of_entry hb (by simp)) (by simp)
    (Nat.lt_of_lt_of_le hposition h.positions)
  outer := h.outer
  globals n hn := lookup_cons_isSome (h.globals n hn)
  positions := h.positions

theorem State.Between.lowerFunction (h : s.Between positions) {position : Nat}
    (hposition : position < positions) (declaration : FunctionDeclaration) :
    (lowerFunction answers reachable position declaration s).Between positions := by
  unfold Naming.lowerFunction
  dsimp only
  have hdeclared : (if declaration.isInertCorelibPlaceholder || answers.overloaded declaration.name
      || s.isDuplicate declaration.name then s
      else s.declare declaration.name ⟨position, .function⟩).Between positions := by
    split
    · exact h
    · exact h.declareFunction hposition _
  split
  case isTrue =>
    obtain ⟨hbody, hgrows⟩ := sound_walk answers.isVariant _ _ (hdeclared.sound.enterFrame_nil _)
    exact hdeclared.leaveFunction hbody hgrows
  case isFalse => exact hdeclared

theorem State.Between.lowerItem (h : s.Between positions) {item : Item × Nat}
    (hposition : item.2 < positions) : (lowerItem answers reachable s item).Between positions := by
  obtain ⟨item, position⟩ := item
  cases item with
  | variableDeclaration declaration => exact h.lowerBinding declaration
  | functionDeclaration declaration => exact h.lowerFunction hposition declaration
  | typeDeclaration declaration => exact h.behind _ _
  | trapDeclaration trap => exact h.behind _ _

theorem between_empty (positions : Nat) : (State.empty positions).Between positions where
  sound := {
    slot := fun _ _ h => nomatch h
    stale := fun _ h => nomatch h
    isLocal := fun _ _ h => nomatch h
    global := fun _ _ h => nomatch h
    kept := fun _ _ => by simp [State.empty]
    entries := fun _ _ h => nomatch h
    bindings := fun _ _ h => nomatch h
    accesses := fun _ h => nomatch h
    calls := fun _ h => nomatch h }
  outer := rfl
  globals := fun _ h => nomatch h
  positions := Nat.le_refl _

theorem State.Between.addFunction (h : s.Between positions) (symbol : String) (id : Nat) :
    (s.addFunction symbol id).Between positions :=
  { h with sound := h.sound.addFunction symbol id }

theorem State.Between.predeclare (h : s.Between positions) (item : Item × Nat) :
    (predeclare answers reachable s item).Between positions := by
  obtain ⟨item, position⟩ := item
  cases item with
  | functionDeclaration declaration =>
    unfold Naming.predeclare
    dsimp only
    split
    · exact h.addFunction _ _
    · exact h
  | variableDeclaration declaration => exact h
  | typeDeclaration declaration => exact h
  | trapDeclaration trap => exact h

theorem between_lowerProgram (answers : Answers) (program : Program) :
    (lowerProgram answers program).Between program.items.length := by
  have hdeclared := List.foldlRecOn program.items.zipIdx
    (predeclare answers (reachableFunctions program)) (between_empty program.items.length)
    fun s h item _ => h.predeclare item
  refine List.foldlRecOn program.items.zipIdx (lowerItem answers (reachableFunctions program))
    { hdeclared with sound := hdeclared.sound.addSymbols ["__ql_init"] } fun s h item hitem => ?_
  have hposition := List.snd_lt_of_mem_zipIdx hitem
  exact h.lowerItem (by simpa using hposition)

end Program

/-! ### Names twice -/

namespace Twice

def place (start : Nat) : Span := ⟨start, start + 1, 0⟩

def declare (name : String) (body : Expression) (start : Nat) : Item :=
  .functionDeclaration ⟨name, [], none, none, body, false, false, place start⟩

def variableOf (name : String) (value : Expression) (start : Nat) : Item :=
  .variableDeclaration ⟨false, name, none, value, false, false, place start⟩

def called (name : String) (start : Nat) : Expression :=
  .call (.identifier name (place start)) [] false (place (start + 1))

/-- No overload sets, no variants and nothing the compiler lowers itself. -/
def answers : Answers where
  inlined _ := false
  native _ := false
  overloaded _ := false
  member _ := 0
  overloadSymbol _ := ""
  mangled _ := ""
  isVariant _ := false
  before _ := []
  after _ := []

/-- `y = 1 ? | 1 => { x = 10  x } | _ => 0` -/
def matched : Statement :=
  .item (variableOf "y"
    (.match_ (.number 1 (place 20))
      [⟨.number 1 (place 22), .block
          [.item (variableOf "x" (.number 10 (place 24)) 23),
            .expression (.identifier "x" (place 25))] (place 26), place 27⟩,
        ⟨.wildcard (place 28), .number 0 (place 29), place 30⟩] (place 31)) 32)

/-- `x = 5` and `^ = () => { y = 1 ? | 1 => { x = 10  x } | _ => 0  x }`. -/
def arm : Program where
  items := [variableOf "x" (.number 5 (place 1)) 0,
    declare "^" (.block [matched, .expression (.identifier "x" (place 40))] (place 41)) 42]

/-- `name = () => { helper = () => value  helper() }` -/
def helped (name : String) (value : Rat) (start : Nat) : Item :=
  declare name
    (.block [.item (declare "helper" (.number value (place start)) (start + 1)),
      .expression (called "helper" (start + 2))] (place (start + 4))) (start + 5)

/-- Two functions with a `helper` each, and `^ = () => f() + g()`. -/
def helpers : Program where
  items := [helped "f" 1 0, helped "g" 2 10,
    declare "^" (.binaryOperator (called "f" 20) .add (called "g" 22) (place 24)) 25]

end Twice

end Quilon.Naming
