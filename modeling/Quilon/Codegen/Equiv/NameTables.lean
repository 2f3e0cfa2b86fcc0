import Quilon.Codegen.NameTables
import Quilon.Library.Lookup

/-!
# Names go to their bindings

`accesses_right_iff`: every read and every `:=` of a program goes to the binding the checker resolves
it to if and only if nothing stands between the names and their bindings: no entry that an arm, an
inlined callback, an earlier body or an initializer has left in `variables`, no local of an enclosing
body that is not captured.  `calls_right_iff`: every plain call goes to the function the checker
resolves it to if and only if that function was the first to be added to the module under its symbol.

`Sound` is what holds of the tables at every point of the walk, `Grows` what a walk does to them.
-/

namespace Quilon.Naming

variable {isVariant : String → Bool}

namespace State

/-! ### Lookups -/

section Lookups

variable (s : State) (name n : String) (binding : Binding)

theorem lookup_eq : s.lookup n = (s.scope.lookup n).or (s.outer.findSome? (·.lookup n)) := by
  unfold lookup
  rw [List.findSome?_cons]
  cases s.scope.lookup n <;> rfl

theorem lookup_declare :
    (s.declare name binding).lookup n = if n = name then some binding else s.lookup n := by
  rw [lookup_eq, lookup_eq]
  show (List.lookup n ((name, binding) :: s.scope)).or _ = _
  rw [lookup_cons_ite]
  by_cases h : n = name <;> simp [h, declare]

theorem lookup_bindSlot :
    (s.bindSlot name binding).lookup n = if n = name then some binding else s.lookup n :=
  s.lookup_declare name n binding

end Lookups

/-! ### Invariants -/

/-- The tables at a point of the walk. -/
structure Sound (s : State) : Prop where
  /-- an entry that was not left behind is that of the binding in scope -/
  slot : ∀ n b, s.table.lookup n = some b → n ∉ s.left → s.lookup n = some b
  /-- one that was left behind is not -/
  stale : ∀ n ∈ s.left, ∃ b, s.table.lookup n = some b ∧ s.lookup n ≠ some b
  isLocal : ∀ n b, s.table.lookup n = some b → b.kind = .local_
  global : ∀ n b, s.lookup n = some b → b.kind = .global → s.globals.lookup n = some b
  kept : ∀ symbol id, (symbol, id) ∈ s.kept ↔ s.symbols.lookup symbol = some (some id)
  entries : ∀ n b, s.table.lookup n = some b → b.id < s.next
  bindings : ∀ n b, s.lookup n = some b → b.id < s.next
  accesses : ∀ access ∈ s.accesses, access.Right ↔ access.clear = true
  calls : ∀ call ∈ s.calls, call.Right ↔ call.clear = true

/-- What a walk leaves of the tables it began with. -/
structure Grows (s after : State) : Prop where
  outer : after.outer = s.outer
  globals : after.globals = s.globals
  next : s.next ≤ after.next
  /-- a scope only gains bindings, and those are new -/
  scope : ∀ n, (s.scope.lookup n).isSome → (after.scope.lookup n).isSome
  fresh : ∀ n b, after.scope.lookup n = some b → s.scope.lookup n = some b ∨ s.next ≤ b.id
  /-- the entries under other names than those entered are as before -/
  inserted : ∃ names, after.inserted = names ++ s.inserted ∧
    (∀ n, n ∉ names → after.table.lookup n = s.table.lookup n) ∧
    ∀ n ∈ names, ∃ b, after.table.lookup n = some b ∧ s.next ≤ b.id

theorem Grows.refl (s : State) : s.Grows s where
  outer := rfl
  globals := rfl
  next := Nat.le_refl _
  scope _ h := h
  fresh _ _ h := .inl h
  inserted := ⟨[], rfl, fun _ _ => rfl, fun _ h => absurd h List.not_mem_nil⟩

theorem Grows.trans {s between after : State} (h : s.Grows between) (h' : between.Grows after) :
    s.Grows after where
  outer := h'.outer.trans h.outer
  globals := h'.globals.trans h.globals
  next := Nat.le_trans h.next h'.next
  scope n hn := h'.scope n (h.scope n hn)
  fresh n b hb := by
    rcases h'.fresh n b hb with hbetween | hnew
    · exact h.fresh n b hbetween
    · exact .inr (Nat.le_trans h.next hnew)
  inserted := by
    obtain ⟨names, hnames, hsame, hnew⟩ := h.inserted
    obtain ⟨names', hnames', hsame', hnew'⟩ := h'.inserted
    refine ⟨names' ++ names, by rw [hnames', hnames, List.append_assoc], fun n hn => ?_,
      fun n hn => ?_⟩
    · rw [List.mem_append, not_or] at hn
      rw [hsame' n hn.1, hsame n hn.2]
    · by_cases hlast : n ∈ names'
      · obtain ⟨b, hb, hid⟩ := hnew' n hlast
        exact ⟨b, hb, Nat.le_trans h.next hid⟩
      · obtain ⟨b, hb, hid⟩ := hnew n ((List.mem_append.mp hn).resolve_left hlast)
        exact ⟨b, (hsame' n hlast).trans hb, hid⟩

/-- A step that touches neither the table nor the list of entered names. -/
theorem Grows.of_table {s after : State} (houter : after.outer = s.outer)
    (hglobals : after.globals = s.globals) (hnext : s.next ≤ after.next)
    (hscope : ∀ n, (s.scope.lookup n).isSome → (after.scope.lookup n).isSome)
    (hfresh : ∀ n b, after.scope.lookup n = some b → s.scope.lookup n = some b ∨ s.next ≤ b.id)
    (htable : after.table = s.table) (hinserted : after.inserted = s.inserted) :
    s.Grows after where
  outer := houter
  globals := hglobals
  next := hnext
  scope := hscope
  fresh := hfresh
  inserted := ⟨[], hinserted, fun n _ => by rw [htable], fun _ h => absurd h List.not_mem_nil⟩

variable {s : State} {name : String} {binding : Binding}

theorem Sound.ne_of_entry (h : s.Sound) {n : String} {b : Binding}
    (hentry : s.table.lookup n = some b) (hkind : binding.kind ≠ .local_) : b ≠ binding := by
  rintro rfl
  exact hkind (h.isLocal n b hentry)

theorem Sound.entry_lt (h : s.Sound) {n : String} {b : Binding}
    (hentry : s.table.lookup n = some b) (hid : s.next ≤ binding.id) : b ≠ binding := by
  rintro rfl
  exact absurd (h.entries n b hentry) (Nat.not_lt.mpr hid)

theorem lookup_cons_cases {table : Table} {n : String} {b : Binding}
    (h : List.lookup n ((name, binding) :: table) = some b) :
    binding = b ∨ table.lookup n = some b := by
  rw [lookup_cons_ite] at h
  split at h
  · exact .inl (Option.some.inj h)
  · exact .inr h

/-! ### Steps -/

theorem Sound.log (h : s.Sound) {access : Access}
    (haccess : access.Right ↔ access.clear = true) : (s.log access).Sound :=
  { h with
    accesses := fun a ha => by
      rcases List.mem_cons.mp ha with rfl | ha
      · exact haccess
      · exact h.accesses a ha }

theorem Sound.logCall (h : s.Sound) {call : Call} (hcall : call.Right ↔ call.clear = true) :
    (s.logCall call).Sound :=
  { h with
    calls := fun c hc => by
      rcases List.mem_cons.mp hc with rfl | hc
      · exact hcall
      · exact h.calls c hc }

theorem Sound.advance (h : s.Sound) : s.advance.Sound :=
  { h with
    entries := fun n b hb => Nat.lt_succ_of_lt (h.entries n b hb)
    bindings := fun n b hb => Nat.lt_succ_of_lt (h.bindings n b hb) }

/-- The symbols of the module after more were added. -/
theorem Sound.ofKept (h : s.Sound) {symbols : List (String × Option Nat)}
    {kept : List (String × Nat)}
    (hkept : ∀ symbol id, (symbol, id) ∈ kept ↔ symbols.lookup symbol = some (some id)) :
    Sound { s with symbols, kept } :=
  { h with kept := hkept }

theorem lookup_map_none (names : List String) (symbol : String) (id : Nat) :
    (names.map fun n => (n, (none : Option Nat))).lookup symbol ≠ some (some id) := by
  induction names with
  | nil => simp
  | cons n rest ih =>
    rw [List.map_cons, lookup_cons_ite]
    split
    · simp
    · exact ih

theorem Sound.addSymbols (h : s.Sound) (names : List String) : (s.addSymbols names).Sound := by
  refine h.ofKept fun symbol id => ?_
  rw [h.kept, List.lookup_append]
  cases s.symbols.lookup symbol with
  | none => simpa using lookup_map_none names symbol id
  | some owner => simp

theorem Sound.addFunction (h : s.Sound) (symbol : String) (id : Nat) :
    (s.addFunction symbol id).Sound := by
  refine h.ofKept fun other owner => ?_
  have hkept := h.kept other owner
  rw [List.lookup_append, lookup_cons_ite]
  by_cases hother : other = symbol
  · subst hother
    cases htaken : s.symbols.lookup other with
    | none =>
      rw [htaken] at hkept
      simp [hkept]
      exact eq_comm
    | some taken =>
      rw [htaken] at hkept
      simpa using hkept
  · split <;> simp [hother, hkept]

/-- A name bound without a slot. -/
theorem Sound.declare (h : s.Sound)
    (hentry : ∀ n b, s.table.lookup n = some b → b ≠ binding)
    (hglobal : binding.kind = .global → s.globals.lookup name = some binding)
    (hid : binding.id < s.next) : (s.declare name binding).Sound where
  slot n b hb hleft := by
    rw [lookup_declare]
    have htable : s.table.lookup n = some b := hb
    have hn : n ≠ name := by
      rintro rfl
      exact hleft (by simp [State.declare, htable])
    rw [if_neg hn]
    refine h.slot n b htable fun hmem => hleft ?_
    unfold State.declare
    dsimp only
    split
    · exact List.mem_cons_of_mem _ hmem
    · exact hmem
  stale n hn := by
    have hcases : (n = name ∧ (s.table.lookup name).isSome) ∨ n ∈ s.left := by
      unfold State.declare at hn
      dsimp only at hn
      split at hn
      case isTrue hsome =>
        rcases List.mem_cons.mp hn with rfl | hn
        · exact .inl ⟨rfl, hsome⟩
        · exact .inr hn
      case isFalse => exact .inr hn
    rw [lookup_declare]
    show ∃ b, s.table.lookup n = some b ∧ _
    by_cases hname : n = name
    · subst hname
      have hsome : (s.table.lookup n).isSome := by
        rcases hcases with ⟨_, hsome⟩ | hn
        · exact hsome
        · obtain ⟨b, hb, _⟩ := h.stale n hn
          simp [hb]
      obtain ⟨b, hb⟩ := Option.isSome_iff_exists.mp hsome
      refine ⟨b, hb, fun heq => hentry n b hb ?_⟩
      simpa using heq.symm
    · obtain ⟨b, hb, hne⟩ := h.stale n (hcases.resolve_left fun hn => hname hn.1)
      exact ⟨b, hb, by rwa [if_neg hname]⟩
  isLocal := h.isLocal
  global n b hb hkind := by
    rw [lookup_declare] at hb
    show s.globals.lookup n = some b
    split at hb
    case isTrue hname =>
      subst hname
      obtain rfl := Option.some.inj hb
      exact hglobal hkind
    case isFalse => exact h.global n b hb hkind
  kept := h.kept
  entries := h.entries
  bindings n b hb := by
    rw [lookup_declare] at hb
    show b.id < s.next
    split at hb
    case isTrue =>
      obtain rfl := Option.some.inj hb
      exact hid
    case isFalse => exact h.bindings n b hb
  accesses := h.accesses
  calls := h.calls

/-- A name bound with its slot. -/
theorem Sound.bindSlot (h : s.Sound) (hlocal : binding.kind = .local_)
    (hid : binding.id < s.next) : (s.bindSlot name binding).Sound :=
  { h with
    slot := fun n b hb hleft => by
      rw [lookup_bindSlot]
      change List.lookup n ((name, binding) :: s.table) = some b at hb
      rw [lookup_cons_ite] at hb
      split at hb
      case isTrue hn => rw [if_pos hn, hb]
      case isFalse hn =>
        rw [if_neg hn]
        exact h.slot n b hb fun hmem => hleft (List.mem_filter.mpr ⟨hmem, by simpa using hn⟩)
    stale := fun n hn => by
      obtain ⟨hmem, hne⟩ := List.mem_filter.mp hn
      have hname : n ≠ name := by simpa using hne
      obtain ⟨b, hb, hstale⟩ := h.stale n hmem
      refine ⟨b, ?_, ?_⟩
      · show List.lookup n ((name, binding) :: s.table) = some b
        rw [lookup_cons_ite, if_neg hname, hb]
      · rwa [lookup_bindSlot, if_neg hname]
    isLocal := fun n b hb => by
      rcases lookup_cons_cases hb with rfl | hb
      · exact hlocal
      · exact h.isLocal n b hb
    global := fun n b hb hkind => by
      rw [lookup_bindSlot] at hb
      split at hb
      · obtain rfl := Option.some.inj hb
        rw [hlocal] at hkind
        cases hkind
      · exact h.global n b hb hkind
    entries := fun n b hb => by
      rcases lookup_cons_cases hb with rfl | hb
      · exact hid
      · exact h.entries n b hb
    bindings := fun n b hb => by
      rw [lookup_bindSlot] at hb
      split at hb
      · obtain rfl := Option.some.inj hb
        exact hid
      · exact h.bindings n b hb }

/-- An entry that is not that of the binding in scope. -/
theorem Sound.straySlot (h : s.Sound) (hlocal : binding.kind = .local_)
    (hid : binding.id < s.next) (hstray : s.lookup name ≠ some binding) :
    (s.straySlot name binding).Sound :=
  { h with
    slot := fun n b hb hleft => by
      rw [State.straySlot, List.mem_cons, not_or] at hleft
      change List.lookup n ((name, binding) :: s.table) = some b at hb
      rw [lookup_cons_ite, if_neg hleft.1] at hb
      exact h.slot n b hb hleft.2
    stale := fun n hn => by
      show ∃ b, List.lookup n ((name, binding) :: s.table) = some b ∧ s.lookup n ≠ some b
      rw [lookup_cons_ite]
      by_cases hname : n = name
      · subst hname
        exact ⟨binding, by simp, hstray⟩
      · rw [if_neg hname]
        exact h.stale n ((List.mem_cons.mp hn).resolve_left hname)
    isLocal := fun n b hb => by
      rcases lookup_cons_cases hb with rfl | hb
      · exact hlocal
      · exact h.isLocal n b hb
    entries := fun n b hb => by
      rcases lookup_cons_cases hb with rfl | hb
      · exact hid
      · exact h.entries n b hb }

/-! ### Reads, writes and calls -/

theorem right_iff {access : Access} {b : Binding} (h : access.resolved = some b) :
    access.Right ↔ access.place = b.valuePlace := by
  simp [Access.Right, h]

/-- An entry is the place of the binding in scope exactly when it was not left behind. -/
theorem Sound.slot_iff (h : s.Sound) {entry : Binding} (hentry : s.table.lookup name = some entry) :
    s.lookup name = some entry ↔ name ∉ s.left := by
  constructor
  · intro hlookup hleft
    obtain ⟨b, hb, hne⟩ := h.stale name hleft
    obtain rfl := Option.some.inj (hentry.symm.trans hb)
    exact hne hlookup
  · exact h.slot name entry hentry

theorem valuePlace_eq_slot {b entry : Binding} (hlocal : entry.kind = .local_) :
    b.valuePlace = .slot entry ↔ b = entry := by
  constructor
  · intro hplace
    unfold Binding.valuePlace Binding.place at hplace
    split at hplace
    · cases hplace
    · split at hplace <;> simp_all
  · rintro rfl
    simp [Binding.valuePlace, Binding.place, hlocal]

theorem valuePlace_eq_global {b other : Binding} :
    b.valuePlace = .global other ↔ b = other ∧ b.kind = .global := by
  unfold Binding.valuePlace Binding.place
  cases hkind : b.kind <;> simp

theorem Sound.read (h : s.Sound) : (s.read isVariant name).Sound := by
  refine h.log ?_
  cases hresolved : s.lookup name with
  | none =>
    have hclear : s.readsClear isVariant name = false := by
      unfold readsClear
      cases hentry : s.table.lookup name with
      | none => simp [hresolved]
      | some entry =>
        have hleft := (h.slot_iff hentry).not.mp (by simp [hresolved])
        simpa using hleft
    simp [Access.Right, hclear]
  | some b =>
    rw [right_iff rfl]
    show s.place isVariant name = b.valuePlace ↔ s.readsClear isVariant name = true
    unfold State.place readsClear
    cases hentry : s.table.lookup name with
    | some entry =>
      have hiff := h.slot_iff hentry
      rw [hresolved] at hiff
      have hplace := valuePlace_eq_slot (b := b) (h.isLocal name entry hentry)
      simp only
      rw [eq_comm, hplace]
      simpa using hiff
    | none =>
      have hglobal := h.global name b hresolved
      obtain ⟨id, kind⟩ := b
      cases kind with
      | global =>
        have hfound := hglobal rfl
        cases hvariant : isVariant name <;>
          simp [hresolved, hfound, Binding.valuePlace, Binding.place]
      | local_ =>
        cases hvariant : isVariant name <;> cases hfound : s.globals.lookup name <;>
          simp [hresolved, Binding.valuePlace, Binding.place]
      | function =>
        cases hvariant : isVariant name <;> cases hfound : s.globals.lookup name <;>
          simp [hresolved, Binding.valuePlace]
      | variant =>
        cases hvariant : isVariant name <;> cases hfound : s.globals.lookup name <;>
          simp [hresolved, Binding.valuePlace, Binding.place]
      | type =>
        cases hvariant : isVariant name <;> cases hfound : s.globals.lookup name <;>
          simp [hresolved, Binding.valuePlace, Binding.place]

/-- What is found under a name was entered before. -/
theorem Sound.lookup_ne (h : s.Sound) (kind : Kind) (n : String) :
    s.lookup n ≠ some (s.fresh kind) := by
  intro hlookup
  exact absurd (h.bindings n _ hlookup) (Nat.lt_irrefl s.next)

theorem Sound.declareFresh (h : s.Sound) {kind : Kind} (hkind : kind ≠ .global) :
    (s.declare name (s.fresh kind)).advance.Sound := by
  have hdeclare : (s.advance.declare name (s.fresh kind)).Sound :=
    h.advance.declare (fun n b hb => h.entry_lt hb (Nat.le_refl _))
      (fun hglobal => absurd hglobal hkind) (Nat.lt_succ_self _)
  exact hdeclare

theorem Sound.bindSlotFresh (h : s.Sound) :
    (s.bindSlot name (s.fresh .local_)).advance.Sound := by
  have hbind : (s.advance.bindSlot name (s.fresh .local_)).Sound :=
    h.advance.bindSlot rfl (Nat.lt_succ_self _)
  exact hbind

/-- A `:=` goes to its binding exactly when nothing stands in between. -/
theorem Sound.assign (h : s.Sound) : (s.assign name).Sound := by
  unfold State.assign assignsClear
  cases hresolved : s.lookup name with
  | none =>
    cases hentry : s.table.lookup name with
    | some slot =>
      -- The entry was left behind: the checker declares the name.
      have hleft : name ∈ s.left := by
        by_contra hleft
        rw [(h.slot_iff hentry).mpr hleft] at hresolved
        cases hresolved
      refine (h.declareFresh (by simp)).log ?_
      have hplace := valuePlace_eq_slot (b := s.fresh .local_) (h.isLocal name slot hentry)
      rw [right_iff rfl, eq_comm, hplace]
      have hne : s.fresh .local_ ≠ slot := (h.entry_lt hentry (Nat.le_refl _)).symm
      simp [hne, hleft]
    | none =>
      cases hglobal : s.globals.lookup name with
      | some global =>
        refine (h.declareFresh (by simp)).log ?_
        rw [right_iff rfl, eq_comm, valuePlace_eq_global]
        simp [fresh]
      | none =>
        refine h.bindSlotFresh.log ?_
        rw [right_iff rfl, eq_comm, valuePlace_eq_slot rfl]
        simp
  | some b =>
    cases hentry : s.table.lookup name with
    | some slot =>
      refine h.log ?_
      have hplace := valuePlace_eq_slot (b := b) (h.isLocal name slot hentry)
      have hiff := h.slot_iff hentry
      rw [hresolved, Option.some.injEq] at hiff
      rw [right_iff rfl, eq_comm, hplace, hiff]
      simp
    | none =>
      cases hglobal : s.globals.lookup name with
      | some global =>
        refine h.log ?_
        rw [right_iff rfl, eq_comm, valuePlace_eq_global]
        obtain ⟨id, kind⟩ := b
        cases kind with
        | global =>
          have hfound := h.global name _ hresolved rfl
          rw [hglobal, Option.some.injEq] at hfound
          simp [hfound]
        | local_ => simp
        | function => simp
        | variant => simp
        | type => simp
      | none =>
        have hstray : (s.advance.straySlot name (s.fresh .local_)).Sound :=
          h.advance.straySlot rfl (Nat.lt_succ_self _) (h.lookup_ne .local_ name)
        refine Sound.log (s := (s.straySlot name (s.fresh .local_)).advance) hstray ?_
        rw [right_iff rfl, eq_comm, valuePlace_eq_slot rfl]
        have hne : b ≠ s.fresh .local_ := by
          rintro rfl
          exact h.lookup_ne .local_ name hresolved
        obtain ⟨id, kind⟩ := b
        cases kind with
        | global =>
          have hfound := h.global name _ hresolved rfl
          rw [hglobal] at hfound
          cases hfound
        | local_ => simp [hne]
        | function => simp [hne]
        | variant => simp [hne]
        | type => simp [hne]

theorem Sound.bind (h : s.Sound) (isMutable : Bool) : (s.bind isMutable name).Sound := by
  unfold State.bind
  split
  · exact h.assign
  · split
    · exact h
    · exact h.bindSlotFresh

theorem Sound.declareKind (h : s.Sound) (kind : Declared) : (s.declareKind kind name).Sound := by
  unfold State.declareKind
  split
  · exact h
  · cases kind with
    | variant => exact h.declareFresh (by simp)
    | type => exact h.declareFresh (by simp)

theorem place_eq_slot {b entry : Binding} (hlocal : entry.kind = .local_) :
    b.place = .slot entry ↔ b = entry := by
  constructor
  · intro hplace
    unfold Binding.place at hplace
    split at hplace <;> simp_all
  · rintro rfl
    simp [Binding.place, hlocal]

/-- A symbol leads to a function exactly when that was the first under it. -/
theorem Sound.getFunction_iff (h : s.Sound) {symbol : String} {id : Nat} :
    s.getFunction symbol = .function id ↔ (symbol, id) ∈ s.kept := by
  rw [h.kept]
  unfold getFunction
  cases s.symbols.lookup symbol with
  | none => simp
  | some owner => cases owner <;> simp

theorem call_right_iff {call : Call} {b : Binding} (h : call.resolved = some b) :
    call.Right ↔ call.target ≠ .missing ∧ call.target = b.place := by
  simp [Call.Right, h]

theorem getFunction_cases (s : State) (symbol : String) :
    s.getFunction symbol = .missing ∨ ∃ id, s.getFunction symbol = .function id := by
  unfold getFunction
  split
  · exact .inr ⟨_, rfl⟩
  · exact .inl rfl

theorem Sound.call (h : s.Sound) : (s.call name).Sound := by
  refine h.logCall ?_
  cases hresolved : s.lookup name with
  | none =>
    cases hentry : s.table.lookup name with
    | none => simp [Call.Right]
    | some entry =>
      have hleft := (h.slot_iff hentry).not.mp (by simp [hresolved])
      simpa [Call.Right] using hleft
  | some b =>
    rw [call_right_iff rfl]
    cases hentry : s.table.lookup name with
    | some entry =>
      have hiff := h.slot_iff hentry
      rw [hresolved, Option.some.injEq] at hiff
      have hplace := place_eq_slot (b := b) (h.isLocal name entry hentry)
      simp only
      rw [eq_comm (b := b.place), hplace, hiff]
      simp
    | none =>
      obtain ⟨id, kind⟩ := b
      have hfunction : s.getFunction name = .function id ↔ (name, id) ∈ s.kept := h.getFunction_iff
      cases kind with
      | function =>
        have hmissing : s.getFunction name = .function id → s.getFunction name ≠ .missing :=
          fun heq => by simp [heq]
        simp only [Binding.place, List.contains_iff_mem]
        rw [← hfunction]
        exact and_iff_right_of_imp hmissing
      | global | local_ | variant | type =>
        rcases s.getFunction_cases name with hmissing | ⟨other, hother⟩
        · simp [hmissing, Binding.place]
        · simp [hother, Binding.place]

/-! ### What the steps leave -/

theorem lookup_cons_isSome {table : Table} {n : String} (h : (table.lookup n).isSome) :
    (List.lookup n ((name, binding) :: table)).isSome := by
  rw [lookup_cons_ite]
  split
  · rfl
  · exact h

theorem lookup_cons_fresh {table : Table} {n : String} {b : Binding} {id : Nat}
    (hid : id ≤ binding.id) (h : List.lookup n ((name, binding) :: table) = some b) :
    table.lookup n = some b ∨ id ≤ b.id := by
  rcases lookup_cons_cases h with rfl | h
  · exact .inr hid
  · exact .inl h

/-- A new binding in the innermost scope. -/
theorem Grows.declareFresh (kind : Kind) : s.Grows (s.declare name (s.fresh kind)).advance :=
  .of_table rfl rfl (Nat.le_succ _) (fun _ h => lookup_cons_isSome h)
    (fun _ _ h => lookup_cons_fresh (Nat.le_refl _) h) rfl rfl

/-- A new entry. -/
theorem Grows.of_entry {after : State} {slot : Binding} (houter : after.outer = s.outer)
    (hglobals : after.globals = s.globals) (hnext : s.next ≤ after.next)
    (hscope : ∀ n, (s.scope.lookup n).isSome → (after.scope.lookup n).isSome)
    (hfresh : ∀ n b, after.scope.lookup n = some b → s.scope.lookup n = some b ∨ s.next ≤ b.id)
    (htable : after.table = (name, slot) :: s.table) (hslot : s.next ≤ slot.id)
    (hinserted : after.inserted = name :: s.inserted) : s.Grows after where
  outer := houter
  globals := hglobals
  next := hnext
  scope := hscope
  fresh := hfresh
  inserted := by
    refine ⟨[name], hinserted, fun n hn => ?_, fun n hn => ⟨slot, ?_, hslot⟩⟩
    · rw [htable, lookup_cons_ite, if_neg (by simpa using hn)]
    · rw [htable, List.mem_singleton.mp hn, List.lookup_cons_self]

theorem Grows.bindSlotFresh : s.Grows (s.bindSlot name (s.fresh .local_)).advance :=
  .of_entry rfl rfl (Nat.le_succ _) (fun _ h => lookup_cons_isSome h)
    (fun _ _ h => lookup_cons_fresh (Nat.le_refl _) h) rfl (Nat.le_refl _) rfl

theorem Grows.straySlotFresh : s.Grows (s.straySlot name (s.fresh .local_)).advance :=
  .of_entry rfl rfl (Nat.le_succ _) (fun _ h => h) (fun _ _ h => .inl h) rfl (Nat.le_refl _) rfl

theorem Grows.log {after : State} (h : s.Grows after) (access : Access) :
    s.Grows (after.log access) :=
  { h with }

theorem Grows.assign : s.Grows (s.assign name) := by
  unfold State.assign
  cases s.lookup name with
  | none =>
    cases s.table.lookup name with
    | some slot => exact (Grows.declareFresh .local_).log _
    | none =>
      cases s.globals.lookup name with
      | some global => exact (Grows.declareFresh .local_).log _
      | none => exact Grows.bindSlotFresh.log _
  | some b =>
    cases s.table.lookup name with
    | some slot => exact (Grows.refl s).log _
    | none =>
      cases s.globals.lookup name with
      | some global => exact (Grows.refl s).log _
      | none => exact Grows.straySlotFresh.log _

theorem Grows.bind (isMutable : Bool) : s.Grows (s.bind isMutable name) := by
  unfold State.bind
  split
  · exact .assign
  · split
    · exact .refl s
    · exact .bindSlotFresh

theorem Grows.declareKind (kind : Declared) : s.Grows (s.declareKind kind name) := by
  unfold State.declareKind
  split
  · exact .refl s
  · exact .declareFresh _

/-! ### Arms and frames -/

theorem lookup_scopeOf {names : List String} {id : Nat} {n : String} {b : Binding}
    (h : (scopeOf names id).lookup n = some b) : n ∈ names ∧ b.kind = .local_ ∧ id ≤ b.id ∧
      b.id < id + names.length := by
  induction names generalizing id with
  | nil => cases h
  | cons name rest ih =>
    rw [scopeOf, lookup_cons_ite] at h
    rw [List.length_cons]
    split at h
    case isTrue hn =>
      obtain rfl := Option.some.inj h
      refine ⟨hn ▸ List.mem_cons_self, rfl, Nat.le_refl _, ?_⟩
      show id < _
      omega
    case isFalse =>
      obtain ⟨hmem, hkind, hle, hlt⟩ := ih h
      exact ⟨List.mem_cons_of_mem _ hmem, hkind, by omega, by omega⟩

theorem lookup_scopeOf_isSome {names : List String} {n : String} (h : n ∈ names) (id : Nat) :
    ∃ b, (scopeOf names id).lookup n = some b := by
  induction names generalizing id with
  | nil => cases h
  | cons name rest ih =>
    rw [scopeOf, lookup_cons_ite]
    by_cases hn : n = name
    · exact ⟨_, if_pos hn⟩
    · rw [if_neg hn]
      exact ih ((List.mem_cons.mp h).resolve_left hn) _

theorem lookup_scopeOf_none {names : List String} {n : String} (h : n ∉ names) (id : Nat) :
    (scopeOf names id).lookup n = none := by
  cases hlookup : (scopeOf names id).lookup n with
  | none => rfl
  | some b => exact absurd (lookup_scopeOf hlookup).1 h

section Scopes

variable (s : State) (names captured : List String) (n : String)

theorem lookup_enterArm :
    (s.enterArm names).lookup n = ((scopeOf names s.next).lookup n).or (s.lookup n) := by
  rw [lookup_eq]
  show ((scopeOf names s.next).lookup n).or ((s.scope :: s.outer).findSome? (·.lookup n)) = _
  rfl

theorem lookup_enterFrame : (s.enterFrame names captured).lookup n =
    ((scopeOf names s.next).lookup n).or (s.lookup n) :=
  s.lookup_enterArm names n

theorem table_enterArm : (s.enterArm names).table.lookup n =
    ((scopeOf names s.next).lookup n).or (s.table.lookup n) :=
  List.lookup_append

theorem table_enterFrame : (s.enterFrame names captured).table.lookup n =
    (if n ∈ captured then s.table.lookup n else none).or ((scopeOf names s.next).lookup n) := by
  show (s.table.filter (captured.contains ·.1) ++ scopeOf names s.next).lookup n = _
  rw [List.lookup_append, lookup_filter_fst]
  simp

end Scopes

theorem Sound.enterArm (h : s.Sound) (names : List String) : (s.enterArm names).Sound :=
  { h with
    slot := fun n b hb hleft => by
      rw [lookup_enterArm]
      rw [table_enterArm] at hb
      cases hnew : (scopeOf names s.next).lookup n with
      | some b' => rwa [hnew] at hb
      | none =>
        rw [hnew] at hb
        refine h.slot n b hb fun hmem => hleft (List.mem_filter.mpr ⟨hmem, ?_⟩)
        by_contra hcontains
        have hnames : n ∈ names := by simpa using hcontains
        obtain ⟨b', hb'⟩ := lookup_scopeOf_isSome hnames s.next
        rw [hnew] at hb'
        cases hb'
    stale := fun n hn => by
      obtain ⟨hmem, hcontains⟩ := List.mem_filter.mp hn
      have hnames : n ∉ names := by simpa using hcontains
      have hnone := lookup_scopeOf_none hnames s.next
      rw [lookup_enterArm, table_enterArm, hnone]
      exact h.stale n hmem
    isLocal := fun n b hb => by
      rw [table_enterArm] at hb
      rcases Option.or_eq_some_iff.mp hb with hb | ⟨_, hb⟩
      · exact (lookup_scopeOf hb).2.1
      · exact h.isLocal n b hb
    global := fun n b hb hkind => by
      rw [lookup_enterArm] at hb
      rcases Option.or_eq_some_iff.mp hb with hb | ⟨_, hb⟩
      · rw [(lookup_scopeOf hb).2.1] at hkind
        cases hkind
      · exact h.global n b hb hkind
    entries := fun n b hb => by
      rw [table_enterArm] at hb
      rcases Option.or_eq_some_iff.mp hb with hb | ⟨_, hb⟩
      · exact (lookup_scopeOf hb).2.2.2
      · exact Nat.lt_add_right _ (h.entries n b hb)
    bindings := fun n b hb => by
      rw [lookup_enterArm] at hb
      rcases Option.or_eq_some_iff.mp hb with hb | ⟨_, hb⟩
      · exact (lookup_scopeOf hb).2.2.2
      · exact Nat.lt_add_right _ (h.bindings n b hb) }

theorem Sound.enterFrame (h : s.Sound) {names captured : List String}
    (hcaptured : ∀ n ∈ captured, (s.table.lookup n).isSome ∧ n ∉ names) :
    (s.enterFrame names captured).Sound :=
  { h with
    slot := fun n b hb hleft => by
      rw [lookup_enterFrame]
      rw [table_enterFrame] at hb
      by_cases hn : n ∈ captured
      · obtain ⟨hsome, hnames⟩ := hcaptured n hn
        obtain ⟨entry, hentry⟩ := Option.isSome_iff_exists.mp hsome
        rw [if_pos hn, hentry, Option.some_or] at hb
        rw [lookup_scopeOf_none hnames, Option.none_or]
        refine h.slot n b (hentry.trans hb) fun hmem => hleft ?_
        exact List.mem_filter.mpr ⟨hmem, by simpa using hn⟩
      · rw [if_neg hn, Option.none_or] at hb
        rw [hb, Option.some_or]
    stale := fun n hn => by
      obtain ⟨hmem, hcontains⟩ := List.mem_filter.mp hn
      have hn : n ∈ captured := by simpa using hcontains
      obtain ⟨b, hb, hne⟩ := h.stale n hmem
      rw [lookup_enterFrame, table_enterFrame, if_pos hn, lookup_scopeOf_none (hcaptured n hn).2,
        hb]
      exact ⟨b, rfl, hne⟩
    isLocal := fun n b hb => by
      rw [table_enterFrame] at hb
      rcases Option.or_eq_some_iff.mp hb with hb | ⟨_, hb⟩
      · rw [Option.ite_none_right_eq_some] at hb
        exact h.isLocal n b hb.2
      · exact (lookup_scopeOf hb).2.1
    global := (h.enterArm names).global
    entries := fun n b hb => by
      rw [table_enterFrame] at hb
      rcases Option.or_eq_some_iff.mp hb with hb | ⟨_, hb⟩
      · rw [Option.ite_none_right_eq_some] at hb
        exact Nat.lt_add_right _ (h.entries n b hb.2)
      · exact (lookup_scopeOf hb).2.2.2
    bindings := (h.enterArm names).bindings }

/-- A frame that captures nothing. -/
theorem Sound.enterFrame_nil (h : s.Sound) (names : List String) :
    (s.enterFrame names []).Sound :=
  h.enterFrame fun _ hn => absurd hn List.not_mem_nil

/-- Behind an arm or a frame the scopes are those before it. -/
theorem popScope_eq {after : State} {outer : List Table} (houter : after.outer = s.scope :: outer) :
    after.popScope = { after with scope := s.scope, outer } := by
  unfold popScope
  rw [houter]

theorem Grows.popScope {names : List String} {inner : State}
    (h : (s.enterArm names).Grows inner) :
    inner.popScope = { inner with scope := s.scope, outer := s.outer } :=
  popScope_eq h.outer

theorem lookup_popScope {inner : State} (houter : inner.outer = s.scope :: s.outer) (n : String) :
    inner.popScope.lookup n = s.lookup n := by
  rw [popScope_eq houter]
  rfl

section LeaveArm

variable {names : List String} {inner : State}

theorem table_leaveArm (n : String) : (inner.leaveArm s names).table.lookup n =
    if n ∈ names then s.table.lookup n else inner.table.lookup n := by
  show (s.table.filter (names.contains ·.1) ++ inner.table.filter (!names.contains ·.1)).lookup n = _
  rw [List.lookup_append, lookup_filter_fst, lookup_filter_fst (fun n => !names.contains n)]
  by_cases hn : n ∈ names <;> simp [hn]

theorem lookup_leaveArm (hgrows : (s.enterArm names).Grows inner) (n : String) :
    (inner.leaveArm s names).lookup n = s.lookup n :=
  lookup_popScope hgrows.outer n

/-- What stays behind an arm is new, and what does not is as it was before. -/
theorem Grows.leaveArm (hgrows : (s.enterArm names).Grows inner) :
    s.Grows (inner.leaveArm s names) where
  outer := by
    show inner.popScope.outer = s.outer
    rw [hgrows.popScope]
  globals := by
    show inner.popScope.globals = s.globals
    rw [hgrows.popScope]
    exact hgrows.globals
  next := by
    show s.next ≤ inner.popScope.next
    rw [hgrows.popScope]
    exact Nat.le_trans (Nat.le_add_right _ _) hgrows.next
  scope n hn := by
    show (inner.popScope.scope.lookup n).isSome
    rwa [hgrows.popScope]
  fresh n b hb := by
    change inner.popScope.scope.lookup n = some b at hb
    rw [hgrows.popScope] at hb
    exact .inl hb
  inserted := by
    obtain ⟨entered, hentered, hsame, hnew⟩ := hgrows.inserted
    have hinserted : inner.inserted = entered := by
      rw [hentered]
      exact List.append_nil _
    refine ⟨inner.inserted.filter (!names.contains ·), rfl, fun n hn => ?_, fun n hn => ?_⟩
    · rw [table_leaveArm]
      by_cases hnames : n ∈ names
      · rw [if_pos hnames]
      · have hout : n ∉ entered := by
          intro hmem
          exact hn (List.mem_filter.mpr ⟨hinserted ▸ hmem, by simpa using hnames⟩)
        rw [if_neg hnames, hsame n hout, table_enterArm, lookup_scopeOf_none hnames,
          Option.none_or]
    · obtain ⟨hmem, hcontains⟩ := List.mem_filter.mp hn
      obtain ⟨b, hb, hid⟩ := hnew n (hinserted ▸ hmem)
      refine ⟨b, ?_, Nat.le_trans (Nat.le_add_right _ _) hid⟩
      rw [table_leaveArm, if_neg (by simpa using hcontains), hb]

theorem Sound.leaveArm (h : s.Sound) (hinner : inner.Sound)
    (hgrows : (s.enterArm names).Grows inner) : (inner.leaveArm s names).Sound := by
  have hnext : s.next ≤ inner.next := Nat.le_trans (Nat.le_add_right _ _) hgrows.next
  have hpop := hgrows.popScope
  obtain ⟨stays, hstays, hsame, hnew⟩ := hgrows.leaveArm.inserted
  have hleft : (inner.leaveArm s names).left = s.left.filter (!stays.contains ·) ++ stays := by
    have hinserted : (inner.leaveArm s names).inserted =
        inner.inserted.filter (!names.contains ·) ++ s.inserted := rfl
    rw [hinserted] at hstays
    rw [← List.append_cancel_right hstays]
    rfl
  exact
    { slot := fun n b hb hn => by
        rw [lookup_leaveArm hgrows]
        rw [hleft, List.mem_append, not_or] at hn
        rw [hsame n hn.2] at hb
        refine h.slot n b hb fun hmem => hn.1 (List.mem_filter.mpr ⟨hmem, ?_⟩)
        simpa using hn.2
      stale := fun n hn => by
        rw [lookup_leaveArm hgrows]
        rw [hleft, List.mem_append] at hn
        by_cases hstay : n ∈ stays
        · obtain ⟨b, hb, hid⟩ := hnew n hstay
          refine ⟨b, hb, fun hlookup => ?_⟩
          exact absurd (h.bindings n b hlookup) (Nat.not_lt.mpr hid)
        · rw [hsame n hstay]
          exact h.stale n (List.mem_filter.mp (hn.resolve_right hstay)).1
      isLocal := fun n b hb => by
        rw [table_leaveArm] at hb
        split at hb
        · exact h.isLocal n b hb
        · exact hinner.isLocal n b hb
      global := fun n b hb hkind => by
        rw [lookup_leaveArm hgrows] at hb
        rw [hgrows.leaveArm.globals]
        exact h.global n b hb hkind
      kept := by
        show ∀ symbol id, (symbol, id) ∈ inner.popScope.kept ↔
          inner.popScope.symbols.lookup symbol = some (some id)
        rw [hpop]
        exact hinner.kept
      entries := fun n b hb => by
        show b.id < inner.popScope.next
        rw [hpop]
        rw [table_leaveArm] at hb
        split at hb
        · exact Nat.lt_of_lt_of_le (h.entries n b hb) hnext
        · exact hinner.entries n b hb
      bindings := fun n b hb => by
        show b.id < inner.popScope.next
        rw [hpop]
        rw [lookup_leaveArm hgrows] at hb
        exact Nat.lt_of_lt_of_le (h.bindings n b hb) hnext
      accesses := by
        show ∀ access ∈ inner.popScope.accesses, _
        rw [hpop]
        exact hinner.accesses
      calls := by
        show ∀ call ∈ inner.popScope.calls, _
        rw [hpop]
        exact hinner.calls }

end LeaveArm

section LeaveFrame

variable {names captured : List String} {inner : State}

theorem Grows.popFrame (hgrows : (s.enterFrame names captured).Grows inner) :
    inner.popScope = { inner with scope := s.scope, outer := s.outer } :=
  popScope_eq hgrows.outer

theorem lookup_leaveFrame (hgrows : (s.enterFrame names captured).Grows inner) (n : String) :
    (inner.leaveFrame s).lookup n = s.lookup n :=
  lookup_popScope hgrows.outer n

/-- The tables behind a frame are those before it. -/
theorem leaveFrame_eq (hgrows : (s.enterFrame names captured).Grows inner) :
    inner.leaveFrame s =
      { s with
        symbols := inner.symbols, lambdas := inner.lambdas, kept := inner.kept, next := inner.next
        accesses := inner.accesses, calls := inner.calls } := by
  unfold leaveFrame
  rw [hgrows.popFrame]
  simp only [hgrows.globals]
  rfl

theorem Grows.leaveFrame (hgrows : (s.enterFrame names captured).Grows inner) :
    s.Grows (inner.leaveFrame s) := by
  rw [leaveFrame_eq hgrows]
  exact .of_table rfl rfl (Nat.le_trans (Nat.le_add_right _ _) hgrows.next) (fun _ h => h)
    (fun _ _ h => .inl h) rfl rfl

theorem Sound.leaveFrame (h : s.Sound) (hinner : inner.Sound)
    (hgrows : (s.enterFrame names captured).Grows inner) : (inner.leaveFrame s).Sound := by
  have hnext : s.next ≤ inner.next := Nat.le_trans (Nat.le_add_right _ _) hgrows.next
  rw [leaveFrame_eq hgrows]
  exact
    { h with
      kept := hinner.kept
      entries := fun n b hb => Nat.lt_of_lt_of_le (h.entries n b hb) hnext
      bindings := fun n b hb => Nat.lt_of_lt_of_le (h.bindings n b hb) hnext
      accesses := hinner.accesses
      calls := hinner.calls }

end LeaveFrame

/-! ### Lambdas and local functions -/

theorem Sound.addLambda (h : s.Sound) : s.addLambda.Sound :=
  { h.addSymbols _ with }

/-- What the module gains does not change the tables of a body. -/
theorem Grows.of_module {symbols : List (String × Option Nat)} {lambdas : Nat}
    {kept : List (String × Nat)} (h : s.Grows s) : s.Grows { s with symbols, lambdas, kept } :=
  { h with }

theorem Sound.declareFunction (h : s.Sound) (overload : Option String) :
    (s.declareFunction name overload).Sound := by
  cases overload with
  | none =>
    have hdeclare : (s.declare name (s.fresh .function)).advance.Sound := h.declareFresh (by simp)
    exact { hdeclare.addFunction name s.next with }
  | some symbol => exact (h.addFunction symbol s.next).advance

theorem Grows.declareFunction (overload : Option String) :
    s.Grows (s.declareFunction name overload) := by
  cases overload with
  | none =>
    have hdeclare : s.Grows (s.declare name (s.fresh .function)).advance := .declareFresh _
    exact { hdeclare with }
  | some symbol =>
    exact .of_table rfl rfl (Nat.le_succ _) (fun _ h => h) (fun _ _ h => .inl h) rfl rfl

theorem Sound.declareClosure (h : s.Sound) (bound : Bool) :
    (s.declareClosure name bound).Sound := by
  cases bound with
  | false => exact h.advance
  | true => exact h.declareFresh (by simp)

/-- The slot of a closure, whose name has been bound to it unless it is an overload set's. -/
theorem Sound.bindClosure (h : s.Sound) {bound : Bool} (hlocal : binding.kind = .local_)
    (hid : binding.id < s.next) (hbound : bound = true → s.lookup name = some binding)
    (hstray : bound = false → s.lookup name ≠ some binding) :
    (s.bindClosure name bound binding).Sound := by
  cases bound with
  | false => exact h.straySlot hlocal hid (hstray rfl)
  | true =>
    have hname := hbound rfl
    exact
      { h with
        slot := fun n b hb hleft => by
          show s.lookup n = some b
          change List.lookup n ((name, binding) :: s.table) = some b at hb
          rw [lookup_cons_ite] at hb
          split at hb
          case isTrue hn => rw [hn, hname, hb]
          case isFalse hn =>
            exact h.slot n b hb fun hmem => hleft (List.mem_filter.mpr ⟨hmem, by simpa using hn⟩)
        stale := fun n hn => by
          obtain ⟨hmem, hne⟩ := List.mem_filter.mp hn
          have hn : n ≠ name := by simpa using hne
          obtain ⟨b, hb, hstale⟩ := h.stale n hmem
          refine ⟨b, ?_, hstale⟩
          show List.lookup n ((name, binding) :: s.table) = some b
          rw [lookup_cons_ite, if_neg hn, hb]
        isLocal := fun n b hb => by
          rcases lookup_cons_cases hb with rfl | hb
          · exact hlocal
          · exact h.isLocal n b hb
        entries := fun n b hb => by
          rcases lookup_cons_cases hb with rfl | hb
          · exact hid
          · exact h.entries n b hb }

section Closure

variable {bound : Bool} {names captured : List String} {inner : State}

/-- The slot of a closure takes the binding its name was given before its body. -/
theorem Sound.closure (h : s.Sound) (hdeclared : (s.declareClosure name bound).addLambda.Sound)
    (hinner : inner.Sound)
    (hgrows : ((s.declareClosure name bound).addLambda.enterFrame names captured).Grows inner) :
    ((inner.leaveFrame (s.declareClosure name bound).addLambda).bindClosure name bound
      (s.fresh .local_)).Sound := by
  have hnext : s.next < (inner.leaveFrame (s.declareClosure name bound).addLambda).next := by
    have hadvance : (s.declareClosure name bound).next = s.next + 1 := by cases bound <;> rfl
    have hbehind := hgrows.leaveFrame.next
    change (s.declareClosure name bound).next ≤ _ at hbehind
    omega
  refine (hdeclared.leaveFrame hinner hgrows).bindClosure rfl hnext ?_ ?_
  · rintro rfl
    rw [lookup_leaveFrame hgrows]
    show (s.declare name (s.fresh .local_)).lookup name = _
    rw [lookup_declare, if_pos rfl]
  · rintro rfl
    rw [lookup_leaveFrame hgrows]
    exact h.lookup_ne .local_ name

theorem Grows.closure
    (hgrows : ((s.declareClosure name bound).addLambda.enterFrame names captured).Grows inner) :
    s.Grows ((inner.leaveFrame (s.declareClosure name bound).addLambda).bindClosure name bound
      (s.fresh .local_)) := by
  rw [leaveFrame_eq hgrows]
  have hnext := hgrows.leaveFrame.next
  rw [leaveFrame_eq hgrows] at hnext
  cases bound with
  | false =>
    exact .of_entry rfl rfl (Nat.le_trans (Nat.le_succ _) hnext) (fun _ h => h)
      (fun _ _ h => .inl h) rfl (Nat.le_refl _) rfl
  | true =>
    exact .of_entry rfl rfl (Nat.le_trans (Nat.le_succ _) hnext) (fun _ h => lookup_cons_isSome h)
      (fun _ _ h => lookup_cons_fresh (Nat.le_refl _) h) rfl (Nat.le_refl _) rfl

end Closure

end State

/-! ### Walks -/

section Walk

open State

variable (isVariant)

/-- The captured names of a closure have entries, and are no parameters of it. -/
theorem captured_keys {s : State} {parameters : List String} (captures : Captures parameters)
    {n : String} (h : n ∈ captures.of s.keys) :
    (s.table.lookup n).isSome ∧ n ∉ parameters :=
  (captures.mem h).imp_left lookup_isSome_iff_mem_fst.mpr

/-- The tables stay sound through a piece of code. -/
theorem sound_walk (o : Occurrences) : ∀ s : State, s.Sound →
    (walk isVariant o s).Sound ∧ s.Grows (walk isVariant o s) := by
  induction o with
  | none => exact fun s h => ⟨h, .refl s⟩
  | seq first rest ihfirst ihrest =>
    intro s h
    obtain ⟨hfirst, hgrows⟩ := ihfirst s h
    obtain ⟨hrest, hgrows'⟩ := ihrest _ hfirst
    exact ⟨hrest, hgrows.trans hgrows'⟩
  | read name => exact fun s h => ⟨h.read, (State.Grows.refl s).log _⟩
  | call name => exact fun s h => ⟨h.call, { State.Grows.refl s with }⟩
  | dispatch member symbol =>
    intro s h
    refine ⟨h.logCall ?_, { State.Grows.refl s with }⟩
    have hfunction : s.getFunction symbol = .function member ↔ (symbol, member) ∈ s.kept :=
      h.getFunction_iff
    have hmissing : s.getFunction symbol = .function member → s.getFunction symbol ≠ .missing :=
      fun heq => by simp [heq]
    rw [call_right_iff rfl]
    simp only [Binding.place, List.contains_iff_mem]
    rw [← hfunction]
    exact and_iff_right_of_imp hmissing
  | bind isMutable name => exact fun s h => ⟨h.bind isMutable, .bind isMutable⟩
  | declare kind name => exact fun s h => ⟨h.declareKind kind, .declareKind kind⟩
  | symbols names => exact fun s h => ⟨h.addSymbols names, .of_module (.refl s)⟩
  | arm names body ih =>
    intro s h
    obtain ⟨hbody, hgrows⟩ := ih _ (h.enterArm names)
    exact ⟨h.leaveArm hbody hgrows, hgrows.leaveArm⟩
  | lambda parameters captures body ih =>
    intro s h
    have hframe := h.addLambda.enterFrame fun n hn => captured_keys captures hn
    obtain ⟨hbody, hgrows⟩ := ih _ hframe
    have hlambda : s.Grows s.addLambda := .of_module (.refl s)
    exact ⟨h.addLambda.leaveFrame hbody hgrows, hlambda.trans hgrows.leaveFrame⟩
  | function name overload parameters captures body ih =>
    intro s h
    unfold walk
    split
    case isTrue => exact ⟨h, .refl s⟩
    case isFalse =>
      dsimp only
      split
      case isTrue =>
        have hdeclared : (s.declareFunction name overload).Sound := h.declareFunction overload
        obtain ⟨hbody, hgrows⟩ := ih _ (hdeclared.enterFrame_nil parameters)
        exact ⟨hdeclared.leaveFrame hbody hgrows,
          (Grows.declareFunction overload).trans hgrows.leaveFrame⟩
      case isFalse =>
        have hdeclared : (s.declareClosure name overload.isNone).addLambda.Sound :=
          (h.declareClosure _).addLambda
        have htable : (s.declareClosure name overload.isNone).addLambda.table = s.table := by
          cases overload <;> rfl
        have hcaptured : ∀ n ∈ captures.of s.keys,
            ((s.declareClosure name overload.isNone).addLambda.table.lookup n).isSome ∧
              n ∉ parameters := by
          rw [htable]
          exact fun n hn => captured_keys captures hn
        have hframe := hdeclared.enterFrame hcaptured
        obtain ⟨hbody, hgrows⟩ := ih _ hframe
        exact ⟨h.closure hdeclared hbody hgrows, .closure hgrows⟩
  | body names body ih =>
    intro s h
    obtain ⟨hbody, hgrows⟩ := ih _ (h.enterFrame_nil names)
    exact ⟨h.leaveFrame hbody hgrows, hgrows.leaveFrame⟩

end Walk

end Quilon.Naming
