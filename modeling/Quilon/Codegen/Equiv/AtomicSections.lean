import Quilon.Codegen.AtomicSections

/-!
# Where atomic sections are balanced

No path through emitted code ends a section it has not begun.  That every section is ended too, and
that sections are opened for the reassignments of atomic bindings and for nothing else, depends on
what the names in `atomic_bindings` stand for where they are assigned.

Main results:

* `generateExpression_generates` — what lowering an expression does, by recursion on it;
* `sections_balanced_iff` — the sections of a program are balanced and at the right statements if
  and only if its `:=` statements agree with the set of atomic names;
* `fresh_local_unbalanced` — a local under the name of another function's atomic binding.
-/

namespace Quilon

/-! ### Paths -/

theorem sectionsAfter_append (path after : List Instruction) (open_ : Nat) :
    sectionsAfter (path ++ after) open_ = (sectionsAfter path open_).bind (sectionsAfter after) := by
  induction path generalizing open_ with
  | nil => rfl
  | cons instruction path ih =>
    cases instruction with
    | atomicEnd =>
      cases open_ with
      | zero => rfl
      | succ open_ => exact ih open_
    | _ => exact ih _

/-- A path ends no section that was open before it. -/
def Rising (path : List Instruction) : Prop :=
  ∀ open_, ∃ after, open_ ≤ after ∧ sectionsAfter path open_ = some after

theorem Balanced.append {path after : List Instruction} (h : Balanced path)
    (hafter : Balanced after) : Balanced (path ++ after) := by
  intro open_
  rw [sectionsAfter_append, h open_]
  exact hafter open_

theorem Rising.append {path after : List Instruction} (h : Rising path) (hafter : Rising after) :
    Rising (path ++ after) := by
  intro open_
  obtain ⟨between, hbetween, hpath⟩ := h open_
  obtain ⟨last, hlast, hafter⟩ := hafter between
  refine ⟨last, by omega, ?_⟩
  rw [sectionsAfter_append, hpath]
  exact hafter

theorem balanced_nil : Balanced [] :=
  fun _ => rfl

theorem balanced_load (name : String) : Balanced [.load name] :=
  fun _ => rfl

theorem balanced_store (name : String) : Balanced [.store name] :=
  fun _ => rfl

theorem Balanced.rising {path : List Instruction} (h : Balanced path) : Rising path :=
  fun open_ => ⟨open_, Nat.le_refl _, h open_⟩

/-- What stands between the begin and the end of a section. -/
theorem Balanced.section_ {path : List Instruction} (h : Balanced path) :
    Balanced (.atomicBegin :: (path ++ [.atomicEnd])) := by
  intro open_
  show sectionsAfter (path ++ [.atomicEnd]) (open_ + 1) = _
  rw [sectionsAfter_append, h]
  rfl

theorem Rising.section_ {path : List Instruction} (h : Rising path) :
    Rising (.atomicBegin :: (path ++ [.atomicEnd])) := by
  intro open_
  obtain ⟨after, hle, hpath⟩ := h (open_ + 1)
  obtain ⟨rest, rfl⟩ : ∃ rest, after = rest + 1 := ⟨after - 1, by omega⟩
  refine ⟨rest, by omega, ?_⟩
  show sectionsAfter (path ++ [.atomicEnd]) (open_ + 1) = _
  rw [sectionsAfter_append, hpath]
  rfl

/-- A section that is begun and not ended. -/
theorem Rising.begin_ {path : List Instruction} (h : Rising path) :
    Rising (.atomicBegin :: path) ∧ ¬Balanced (.atomicBegin :: path) := by
  constructor
  · intro open_
    obtain ⟨after, hle, hpath⟩ := h (open_ + 1)
    exact ⟨after, by omega, hpath⟩
  · intro hbalanced
    obtain ⟨after, hle, hpath⟩ := h 1
    have hzero : sectionsAfter path 1 = some 0 := hbalanced 0
    rw [hpath] at hzero
    cases hzero
    omega

/-! ### Code -/

/-- Every path through the code has the property. -/
def Code.All (property : List Instruction → Prop) (code : Code) : Prop :=
  ∀ path exit, code.Path path exit → property path

/-- The code can be left at its end. -/
def Code.Passes (code : Code) : Prop :=
  ∃ path, code.Path path .through

section All

variable {property : List Instruction → Prop}

theorem Code.All.skip (hnil : property []) : Code.skip.All property := by
  rintro _ _ ⟨⟩
  exact hnil

theorem Code.All.emit {instruction : Instruction} (h : property [instruction]) :
    (Code.emit instruction).All property := by
  rintro _ _ ⟨⟩
  exact h

theorem Code.All.back (hnil : property []) : Code.back.All property := by
  rintro _ _ ⟨⟩
  exact hnil

variable (happend : ∀ {path after}, property path → property after → property (path ++ after))

include happend

theorem Code.All.seq {first rest : Code} (hfirst : first.All property) (hrest : rest.All property) :
    (Code.seq first rest).All property := by
  intro path exit hpath
  cases hpath with
  | seq hpath hafter => exact happend (hfirst _ _ hpath) (hrest _ _ hafter)
  | leave hpath => exact hfirst _ _ hpath

omit happend in
theorem Code.All.branch {one other : Code} (hone : one.All property) (hother : other.All property) :
    (Code.branch one other).All property := by
  intro path exit hpath
  cases hpath with
  | one hpath => exact hone _ _ hpath
  | other hpath => exact hother _ _ hpath

theorem Code.All.loop {body : Code} (hnil : property []) (hbody : body.All property) :
    (Code.loop body).All property := by
  intro path exit hpath
  generalize hcode : Code.loop body = code at hpath
  induction hpath with
  | stop => exact hnil
  | again hpath _ _ ih =>
    cases hcode
    exact happend (hbody _ _ hpath) (ih rfl)
  | leaveLoop hpath =>
    cases hcode
    exact hbody _ _ hpath
  | _ => cases hcode

/-- The runs of a function, from the paths through its body. -/
theorem Code.All.run {body : Code} (hbody : body.All property) {path : List Instruction}
    (h : body.Run path) : property path := by
  induction h with
  | last hpath => exact hbody _ _ hpath
  | again hpath _ ih => exact happend (hbody _ _ hpath) ih

end All

theorem Code.Passes.seq {first rest : Code} (hfirst : first.Passes) (hrest : rest.Passes) :
    (Code.seq first rest).Passes := by
  obtain ⟨path, hpath⟩ := hfirst
  obtain ⟨after, hafter⟩ := hrest
  exact ⟨path ++ after, .seq hpath hafter⟩

/-- The code is left at its end only. -/
def Code.Stays (code : Code) : Prop :=
  ∀ path exit, code.Path path exit → exit = .through

theorem Code.Stays.seq {first rest : Code} (hfirst : first.Stays) (hrest : rest.Stays) :
    (Code.seq first rest).Stays := by
  intro path exit hpath
  cases hpath with
  | seq _ hafter => exact hrest _ _ hafter
  | leave hpath => exact hfirst _ _ hpath

theorem Code.Stays.branch {one other : Code} (hone : one.Stays) (hother : other.Stays) :
    (Code.branch one other).Stays := by
  intro path exit hpath
  cases hpath with
  | one hpath => exact hone _ _ hpath
  | other hpath => exact hother _ _ hpath

theorem Code.Stays.loop {body : Code} (hbody : body.Stays) : (Code.loop body).Stays := by
  intro path exit hpath
  generalize hcode : Code.loop body = code at hpath
  induction hpath with
  | stop => rfl
  | again _ _ _ ih => exact ih hcode
  | leaveLoop hpath =>
    cases hcode
    exact hbody _ _ hpath
  | _ => cases hcode

theorem Code.Stays.emit (instruction : Instruction) : (Code.emit instruction).Stays := by
  rintro _ _ ⟨⟩
  rfl

theorem Code.Stays.skip : Code.skip.Stays := by
  rintro _ _ ⟨⟩
  rfl

theorem Code.Passes.branch {one : Code} (hone : one.Passes) (other : Code) :
    (Code.branch one other).Passes := by
  obtain ⟨path, hpath⟩ := hone
  exact ⟨path, .one hpath⟩

/-! ### The code of a binding -/

theorem Code.Path.seq_eq {first rest : Code} {path : List Instruction} {exit : Exit}
    (h : (Code.seq first rest).Path path exit) (hstays : first.Stays) :
    ∃ before after, first.Path before .through ∧ rest.Path after exit ∧ path = before ++ after := by
  cases h with
  | seq hbefore hafter => exact ⟨_, _, hbefore, hafter, rfl⟩
  | leave hbefore => cases hstays _ _ hbefore

theorem Code.Path.emit_eq {instruction : Instruction} {path : List Instruction} {exit : Exit}
    (h : (Code.emit instruction).Path path exit) : path = [instruction] := by
  cases h
  rfl

section Guarded

variable (guard : Bool) (instruction : Instruction)

theorem guarded_stays : (if guard then Code.emit instruction else .skip).Stays := by
  cases guard
  · exact .skip
  · exact .emit instruction

theorem guarded_eq {path : List Instruction} {exit : Exit}
    (h : (if guard then Code.emit instruction else .skip).Path path exit) :
    path = if guard then [instruction] else [] := by
  cases guard <;> cases h <;> rfl

theorem guarded_path :
    (if guard then Code.emit instruction else .skip).Path (if guard then [instruction] else [])
      .through := by
  cases guard
  · exact .skip
  · exact .emit instruction

end Guarded

section Binding

variable {opened hasSlot : Bool} {name : String} {value : Code}

/-- What a path through the code of a binding executes around the value. -/
theorem bindingCode_path (hstays : value.Stays) {path : List Instruction} {exit : Exit}
    (hpath : (Generator.bindingCode opened hasSlot name value).Path path exit) :
    ∃ inner, value.Path inner .through ∧
      path = (if opened then [.atomicBegin] else []) ++
        (inner ++ (.store name :: if opened && hasSlot then [.atomicEnd] else [])) := by
  unfold Generator.bindingCode at hpath
  cases hasSlot with
  | false =>
    obtain ⟨_, _, hbegin, hrest, rfl⟩ := hpath.seq_eq (guarded_stays _ _)
    obtain ⟨inner, _, hinner, hstore, rfl⟩ := hrest.seq_eq hstays
    rw [guarded_eq _ _ hbegin, hstore.emit_eq]
    exact ⟨inner, hinner, by simp⟩
  | true =>
    obtain ⟨_, _, hbegin, hrest, rfl⟩ := hpath.seq_eq (guarded_stays _ _)
    obtain ⟨inner, _, hinner, hlast, rfl⟩ := hrest.seq_eq hstays
    obtain ⟨_, _, hstore, hend, rfl⟩ := hlast.seq_eq (.emit _)
    rw [guarded_eq _ _ hbegin, hstore.emit_eq, guarded_eq _ _ hend]
    exact ⟨inner, hinner, by simp⟩

/-- A path through the value is one through the binding. -/
theorem path_bindingCode {inner : List Instruction} (h : value.Path inner .through) :
    (Generator.bindingCode opened hasSlot name value).Path
      ((if opened then [.atomicBegin] else []) ++
        (inner ++ (.store name :: if opened && hasSlot then [.atomicEnd] else []))) .through := by
  unfold Generator.bindingCode
  cases hasSlot with
  | false =>
    rw [Bool.and_false]
    exact .seq (guarded_path ..) (.seq h (.emit _))
  | true =>
    rw [Bool.and_true]
    exact .seq (guarded_path ..) (.seq h (.seq (.emit _) (guarded_path ..)))

theorem bindingCode_rising (hstays : value.Stays) (hrising : value.All Rising) :
    (Generator.bindingCode opened hasSlot name value).All Rising := by
  intro path exit hpath
  obtain ⟨inner, hinner, rfl⟩ := bindingCode_path hstays hpath
  have hstored := (hrising inner _ hinner).append (balanced_store name).rising
  cases opened with
  | false => simpa using hstored
  | true =>
    cases hasSlot with
    | false => simpa using hstored.begin_.1
    | true => simpa using hstored.section_

/-- The section of a binding is ended when the name has a slot. -/
theorem bindingCode_balanced (hstays : value.Stays) (hbalanced : value.All Balanced)
    (hslot : opened = true → hasSlot = true) :
    (Generator.bindingCode opened hasSlot name value).All Balanced := by
  intro path exit hpath
  obtain ⟨inner, hinner, rfl⟩ := bindingCode_path hstays hpath
  have hstored := (hbalanced inner _ hinner).append (balanced_store name)
  cases opened with
  | false => simpa using hstored
  | true =>
    obtain rfl := hslot rfl
    simpa using hstored.section_

/-- And it is not when the name has none. -/
theorem bindingCode_unclosed (hrising : value.All Rising) (hpasses : value.Passes) :
    ∃ path, (Generator.bindingCode true false name value).Path path .through ∧ ¬Balanced path := by
  obtain ⟨inner, hinner⟩ := hpasses
  refine ⟨_, path_bindingCode hinner, ?_⟩
  have hstored := (hrising inner _ hinner).append (balanced_store name).rising
  simpa using hstored.begin_.2

theorem bindingCode_stays (hstays : value.Stays) :
    (Generator.bindingCode opened hasSlot name value).Stays := by
  unfold Generator.bindingCode
  cases hasSlot with
  | false => exact .seq (guarded_stays _ _) (.seq hstays (.emit _))
  | true => exact .seq (guarded_stays _ _) (.seq hstays (.seq (.emit _) (guarded_stays _ _)))

end Binding

/-! ### What is logged of a `:=` -/

/-- The condition.  In a function, a statement whose bare name is in `atomic_bindings` reassigns a
binding declared with `@`, and the generator has a slot for it; and it does not declare the binding
it reassigns in its own right side.  At the top level no statement reassigns an atomic binding. -/
def Assignment.Agrees (a : Assignment) : Prop :=
  if a.inFunction then
    (a.listed = true → a.reassigned = some true ∧ a.hasSlot = true) ∧
    (a.reassigned = some true → a.before = some true ∨ a.listed = true)
  else a.reassigned ≠ some true

/-- What holds of a statement however it was lowered. -/
structure Assignment.Recorded (a : Assignment) : Prop where
  opened : a.opened = (a.inFunction && a.listed)
  known : a.before = some true → a.listed = true
  rising : a.code.All Rising
  unclosed : a.opened = true → a.hasSlot = false →
    ∃ path, a.code.Path path .through ∧ ¬Balanced path

namespace Generator

/-- The names declared with `@` in the scopes are listed. -/
def Lists (generator : Generator) : Prop :=
  ∀ scope ∈ generator.scopes, ∀ name, (name, true) ∈ scope → name ∈ generator.atomicBindings

structure Sound (generator : Generator) : Prop where
  lists : generator.Lists
  recorded : ∀ a ∈ generator.assignments, a.Recorded
  rising : ∀ body ∈ generator.functions, body.All Rising
  balanced : (∀ a ∈ generator.assignments, a.Agrees) →
    (∀ body ∈ generator.functions, body.All Balanced) ∧
      ∀ a ∈ generator.assignments, a.code.All Balanced

variable {generator generator' : Generator}

theorem Lists.lookup (h : generator.Lists) {name : String}
    (hname : generator.lookup name = some true) : name ∈ generator.atomicBindings := by
  obtain ⟨scope, hscope, hfound⟩ := List.exists_of_findSome?_eq_some hname
  obtain ⟨before, after, rfl, -⟩ := List.lookup_eq_some_iff.mp hfound
  exact h _ hscope name (by simp)

/-- Only the tables of names change, and no atomic name is brought into scope. -/
theorem Sound.of_scopes (h : generator.Sound)
    (hscopes : ∀ scope ∈ generator'.scopes, ∀ name, (name, true) ∈ scope →
      name ∈ generator'.atomicBindings)
    (hfunctions : generator'.functions = generator.functions)
    (hassignments : generator'.assignments = generator.assignments) : generator'.Sound := by
  refine ⟨hscopes, ?_, ?_, ?_⟩
  · rw [hassignments]
    exact h.recorded
  · rw [hfunctions]
    exact h.rising
  · rw [hassignments, hfunctions]
    exact h.balanced

theorem Sound.define (h : generator.Sound) {name : String} {atomic : Bool}
    (hatomic : atomic = true → name ∈ generator.atomicBindings) :
    (generator.define name atomic).Sound := by
  have hlists := h.lists
  unfold Lists at hlists
  unfold Generator.define
  split
  case h_1 scope rest hscopes =>
    refine h.of_scopes ?_ rfl rfl
    rw [hscopes] at hlists
    intro found hfound other hother
    rcases List.mem_cons.mp hfound with rfl | hfound
    · rcases List.mem_cons.mp hother with heq | hother
      · cases heq
        exact hatomic rfl
      · exact hlists scope (List.mem_cons_self ..) other hother
    · exact hlists found (List.mem_cons_of_mem _ hfound) other hother
  case h_2 =>
    refine h.of_scopes ?_ rfl rfl
    intro found hfound other hother
    obtain rfl := List.mem_singleton.mp hfound
    obtain heq := List.mem_singleton.mp hother
    cases heq
    exact hatomic rfl

theorem Sound.pushScope (h : generator.Sound) (names : List String) :
    (generator.pushScope names).Sound := by
  refine h.of_scopes ?_ rfl rfl
  intro scope hscope name hname
  rcases List.mem_cons.mp hscope with rfl | hscope
  · simp at hname
  · exact h.lists scope hscope name hname

theorem Sound.popScope (h : generator.Sound) : generator.popScope.Sound :=
  h.of_scopes (fun scope hscope => h.lists scope (List.mem_of_mem_tail hscope)) rfl rfl

/-- The variable table does not matter. -/
theorem Sound.setTable (h : generator.Sound) (table : List String) :
    Sound { generator with variableTable := table } :=
  h.of_scopes h.lists rfl rfl

theorem Sound.recordAtomic (h : generator.Sound) (declaration : VariableDeclaration) :
    (generator.recordAtomic declaration).Sound := by
  unfold Generator.recordAtomic
  split
  · exact h.of_scopes
      (fun scope hscope name hname => List.mem_cons_of_mem _ (h.lists scope hscope name hname))
      rfl rfl
  · exact h

theorem Sound.bind (h : generator.Sound) {declaration : VariableDeclaration}
    (hatomic : declaration.atomic = true → declaration.name ∈ generator.atomicBindings) :
    (generator.bind declaration).Sound := by
  unfold Generator.bind
  split
  · exact h
  · exact h.define hatomic

/-- A statement is logged. -/
theorem Sound.logAssignment (h : generator.Sound) {a : Assignment} (ha : a.Recorded)
    (hbalanced : (∀ b ∈ a :: generator.assignments, b.Agrees) → a.code.All Balanced) :
    (generator.logAssignment a).Sound := by
  refine ⟨h.lists, ?_, h.rising, ?_⟩
  · rintro b hb
    rcases List.mem_cons.mp hb with rfl | hb
    · exact ha
    · exact h.recorded b hb
  · intro hagrees
    obtain ⟨hfunctions, hassignments⟩ :=
      h.balanced fun b hb => hagrees b (List.mem_cons_of_mem _ hb)
    refine ⟨hfunctions, ?_⟩
    intro b hb
    rcases List.mem_cons.mp hb with rfl | hb
    · exact hbalanced hagrees
    · exact hassignments b hb

theorem Sound.enterFunction (h : generator.Sound) (names parameters : List String) :
    (generator.enterFunction names parameters).Sound :=
  (h.pushScope parameters).setTable names

/-- A function is emitted. -/
theorem Sound.leaveFunction (h : generator.Sound) (before : Generator) {body : Code}
    (hrising : body.All Rising)
    (hbalanced : (∀ a ∈ generator.assignments, a.Agrees) → body.All Balanced) :
    (generator.leaveFunction before body).Sound := by
  have hpopped := h.popScope
  refine ⟨hpopped.lists, h.recorded, ?_, ?_⟩
  · intro found hfound
    rcases List.mem_cons.mp hfound with rfl | hfound
    · exact hrising
    · exact h.rising found hfound
  · intro hagrees
    obtain ⟨hfunctions, hassignments⟩ := h.balanced hagrees
    refine ⟨?_, hassignments⟩
    intro found hfound
    rcases List.mem_cons.mp hfound with rfl | hfound
    · exact hbalanced hagrees
    · exact hfunctions found hfound

end Generator

/-! ### What lowering does -/

structure Emits (g g' : Generator) : Prop where
  names : g.atomicBindings ⊆ g'.atomicBindings
  logged : g.assignments ⊆ g'.assignments
  sound : g.Sound → g'.Sound

/-- Code is emitted that rises, that can be left at its end and only there unless it is in tail
position, and that is balanced when every statement logged so far agrees. -/
structure Generates (tail : Bool) (g : Generator) (result : Code × Generator) : Prop where
  emits : Emits g result.2
  rising : result.1.All Rising
  passes : tail = false → result.1.Passes
  stays : tail = false → result.1.Stays
  balanced : g.Sound → (∀ a ∈ result.2.assignments, a.Agrees) → result.1.All Balanced

theorem Emits.refl (g : Generator) : Emits g g :=
  ⟨fun _ h => h, fun _ h => h, id⟩

theorem Emits.trans {g g' g'' : Generator} (h : Emits g g') (h' : Emits g' g'') : Emits g g'' :=
  ⟨fun _ hname => h'.names (h.names hname), fun _ ha => h'.logged (h.logged ha),
    fun hsound => h'.sound (h.sound hsound)⟩

theorem Emits.setTable (g : Generator) (table : List String) :
    Emits g { g with variableTable := table } :=
  ⟨fun _ h => h, fun _ h => h, fun h => h.setTable table⟩

theorem Emits.pushScope (g : Generator) (names : List String) : Emits g (g.pushScope names) :=
  ⟨fun _ h => h, fun _ h => h, fun h => h.pushScope names⟩

theorem Emits.popScope (g : Generator) : Emits g g.popScope :=
  ⟨fun _ h => h, fun _ h => h, fun h => h.popScope⟩

theorem Emits.bind {g : Generator} {declaration : VariableDeclaration}
    (hatomic : declaration.atomic = true → declaration.name ∈ g.atomicBindings) :
    Emits g (g.bind declaration) := by
  refine ⟨?_, ?_, fun h => h.bind hatomic⟩ <;> unfold Generator.bind Generator.define <;> split <;>
    try split
  all_goals exact fun _ h => h

theorem Emits.define (g : Generator) (name : String) : Emits g (g.define name false) := by
  refine ⟨?_, ?_, fun h => h.define (by simp)⟩ <;> unfold Generator.define <;> split <;>
    exact fun _ h => h

theorem Emits.insertVariable (g : Generator) (name : String) : Emits g (g.insertVariable name) :=
  Emits.setTable g _

theorem Emits.enterFunction (g : Generator) (names parameters : List String) :
    Emits g (g.enterFunction names parameters) :=
  (Emits.pushScope g parameters).trans (Emits.setTable _ names)

theorem Emits.recordAtomic (g : Generator) (declaration : VariableDeclaration) :
    Emits g (g.recordAtomic declaration) := by
  refine ⟨?_, ?_, fun h => h.recordAtomic declaration⟩ <;> unfold Generator.recordAtomic <;> split
  · exact fun _ h => List.mem_cons_of_mem _ h
  all_goals exact fun _ h => h

/-- The scope and the table of an arm or an inlined lambda. -/
theorem Emits.shadow (g : Generator) (names table : List String) :
    Emits g { g.pushScope names with variableTable := table } :=
  (Emits.pushScope g names).trans (Emits.setTable _ table)

theorem Emits.restore (g before : Generator) (names : List String) :
    Emits g (g.popScope.restoreBindings before names) :=
  (Emits.popScope g).trans (Emits.setTable _ _)

namespace Generates

variable {tail : Bool} {g g' : Generator} {first second : Code × Generator}

/-- A piece of code that needs nothing logged. -/
theorem code {piece : Code} (hbalanced : piece.All Balanced) (hpasses : piece.Passes)
    (hstays : piece.Stays) (tail : Bool) (g : Generator) : Generates tail g (piece, g) :=
  ⟨.refl g, fun path exit hpath => (hbalanced path exit hpath).rising, fun _ => hpasses,
    fun _ => hstays, fun _ _ => hbalanced⟩

theorem skip (tail : Bool) (g : Generator) : Generates tail g (.skip, g) :=
  code (.skip balanced_nil) ⟨[], .skip⟩ .skip tail g

theorem after (hg : Emits g g') (h : Generates tail g' first) : Generates tail g first :=
  ⟨hg.trans h.emits, h.rising, h.passes, h.stays, fun hsound => h.balanced (hg.sound hsound)⟩

theorem then_ (h : Generates tail g first) (hg : Emits first.2 g') :
    Generates tail g (first.1, g') :=
  ⟨h.emits.trans hg, h.rising, h.passes, h.stays,
    fun hsound hagrees => h.balanced hsound fun a ha => hagrees a (hg.logged ha)⟩

/-- Code in value position is code in any position. -/
theorem value (h : Generates false g first) (tail : Bool) : Generates tail g first :=
  ⟨h.emits, h.rising, fun _ => h.passes rfl, fun _ => h.stays rfl, h.balanced⟩

theorem seq (h : Generates false g first) (h' : Generates tail first.2 second) :
    Generates tail g (.seq first.1 second.1, second.2) := by
  refine ⟨h.emits.trans h'.emits, .seq .append h.rising h'.rising,
    fun htail => (h.passes rfl).seq (h'.passes htail),
    fun htail => (h.stays rfl).seq (h'.stays htail), ?_⟩
  intro hsound hagrees
  have hfirst := h.balanced hsound fun a ha => hagrees a (h'.emits.logged ha)
  exact .seq .append hfirst (h'.balanced (h.emits.sound hsound) hagrees)

theorem branch (h : Generates tail g first) (h' : Generates tail first.2 second) :
    Generates tail g (.branch first.1 second.1, second.2) := by
  refine ⟨h.emits.trans h'.emits, .branch h.rising h'.rising,
    fun htail => (h.passes htail).branch _,
    fun htail => (h.stays htail).branch (h'.stays htail), ?_⟩
  intro hsound hagrees
  have hfirst := h.balanced hsound fun a ha => hagrees a (h'.emits.logged ha)
  exact .branch hfirst (h'.balanced (h.emits.sound hsound) hagrees)

theorem loop (h : Generates false g first) : Generates tail g (.loop first.1, first.2) :=
  ⟨h.emits, .loop .append balanced_nil.rising h.rising, fun _ => ⟨[], .stop⟩,
    fun _ => (h.stays rfl).loop,
    fun hsound hagrees => .loop .append balanced_nil (h.balanced hsound hagrees)⟩

/-- Values, and then the back-edge. -/
theorem back (h : Generates false g first) : Generates true g (.seq first.1 .back, first.2) :=
  ⟨h.emits, .seq .append h.rising (.back balanced_nil.rising), by simp, by simp,
    fun hsound hagrees => .seq .append (h.balanced hsound hagrees) (.back balanced_nil)⟩

theorem load (name : String) (tail : Bool) (g : Generator) :
    Generates tail g (.emit (.load name), g) :=
  code (.emit (balanced_load name)) ⟨_, .emit _⟩ (.emit _) tail g

theorem read (name : String) (tail : Bool) (g : Generator) :
    Generates tail g (g.read name, g) := by
  unfold Generator.read
  split
  · refine code ?_ ⟨_, .seq (.emit _) (.seq (.emit _) (.emit _))⟩
      (.seq (.emit _) (.seq (.emit _) (.emit _))) tail g
    intro path exit hpath
    obtain ⟨_, _, hbegin, hrest, rfl⟩ := hpath.seq_eq (.emit _)
    obtain ⟨_, _, hload, hend, rfl⟩ := hrest.seq_eq (.emit _)
    rw [hbegin.emit_eq, hload.emit_eq, hend.emit_eq]
    exact (balanced_load name).section_
  · exact load name tail g

theorem identifier (answers : LoweringAnswers) (name : String) (tail : Bool) (g : Generator) :
    Generates tail g (g.generateIdentifier answers name, g) := by
  unfold Generator.generateIdentifier
  split
  · exact read name tail g
  split
  · exact skip tail g
  split
  · exact read name tail g
  · exact skip tail g

/-- What is logged of a `:=` holds of it, and its section is ended if it agrees. -/
theorem logged {declaration : VariableDeclaration} {hasSlot : Bool} {reassigned : Option Bool}
    (h : Generates false g first) (hmutable : declaration.isMutable = true)
    (hdeclared : declaration.atomic = false) :
    Emits g (first.2.logAssignment
      { name := declaration.name, inFunction := true
        opened := g.isAtomicReassignment declaration
        listed := g.atomicBindings.contains declaration.name
        before := g.lookup declaration.name
        reassigned, hasSlot
        code := Generator.bindingCode (g.isAtomicReassignment declaration)
          (declaration.isMutable && hasSlot) declaration.name first.1 }) := by
  have hopened : g.isAtomicReassignment declaration =
      g.atomicBindings.contains declaration.name := by
    simp [Generator.isAtomicReassignment, hmutable, hdeclared]
  refine ⟨h.emits.names, fun _ ha => List.mem_cons_of_mem _ (h.emits.logged ha), ?_⟩
  intro hsound
  refine (h.emits.sound hsound).logAssignment ⟨hopened, ?_, ?_, ?_⟩ ?_
  · intro hbefore
    simpa using hsound.lists.lookup hbefore
  · exact bindingCode_rising (h.stays rfl) h.rising
  · rintro hopen rfl
    replace hopen : g.isAtomicReassignment declaration = true := hopen
    show ∃ path, (Generator.bindingCode (g.isAtomicReassignment declaration) _ _ _).Path path _ ∧ _
    rw [hopen, Bool.and_false]
    exact bindingCode_unclosed h.rising (h.passes rfl)
  · intro hagrees
    refine bindingCode_balanced (h.stays rfl) ?_ ?_
    · exact h.balanced hsound fun a ha => hagrees a (List.mem_cons_of_mem _ ha)
    · intro hopen
      have hagree := hagrees _ (List.mem_cons_self ..)
      simp only [Assignment.Agrees, ↓reduceIte] at hagree
      rw [hmutable, Bool.true_and]
      exact (hagree.1 (hopened ▸ hopen)).2

/-- The store of a binding, and what the generator and the checker make of its name. -/
theorem stored {declaration : VariableDeclaration} {opened slot : Bool} {logged : Generator}
    (h : Generates false g first) (hlogged : Emits g logged)
    (hfirst : first.2.assignments ⊆ logged.assignments)
    (hatomic : declaration.atomic = true → declaration.name ∈ logged.atomicBindings)
    (hslot : (∀ a ∈ logged.assignments, a.Agrees) → opened = true → slot = true) (tail : Bool) :
    Generates tail g (Generator.bindingCode opened slot declaration.name first.1,
      (if slot then logged else logged.insertVariable declaration.name).bind declaration) := by
  have hslotted : Emits logged
      (if slot then logged else logged.insertVariable declaration.name) := by
    cases slot
    · exact .setTable logged _
    · exact .refl logged
  have hbound := hslotted.trans (.bind fun h => hslotted.names (hatomic h))
  refine ⟨hlogged.trans hbound, bindingCode_rising (h.stays rfl) h.rising, ?_,
    fun _ => bindingCode_stays (h.stays rfl), ?_⟩
  · intro _
    obtain ⟨inner, hinner⟩ := h.passes rfl
    exact ⟨_, path_bindingCode hinner⟩
  · intro hsound hagrees
    have hlater : ∀ a ∈ logged.assignments, a.Agrees := fun a ha => hagrees a (hbound.logged ha)
    exact bindingCode_balanced (h.stays rfl)
      (h.balanced hsound fun a ha => hlater a (hfirst ha)) (hslot hlater)

/-- A binding statement in a function. -/
theorem binding (declaration : VariableDeclaration)
    (h : Generates false (g.recordAtomic declaration) first) (tail : Bool) :
    Generates tail g
      (first.2.storeBinding (g.recordAtomic declaration) declaration first.1) := by
  have hatomic : declaration.atomic = true → declaration.name ∈ first.2.atomicBindings := by
    intro hatomic
    exact h.emits.names (by simp [Generator.recordAtomic, hatomic])
  refine after (Emits.recordAtomic g declaration) ?_
  generalize g.recordAtomic declaration = recorded at h ⊢
  unfold Generator.storeBinding
  dsimp only
  by_cases hlog : (declaration.isMutable && !declaration.atomic) = true
  · rw [if_pos hlog]
    rw [Bool.and_eq_true, Bool.not_eq_true'] at hlog
    refine h.stored (h.logged hlog.1 hlog.2) (fun _ ha => List.mem_cons_of_mem _ ha) hatomic ?_ tail
    intro hagrees hopen
    -- The statement is in the log, and its name is listed.
    have hagree := hagrees _ (List.mem_cons_self ..)
    simp only [Assignment.Agrees, ↓reduceIte] at hagree
    rw [hlog.1, Bool.true_and]
    refine (hagree.1 ?_).2
    simp only [Generator.isAtomicReassignment, Bool.and_eq_true] at hopen
    exact hopen.2
  · rw [if_neg hlog]
    refine h.stored h.emits (fun _ ha => ha) hatomic ?_ tail
    intro _ hopen
    simp only [Generator.isAtomicReassignment, Bool.and_eq_true] at hopen hlog
    exact absurd ⟨hopen.1.2, hopen.1.1⟩ hlog

/-- A function body, and the function emitted. -/
theorem leave (h : Generates tail g first) (before : Generator) :
    Emits g (first.2.leaveFunction before first.1) := by
  refine ⟨h.emits.names, h.emits.logged, ?_⟩
  intro hsound
  exact (h.emits.sound hsound).leaveFunction before h.rising (h.balanced hsound)

end Generates

section Lowering

variable (answers : LoweringAnswers)

mutual

/-- By recursion on the expression. -/
theorem generateExpression_generates (tail : Bool) (e : Expression) (g : Generator) :
    Generates tail g (generateExpression answers tail e g) := by
  match e with
  | .number _ _ | .string _ _ | .bool _ _ | .unit _ =>
    rw [generateExpression]
    exact .skip tail g
  | .identifier name _ =>
    rw [generateExpression]
    exact .identifier answers name tail g
  | .interpolation parts _ =>
    rw [generateExpression]
    exact (generateParts_generates parts g).value tail
  | .binaryOperator left operator right span =>
    rw [generateExpression]
    have hleft := generateExpression_generates false left g
    have hright := generateExpression_generates false right
    dsimp only
    split
    · exact (hleft.seq ((hright _).branch (.skip false _))).value tail
    · exact (hleft.seq (hright _)).value tail
  | .unaryOperator _ inner _ | .spread inner _ =>
    rw [generateExpression]
    exact (generateExpression_generates false inner g).value tail
  | .fieldAccess inner _ span =>
    have hinner := generateExpression_generates false inner g
    cases inner with
    | identifier name _ =>
      rw [generateExpression]
      split
      · exact .load name tail g
      · exact .identifier answers name tail g
    | _ =>
      rw [generateExpression]
      · exact hinner.value tail
      · simp
  | .call function arguments memberCall span =>
    have hfunction := generateExpression_generates false function g
    have harguments := fun primitive => generateArguments_generates primitive arguments
    cases function with
    | identifier name _ =>
      rw [generateExpression]
      have hvalues := harguments (atPrimitiveName name) g
      dsimp only
      split
      · exact (hvalues.branch (.skip false _)).value tail
      split
      case isTrue hback =>
        rw [Bool.and_eq_true] at hback
        rw [hback.1]
        exact hvalues.back
      split
      · exact ((Generates.identifier answers name false g).seq hvalues).value tail
      · exact hvalues.value tail
    | _ =>
      rw [generateExpression]
      · exact (hfunction.seq (harguments none _)).value tail
      · simp
  | .lambda parameters _ body span =>
    rw [generateExpression]
    dsimp only
    split
    · refine (Generates.loop ?_).then_ (Emits.restore _ g _)
      exact (generateExpression_generates false body _).after (Emits.shadow g _ _)
    · have hbody := generateExpression_generates false body
      exact (Generates.skip tail g).then_ ((Emits.enterFunction g _ _).trans ((hbody _).leave g))
  | .block statements _ =>
    rw [generateExpression]
    exact generateStatements_generates tail statements g
  | .ifThenElse condition then_ else_ _ =>
    rw [generateExpression]
    have hthen := generateExpression_generates tail then_
    have helse := generateExpression_generates tail else_
    exact (generateExpression_generates false condition g).seq ((hthen _).branch (helse _))
  | .match_ scrutinee arms _ =>
    rw [generateExpression]
    exact (generateExpression_generates false scrutinee g).seq (generateArms_generates tail arms _)
  | .fieldAssign target value _ =>
    have hvalue := generateExpression_generates false value
    cases target with
    | fieldAccess base _ _ =>
      rw [generateExpression]
      exact ((hvalue g).seq (generateExpression_generates false base _)).value tail
    | _ =>
      rw [generateExpression]
      · exact .skip tail g
      · simp
  | .indexAssign target value _ =>
    have hvalue := generateExpression_generates false value
    cases target with
    | index array index _ =>
      rw [generateExpression]
      have harray := generateExpression_generates false array g
      have hindex := generateExpression_generates false index
      exact (harray.seq ((hindex _).seq (hvalue _))).value tail
    | _ =>
      rw [generateExpression]
      · exact .skip tail g
      · simp
  | .index left right _ | .range left right _ =>
    rw [generateExpression]
    have hleft := generateExpression_generates false left g
    exact (hleft.seq (generateExpression_generates false right _)).value tail
  | .array elements _ | .setLiteral elements _ =>
    rw [generateExpression]
    exact (generateAll_generates elements g).value tail
  | .mapLiteral entries _ =>
    rw [generateExpression]
    exact (generateEntries_generates entries g).value tail
  | .record fields _ | .constructor _ fields _ =>
    rw [generateExpression]
    exact (generateFields_generates fields g).value tail
termination_by sizeOf e

theorem generateAll_generates (elements : List Expression) (g : Generator) :
    Generates false g (generateAll answers elements g) := by
  match elements with
  | [] =>
    rw [generateAll]
    exact .skip false g
  | e :: rest =>
    rw [generateAll]
    exact (generateExpression_generates false e g).seq (generateAll_generates rest _)
termination_by sizeOf elements

/-- An argument that is lowered twice is no different. -/
theorem generateArguments_generates (primitive : Option String) (arguments : List Expression)
    (g : Generator) : Generates false g (generateArguments answers primitive arguments g) := by
  match arguments with
  | [] =>
    rw [generateArguments]
    exact .skip false g
  | [first, second] =>
    have hfirst := generateExpression_generates false first
    have hsecond := generateExpression_generates false second
    rw [generateArguments]
    dsimp only
    split
    · exact (hsecond g).seq (hfirst _)
    · exact (hfirst g).seq (hsecond _)
  | [first, second, third] =>
    have hfirst := generateExpression_generates false first
    have hsecond := generateExpression_generates false second
    have hthird := generateExpression_generates false third
    rw [generateArguments]
    dsimp only
    split
    · exact (hsecond g).seq ((hthird _).seq ((hthird _).seq (hfirst _)))
    split
    · exact (hfirst g).seq ((hsecond _).seq ((hthird _).seq (hthird _)))
    · exact (hfirst g).seq ((hsecond _).seq (hthird _))
  | [e] =>
    rw [generateArguments]
    · exact (generateExpression_generates false e g).seq (generateAll_generates [] _)
    all_goals simp
  | e :: second :: third :: fourth :: rest =>
    rw [generateArguments]
    · exact (generateExpression_generates false e g).seq
        (generateAll_generates (second :: third :: fourth :: rest) _)
    all_goals simp
termination_by sizeOf arguments

theorem generateParts_generates (parts : List InterpolationPart) (g : Generator) :
    Generates false g (generateParts answers parts g) := by
  match parts with
  | [] =>
    rw [generateParts]
    exact .skip false g
  | .literal _ :: rest =>
    rw [generateParts]
    exact generateParts_generates rest g
  | .hole e :: rest =>
    rw [generateParts]
    exact (generateExpression_generates false e g).seq (generateParts_generates rest _)
termination_by sizeOf parts

theorem generateEntries_generates (entries : List (Expression × Expression)) (g : Generator) :
    Generates false g (generateEntries answers entries g) := by
  match entries with
  | [] =>
    rw [generateEntries]
    exact .skip false g
  | (key, value) :: rest =>
    rw [generateEntries]
    have hvalue := generateExpression_generates false value
    have hrest := generateEntries_generates rest
    exact (generateExpression_generates false key g).seq ((hvalue _).seq (hrest _))
termination_by sizeOf entries

theorem generateFields_generates (fields : List (String × Expression)) (g : Generator) :
    Generates false g (generateFields answers fields g) := by
  match fields with
  | [] =>
    rw [generateFields]
    exact .skip false g
  | (_, value) :: rest =>
    rw [generateFields]
    exact (generateExpression_generates false value g).seq (generateFields_generates rest _)
termination_by sizeOf fields

theorem generateArms_generates (tail : Bool) (arms : List MatchArm) (g : Generator) :
    Generates tail g (generateArms answers tail arms g) := by
  match arms with
  | [] =>
    rw [generateArms]
    exact .skip tail g
  | ⟨pattern, body, _⟩ :: rest =>
    rw [generateArms]
    have hbody := generateExpression_generates tail body
    have hrest := generateArms_generates tail rest
    refine (Generates.then_ ?_ (Emits.restore _ g _)).branch (hrest _)
    exact (hbody _).after (Emits.shadow g pattern.bindingNames _)
termination_by sizeOf arms

theorem generateStatements_generates (tail : Bool) (statements : List Statement) (g : Generator) :
    Generates tail g (generateStatements answers tail statements g) := by
  match statements with
  | [] =>
    rw [generateStatements]
    exact .skip tail g
  | [.expression e] =>
    rw [generateStatements]
    exact generateExpression_generates tail e g
  | .expression e :: next :: rest =>
    have hrest := generateStatements_generates tail (next :: rest)
    rw [generateStatements]
    · exact (generateExpression_generates false e g).seq (hrest _)
    · simp
  | .item (.variableDeclaration ⟨m, name, ty, value, exported, atomic, span⟩) :: rest =>
    have hvalue := generateExpression_generates false value
    have hrest := generateStatements_generates tail rest
    rw [generateStatements]
    exact (Generates.binding ⟨m, name, ty, value, exported, atomic, span⟩ (hvalue _) false).seq
      (hrest _)
  | .item (.functionDeclaration ⟨name, ps, ret, bind, body, exported, corelib, span⟩) :: rest =>
    have hbody := fun tail => generateExpression_generates tail body
    have hrest := generateStatements_generates tail rest
    rw [generateStatements]
    dsimp only
    split
    · exact hrest g
    refine (hrest _).after ?_
    have hentered := fun names parameters =>
      (Emits.define g name).trans (Emits.enterFunction _ names parameters)
    -- The function is a closure if it captures anything.
    split
    · exact ((hentered _ _).trans ((hbody _ _).leave g)).trans (Emits.insertVariable _ name)
    · exact (hentered _ _).trans ((hbody _ _).leave g)
  | .item (.typeDeclaration ⟨_, .sum _ methods, _, _⟩) :: rest =>
    rw [generateStatements]
    exact (generateStatements_generates tail rest _).after (generateMethods_emits methods g)
  | .item (.typeDeclaration ⟨_, .record _ methods, _, _⟩) :: rest =>
    rw [generateStatements]
    exact (generateStatements_generates tail rest _).after (generateMethods_emits methods g)
  | .item (.trapDeclaration _) :: rest =>
    rw [generateStatements]
    exact generateStatements_generates tail rest g
termination_by sizeOf statements

theorem generateMethods_emits (methods : List MethodDeclaration) (g : Generator) :
    Emits g (generateMethods answers methods g) := by
  match methods with
  | [] =>
    rw [generateMethods]
    exact .refl g
  | ⟨name, parameters, _, body, _, span⟩ :: rest =>
    have hbody := fun tail => generateExpression_generates tail body
    rw [generateMethods]
    refine Emits.trans ?_ (generateMethods_emits rest _)
    exact (Emits.enterFunction g _ _).trans ((hbody _ _).leave g)
termination_by sizeOf methods

end

/-! ### The program -/

/-- What holds after any number of items. -/
structure Lowered.Sound (lowered : Lowered) : Prop where
  generator : lowered.generator.Sound
  balanced : (∀ a ∈ lowered.generator.assignments, a.Agrees) → lowered.init.All Balanced

theorem Lowered.Sound.emit {lowered : Lowered} {g : Generator} (h : lowered.Sound)
    (hg : Emits lowered.generator g) : Lowered.Sound { lowered with generator := g } :=
  ⟨hg.sound h.generator, fun hagrees => h.balanced fun a ha => hagrees a (hg.logged ha)⟩

/-- A top-level `:=` is logged, with no section. -/
theorem Generates.loggedTopLevel {g : Generator} {first : Code × Generator} {name : String}
    {reassigned : Option Bool} (h : Generates false g first) :
    Emits g (first.2.logAssignment
      { name, inFunction := false, opened := false, listed := g.atomicBindings.contains name
        before := g.lookup name, reassigned, hasSlot := false
        code := .seq first.1 (.emit (.store name)) }) := by
  refine ⟨h.emits.names, fun _ ha => List.mem_cons_of_mem _ (h.emits.logged ha), ?_⟩
  intro hsound
  refine (h.emits.sound hsound).logAssignment ⟨rfl, ?_, ?_, by simp⟩ ?_
  · intro hbefore
    simpa using hsound.lists.lookup hbefore
  · exact .seq .append h.rising (.emit (balanced_store name).rising)
  · intro hagrees
    have hvalue := h.balanced hsound fun a ha => hagrees a (List.mem_cons_of_mem _ ha)
    exact .seq .append hvalue (.emit (balanced_store name))

theorem generateTopLevelBinding_sound (declaration : VariableDeclaration) {lowered : Lowered}
    (h : lowered.Sound) : (generateTopLevelBinding answers declaration lowered).Sound := by
  have hrecorded := Emits.recordAtomic lowered.generator declaration
  have hatomic : declaration.atomic = true →
      declaration.name ∈ (lowered.generator.recordAtomic declaration).atomicBindings := by
    intro hatomic
    simp [Generator.recordAtomic, hatomic]
  have hvalue := generateExpression_generates answers false declaration.value
    (lowered.generator.recordAtomic declaration)
  -- Whether it is logged or not, the generator has grown.
  have hlogged (a : Generator) (ha : Emits (lowered.generator.recordAtomic declaration) a)
      (hkept : (generateExpression answers false declaration.value
        (lowered.generator.recordAtomic declaration)).2.assignments ⊆ a.assignments) :
      Lowered.Sound
        { init := if isConstant declaration.value then lowered.init else
            .seq lowered.init (.seq (generateExpression answers false declaration.value
              (lowered.generator.recordAtomic declaration)).1 (.emit (.store declaration.name)))
          generator := { a.bind declaration with
            globals := declaration.name :: (a.bind declaration).globals } } := by
    have hbound := Emits.bind fun h => ha.names (hatomic h)
    have hgrown := (hrecorded.trans ha).trans hbound
    refine ⟨(hgrown.sound h.generator).of_scopes (hgrown.sound h.generator).lists rfl rfl, ?_⟩
    intro hagrees
    replace hagrees : ∀ b ∈ (a.bind declaration).assignments, b.Agrees := hagrees
    have hinit := h.balanced fun b hb => hagrees b (hgrown.logged hb)
    dsimp only
    split
    · exact hinit
    have hbalanced := hvalue.balanced (hrecorded.sound h.generator)
      fun b hb => hagrees b (hbound.logged (hkept hb))
    exact .seq .append hinit (.seq .append hbalanced (.emit (balanced_store _)))
  unfold generateTopLevelBinding
  dsimp only
  by_cases hlog : (declaration.isMutable && !declaration.atomic) = true
  · rw [if_pos hlog]
    exact hlogged _ hvalue.loggedTopLevel fun _ ha => List.mem_cons_of_mem _ ha
  · rw [if_neg hlog]
    exact hlogged _ hvalue.emits fun _ ha => ha

theorem generateTopLevelFunction_emits (declaration : FunctionDeclaration) (g : Generator) :
    Emits g (generateTopLevelFunction answers declaration g) := by
  unfold generateTopLevelFunction
  split
  · exact .refl g
  have hbody := generateExpression_generates answers (answers.loops declaration.span)
    declaration.body
  exact (Emits.enterFunction g _ _).trans ((hbody _).leave _)

theorem generateTrapArms_emits (arms : List MatchArm) (g : Generator) :
    Emits g (generateTrapArms answers arms g) := by
  induction arms generalizing g with
  | nil => exact .refl g
  | cons arm arms ih =>
    rw [generateTrapArms]
    have hbody := generateExpression_generates answers false arm.body
    exact ((Emits.enterFunction g _ _).trans ((hbody _).leave g)).trans (ih _)

theorem generateItem_sound (reachable : Option (List String)) (item : Item) {lowered : Lowered}
    (h : lowered.Sound) : (generateItem answers reachable lowered item).Sound := by
  cases item with
  | variableDeclaration declaration => exact generateTopLevelBinding_sound answers declaration h
  | functionDeclaration declaration =>
    have hdefined := Emits.define lowered.generator declaration.name
    refine h.emit ?_
    split
    · exact hdefined.trans (generateTopLevelFunction_emits answers declaration _)
    · exact hdefined
  | typeDeclaration declaration => exact h.emit (generateMethods_emits answers _ _)
  | trapDeclaration trap => exact h.emit (generateTrapArms_emits answers _ _)

theorem Generator.start_sound : Generator.start.Sound := by
  refine ⟨?_, by simp [Generator.start], by simp [Generator.start], fun _ => ?_⟩
  · simp [Generator.Lists, Generator.start]
  · simp [Generator.start]

/-- By induction on the items of the program. -/
theorem generate_sound (program : Program) : (generate answers program).Sound := by
  suffices hitems : ∀ (items : List Item) (lowered : Lowered), lowered.Sound →
      (items.foldl (generateItem answers (reachableFunctions program)) lowered).Sound by
    exact hitems _ _ ⟨Generator.start_sound, fun _ => .skip balanced_nil⟩
  intro items
  induction items with
  | nil => exact fun _ h => h
  | cons item items ih => exact fun _ h => ih _ (generateItem_sound answers _ item h)

/-- The sections of a program are balanced in every function and in every `:=`, and opened for the
reassignments of atomic bindings and for no other `:=`, if and only if each `:=` agrees with the
set of atomic names. -/
theorem sections_balanced_iff (program : Program) :
    ((∀ body ∈ (generate answers program).generator.functions, ∀ path,
        body.Run path → Balanced path) ∧
      (∀ path, (generate answers program).init.Run path → Balanced path) ∧
      ∀ a ∈ (generate answers program).generator.assignments,
        (∀ path, a.code.Path path .through → Balanced path) ∧
          (a.opened = true ↔ a.reassigned = some true)) ↔
      ∀ a ∈ (generate answers program).generator.assignments, a.Agrees := by
  have hsound := generate_sound answers program
  constructor
  · rintro ⟨-, -, hassignments⟩ a ha
    have hrecorded := hsound.generator.recorded a ha
    obtain ⟨hbalanced, hopened⟩ := hassignments a ha
    have hlisted := hrecorded.opened
    unfold Assignment.Agrees
    split
    case isTrue hfunction =>
      rw [hfunction, Bool.true_and] at hlisted
      refine ⟨fun h => ?_, fun h => .inr (hlisted ▸ hopened.mpr h)⟩
      have hopen : a.opened = true := hlisted ▸ h
      refine ⟨hopened.mp hopen, ?_⟩
      by_contra hslot
      obtain ⟨path, hpath, hunbalanced⟩ :=
        hrecorded.unclosed hopen (Bool.eq_false_iff.mpr hslot)
      exact hunbalanced (hbalanced path hpath)
    case isFalse hfunction =>
      rw [Bool.eq_false_iff.mpr hfunction, Bool.false_and] at hlisted
      intro hreassigned
      have hopen := hopened.mpr hreassigned
      rw [hlisted] at hopen
      cases hopen
  · intro hagrees
    obtain ⟨hfunctions, hassignments⟩ := hsound.generator.balanced hagrees
    refine ⟨fun body hbody path hrun => (hfunctions body hbody).run .append hrun,
      fun path hrun => (hsound.balanced hagrees).run .append hrun, ?_⟩
    intro a ha
    refine ⟨fun path hpath => hassignments a ha path _ hpath, ?_⟩
    have hrecorded := hsound.generator.recorded a ha
    have hagree := hagrees a ha
    rw [hrecorded.opened]
    unfold Assignment.Agrees at hagree
    split at hagree
    case isTrue hfunction =>
      rw [hfunction, Bool.true_and]
      refine ⟨fun h => (hagree.1 h).1, fun h => ?_⟩
      rcases hagree.2 h with hbefore | hlisted
      · exact hrecorded.known hbefore
      · exact hlisted
    case isFalse hfunction =>
      rw [Bool.eq_false_iff.mpr hfunction, Bool.false_and]
      simpa using hagree

end Lowering

/-! ### A name used again -/

namespace FreshLocal

def noAnswers : LoweringAnswers where
  inlined _ := false
  userOperator _ := false
  closureCallee _ := false
  inPlace _ := false
  loops _ := false
  backEdges _ := false
  isVariant _ := false

def at_ (start : Nat) : Span := ⟨start, start + 1, 0⟩

def assign (atomic : Bool) (name : String) (value : Expression) (start : Nat) : Statement :=
  .item (.variableDeclaration ⟨true, name, none, value, false, atomic, at_ start⟩)

def function (name : String) (statements : List Statement) (start : Nat) : Item :=
  .functionDeclaration
    ⟨name, [], none, none, .block statements (at_ (start + 1)), false, false, at_ start⟩

/-- `first = () => < @hits := 0  hits := 1  hits >`, `second = () => < hits := 5  hits >` and
`^ = () => < first() + second() >`. -/
def program : Program where
  items := [
    function "first"
      [assign true "hits" (.number 0 (at_ 3)) 2, assign false "hits" (.number 1 (at_ 5)) 4,
        .expression (.identifier "hits" (at_ 6))] 0,
    function "second"
      [assign false "hits" (.number 5 (at_ 13)) 12, .expression (.identifier "hits" (at_ 14))] 10,
    function "^"
      [.expression (.binaryOperator (.call (.identifier "first" (at_ 23)) [] false (at_ 22)) .add
        (.call (.identifier "second" (at_ 25)) [] false (at_ 24)) (at_ 26))] 20]

end FreshLocal

/-- The local of `second` is under the name of the atomic binding of `first`: its declaration begins
a section that no path through `second` ends. -/
theorem fresh_local_unbalanced :
    (∃ body ∈ (generate FreshLocal.noAnswers FreshLocal.program).generator.functions,
      ∃ path, body.Run path ∧ ¬Balanced path) ∧
    ∃ a ∈ (generate FreshLocal.noAnswers FreshLocal.program).generator.assignments,
      a.opened = true ∧ a.reassigned ≠ some true := by
  have hfunctions : (generate FreshLocal.noAnswers FreshLocal.program).generator.functions[1]? =
      some (.seq
        (Generator.bindingCode true false "hits" .skip)
        (.seq (.emit .atomicBegin) (.seq (.emit (.load "hits")) (.emit .atomicEnd)))) := rfl
  have hassignments :
      (generate FreshLocal.noAnswers FreshLocal.program).generator.assignments[0]?.map
        (fun a => (a.opened, a.reassigned)) = some (true, none) := rfl
  constructor
  · refine ⟨_, List.mem_of_getElem? hfunctions, _, .last (.seq (path_bindingCode .skip)
      (.seq (.emit _) (.seq (.emit _) (.emit _)))), ?_⟩
    intro hbalanced
    have hzero := hbalanced 0
    simp [sectionsAfter] at hzero
  · obtain ⟨a, ha, hfields⟩ := Option.map_eq_some_iff.mp hassignments
    obtain ⟨hopened, hreassigned⟩ := Prod.mk.inj hfields
    exact ⟨a, List.mem_of_getElem? ha, hopened, by simp [hreassigned]⟩

end Quilon
