import Quilon.Library.DepthFirst
import Quilon.Library.Results
import Quilon.Modules.Loader

/-!
# Linking

The modules are the keys of a depth-first search (`Quilon.DepthFirst`), and what `locate` makes of a
module's imports are the nodes a key leads to (`successors`).  `resolve_one` follows the search
(`resolveOne_agrees`), so it ends over finitely many files, and stops where the search does.
-/

namespace Quilon.Modules

open DepthFirst Relation

variable (world : World)

/-! ### The import graph -/

def located (base : String) (imported : Import) : Option (Key × String) :=
  match locate world false imported base with
  | .ok located => some (located.key, located.canonical)
  | .error _ => none

/-- Where a module's own imports are looked up. -/
def keyBase : Key → String
  | .builtin _ => ""
  | .file path => (world.parent path).getD ""

/-- What a module imports: the keys, under the names they are imported by. -/
def successors (key : Key) : List (Key × String) :=
  match world.module key with
  | .ok sub => sub.imports.filterMap (located world (keyBase world key))
  | .error _ => []

variable {world} {injecting : Bool} {imported : Import} {base : String} {found : Located}

/-- The name of a bundled module is its key's, and the stem of a file has no dot. -/
def Names : Key × String → Prop
  | (.builtin name, canonical) => canonical = name ∧ (CORELIB_MODULES.lookup name).isSome
  | (.file _, canonical) => '.' ∉ canonical.toList

theorem locate_dotted {parts : List String} (hpath : imported.path = .builtinDotted parts)
    (h : locate world injecting imported base = .ok found) :
    found = ⟨.builtin (dotted parts), dotted parts, base⟩ ∧
      (CORELIB_MODULES.lookup (dotted parts)).isSome := by
  rw [locate, hpath] at h
  dsimp only at h
  split at h
  · cases h
  · split at h
    · exact ⟨(Except.ok.inj h).symm, ‹_›⟩
    · cases h

theorem moduleBindingName_ok {path stem : String} {span : Span}
    (h : moduleBindingName world path span = .ok stem) : '.' ∉ stem.toList := by
  intro hdot
  rw [moduleBindingName] at h
  split at h
  case isFalse => cases h
  case isTrue hvalid =>
    obtain rfl := Except.ok.inj h
    have hchar := List.all_eq_true.mp hvalid.2.2 '.' hdot
    rw [world.dot_not_alphanumeric] at hchar
    simp at hchar

theorem locate_file {raw : String} (hpath : imported.path = .filePath raw)
    (h : locate world injecting imported base = .ok found) :
    ∃ path, found.key = .file path ∧ '.' ∉ found.canonical.toList ∧
      found.nextBase = keyBase world found.key := by
  rw [locate, hpath] at h
  obtain ⟨_, -, h⟩ := bind_ok h
  obtain ⟨stem, hstem, h⟩ := bind_ok h
  obtain ⟨_, -, h⟩ := bind_ok h
  obtain rfl := Except.ok.inj h
  refine ⟨_, rfl, moduleBindingName_ok hstem, ?_⟩
  obtain ⟨parent, hparent⟩ := Option.isSome_iff_exists.mp (world.parent_isSome _)
  show (world.parent (World.canonicalKey world _)).getD base =
    (world.parent (World.canonicalKey world _)).getD ""
  rw [World.canonicalKey, hparent]
  rfl

/-- An import leads to a key under a name that fits it. -/
theorem locate_names (h : locate world injecting imported base = .ok found) :
    Names (found.key, found.canonical) := by
  cases hpath : imported.path with
  | builtinDotted parts =>
    obtain ⟨rfl, hmem⟩ := locate_dotted hpath h
    exact ⟨rfl, hmem⟩
  | filePath raw =>
    obtain ⟨path, hkey, hdot, -⟩ := locate_file hpath h
    rw [hkey]
    exact hdot

theorem located_names {node : Key × String} (h : located world base imported = some node) :
    Names node := by
  rw [located] at h
  split at h
  case h_1 found hfound =>
    obtain rfl := Option.some.inj h
    exact locate_names hfound
  case h_2 => cases h

/-- A dotted name is the same module wherever it is imported. -/
theorem locate_dotted_base {parts : List String} (hpath : imported.path = .builtinDotted parts)
    (base base' : String) : located world base imported = located world base' imported := by
  rw [located, located, locate, locate, hpath]
  dsimp only
  split_ifs <;> rfl

/-- An import of a bundled module other than `core.text`. -/
def Import.IsPlain (imported : Import) : Prop :=
  ∃ parts, imported.path = .builtinDotted parts ∧ dotted parts ≠ "core.text"

theorem Import.IsPlain.locate_eq (h : imported.IsPlain) :
    locate world true imported base = locate world false imported base := by
  obtain ⟨parts, hpath, hne⟩ := h
  rw [locate, locate, hpath]
  dsimp only
  have hout : ∀ flag : Bool, ¬ (dotted parts = "core.text" ∧ flag = false) := fun _ h => hne h.1
  rw [if_neg (hout true), if_neg (hout false)]

theorem lookup_mem {α : Type} {table : List (String × α)} {name : String} {value : α}
    (h : table.lookup name = some value) : (name, value) ∈ table := by
  obtain ⟨before, after, hsplit, -⟩ := List.lookup_eq_some_iff.mp h
  rw [hsplit]
  exact List.mem_append_right _ List.mem_cons_self

theorem corelib_imports : ∀ entry ∈ CORELIB_MODULES, ∀ parts ∈ entry.2,
    dotted parts ≠ "core.text" ∧ (CORELIB_MODULES.lookup (dotted parts)).isSome := by
  decide

/-- Bundled modules import bundled modules. -/
theorem module_builtin {name : String} {sub : Parsed} (h : world.module (.builtin name) = .ok sub) :
    ∀ imported ∈ sub.imports, imported.IsPlain := by
  obtain rfl := Except.ok.inj h
  intro imported himported
  obtain ⟨parts, hparts, rfl⟩ := List.mem_map.mp himported
  refine ⟨parts, rfl, ?_⟩
  cases hlookup : CORELIB_MODULES.lookup name with
  | none =>
    rw [hlookup] at hparts
    cases hparts
  | some imports =>
    rw [hlookup] at hparts
    exact (corelib_imports _ (lookup_mem hlookup) parts hparts).1

/-- A module's own imports are its key's. -/
theorem successors_of_locate {sub : Parsed} (h : locate world injecting imported base = .ok found)
    (hsub : world.module found.key = .ok sub) :
    sub.imports.filterMap (located world found.nextBase) = successors world found.key := by
  have hsuccessors : successors world found.key =
      sub.imports.filterMap (located world (keyBase world found.key)) := by
    rw [successors, hsub]
  rw [hsuccessors]
  cases hpath : imported.path with
  | filePath raw =>
    obtain ⟨path, -, -, hbase⟩ := locate_file hpath h
    rw [hbase]
  | builtinDotted parts =>
    obtain ⟨rfl, -⟩ := locate_dotted hpath h
    refine List.filterMap_congr fun imported' himported' => ?_
    obtain ⟨parts', hpath', -⟩ := module_builtin hsub imported' himported'
    exact locate_dotted_base hpath' _ _

/-! ### The loader follows the search -/

structure Follows (loader : Loader) (search : Search Key String) : Prop where
  loaded : loader.loaded = search.loaded
  inProgress : loader.inProgress = search.active
  out : loader.out.map (fun block => (block.key, block.canonical)) = search.order

/-- A load that has not failed elsewhere ends as the search does. -/
def Agrees {α : Type} (search : Option (Except (Stop Key String) (Search Key String))) :
    Load (Loader × α) → Prop
  | none => search = none
  | some (.ok (loader, _)) => ∃ search', search = some (.ok search') ∧ Follows loader search'
  | some (.error (.importCycle _ _)) => ∃ node, search = some (.error (.cycle node))
  | some (.error (.nameCollision _ _)) => ∃ node, search = some (.error (.collision node))
  | some (.error (.other _)) => True

variable {loader loader' : Loader} {search : Search Key String} {fuel : Nat}

theorem Follows.enter (h : Follows loader search) (key : Key) (canonical : String) :
    Follows (loader.enter key canonical) (search.enter (key, canonical)) where
  loaded := congrArg ((canonical, key) :: ·) h.loaded
  inProgress := congrArg (key :: ·) h.inProgress
  out := h.out

theorem Follows.leave (h : Follows loader search) (names : List String) (block : Block) :
    Follows ((loader.export block.canonical names).leave block)
      (search.leave (block.key, block.canonical)) where
  loaded := h.loaded
  inProgress := congrArg (List.erase · block.key) h.inProgress
  out := by
    show (loader.out ++ [block]).map _ = search.order ++ [(block.key, block.canonical)]
    rw [List.map_append, h.out]
    rfl

section Failing

variable {α β : Type} {walk walk' : Option (Except (Stop Key String) (Search Key String))}

theorem agrees_orOther {result : Except QualifyError α} {next : α → Load (Loader × β)}
    (h : ∀ value, result = .ok value → Agrees walk (next value)) :
    Agrees walk (orOther result next) := by
  cases result with
  | ok value => exact h value rfl
  | error error => trivial

/-- A failure of the load is one of the search, or of something else. -/
theorem agrees_error {failure : Failure} (h : @Agrees α walk (some (.error failure)))
    (hwalk : ∀ stop, walk = some (.error stop) → walk' = some (.error stop)) :
    @Agrees β walk' (some (.error failure)) := by
  cases failure with
  | importCycle span chain =>
    obtain ⟨node, hnode⟩ := h
    exact ⟨node, hwalk _ hnode⟩
  | nameCollision span canonical =>
    obtain ⟨node, hnode⟩ := h
    exact ⟨node, hwalk _ hnode⟩
  | other error => trivial

end Failing

theorem resolveImports_agrees {resolve : Loader → Import → String → Load (Loader × String)}
    {walk : Search Key String → Key × String →
      Option (Except (Stop Key String) (Search Key String))}
    (hresolve : ∀ {loader search imported}, Follows loader search →
      match locate world false imported base with
      | .ok found =>
        Agrees (walk search (found.key, found.canonical)) (resolve loader imported base)
      | .error error => resolve loader imported base = some (.error (.other error)))
    {imports : List Import} {scope : ModuleScope} (h : Follows loader search) :
    Agrees (DepthFirst.visitAll walk (imports.filterMap (located world base)) search)
      (resolveImports resolve base imports (loader, scope)) := by
  induction imports generalizing loader search scope with
  | nil => exact ⟨search, rfl, h⟩
  | cons imported rest ih =>
    have hone := @hresolve _ _ imported h
    rw [resolveImports, List.filterMap_cons, located]
    cases hlocate : locate world false imported base with
    | error error =>
      rw [hlocate] at hone
      rw [hone]
      trivial
    | ok found =>
      rw [hlocate] at hone
      dsimp only at hone ⊢
      rw [DepthFirst.visitAll]
      cases hresult : resolve loader imported base with
      | none =>
        rw [hresult] at hone
        have hnone : walk search (found.key, found.canonical) = none := hone
        rw [hnone]
        rfl
      | some result =>
        rw [hresult] at hone
        cases result with
        | ok state =>
          obtain ⟨loader', canonical⟩ := state
          obtain ⟨search', hwalk, hfollows⟩ := hone
          rw [hwalk]
          exact agrees_orOther fun scope _ => ih hfollows
        | error failure =>
          refine agrees_error hone fun stop hstop => ?_
          rw [hstop]

/-- One module is resolved as the search visits its key, if its imports are. -/
theorem resolveOne_step (hlocate : locate world injecting imported base = .ok found)
    (hinside : ∀ {loader search sub}, world.module found.key = .ok sub → Follows loader search →
      Agrees
        (DepthFirst.visitAll (DepthFirst.visit (successors world) fuel)
          (successors world found.key) search)
        (resolveImports (resolveOne world injecting fuel) found.nextBase sub.imports
          (loader, .empty)))
    (h : Follows loader search) :
    Agrees (DepthFirst.visit (successors world) (fuel + 1) search (found.key, found.canonical))
      (resolveOne world injecting (fuel + 1) loader imported base) := by
  rw [resolveOne, hlocate]
  obtain ⟨key, canonical, nextBase⟩ := found
  simp only [orOther]
  rw [DepthFirst.visit, h.inProgress, h.loaded]
  by_cases hactive : key ∈ search.active
  · rw [if_pos hactive, if_pos hactive]
    exact ⟨_, rfl⟩
  · rw [if_neg hactive, if_neg hactive]
    cases hlookup : search.loaded.lookup canonical with
    | some existing =>
      dsimp only
      by_cases hkey : existing = key
      · rw [if_pos hkey, if_pos hkey]
        exact ⟨search, rfl, h⟩
      · rw [if_neg hkey, if_neg hkey]
        exact ⟨_, rfl⟩
    | none =>
      refine agrees_orOther fun sub hsub => ?_
      have hsub' : world.module key = .ok sub := by
        cases hmodule : world.module key with
        | ok sub' =>
          rw [hmodule] at hsub
          rw [Except.ok.inj hsub]
        | error error =>
          rw [hmodule] at hsub
          cases hsub
      have hall := hinside hsub' (h.enter key canonical)
      cases hresult : resolveImports (resolveOne world injecting fuel) nextBase sub.imports
          (loader.enter key canonical, .empty) with
      | none =>
        rw [hresult] at hall
        have hnone : DepthFirst.visitAll _ _ _ = none := hall
        rw [hnone]
        rfl
      | some result =>
        rw [hresult] at hall
        cases result with
        | ok state =>
          obtain ⟨loader', scope⟩ := state
          obtain ⟨search', hwalk, hfollows⟩ := hall
          rw [hwalk]
          exact agrees_orOther fun items _ => ⟨_, rfl, hfollows.leave _ ⟨key, canonical, _⟩⟩
        | error failure =>
          refine agrees_error hall fun stop hstop => ?_
          rw [hstop]

theorem resolveOne_agrees {imported : Import} (h : Follows loader search) :
    match locate world false imported base with
    | .ok found =>
      Agrees (DepthFirst.visit (successors world) fuel search (found.key, found.canonical))
        (resolveOne world false fuel loader imported base)
    | .error error =>
      resolveOne world false fuel loader imported base = some (.error (.other error)) := by
  induction fuel generalizing loader search imported base with
  | zero =>
    cases hlocate : locate world false imported base with
    | ok found =>
      rw [resolveOne, hlocate]
      rfl
    | error error =>
      rw [resolveOne, hlocate]
      rfl
  | succ fuel ih =>
    cases hlocate : locate world false imported base with
    | ok found =>
      refine resolveOne_step hlocate (fun hsub hfollows => ?_) h
      rw [← successors_of_locate hlocate hsub]
      exact resolveImports_agrees ih hfollows
    | error error =>
      rw [resolveOne, hlocate]
      rfl

/-- Below a bundled module nothing asks whether `core.text` is being injected. -/
theorem resolveImports_injecting {imports : List Import} {state : Loader × ModuleScope}
    {resolve resolve' : Loader → Import → String → Load (Loader × String)}
    (hresolve : ∀ loader imported, imported.IsPlain →
      resolve loader imported base = resolve' loader imported base)
    (hplain : ∀ imported ∈ imports, imported.IsPlain) :
    resolveImports resolve base imports state = resolveImports resolve' base imports state := by
  induction imports generalizing state with
  | nil => rfl
  | cons imported rest ih =>
    obtain ⟨loader, scope⟩ := state
    have hrest : ∀ imported ∈ rest, imported.IsPlain :=
      fun imported hmem => hplain imported (List.mem_cons_of_mem _ hmem)
    rw [resolveImports, resolveImports, hresolve _ _ (hplain imported List.mem_cons_self)]
    split
    · congr 1
      funext scope
      exact ih hrest
    · rfl
    · rfl

theorem resolveOne_injecting (h : imported.IsPlain) :
    resolveOne world true fuel loader imported base =
      resolveOne world false fuel loader imported base := by
  induction fuel generalizing loader imported base with
  | zero => rw [resolveOne, resolveOne, h.locate_eq]
  | succ fuel ih =>
    rw [resolveOne, resolveOne, h.locate_eq]
    cases hlocate : locate world false imported base with
    | error error => rfl
    | ok found =>
      obtain ⟨parts, hpath, -⟩ := h
      obtain ⟨rfl, -⟩ := locate_dotted hpath hlocate
      have hinside : ∀ {sub : Parsed} {state : Loader × ModuleScope},
          world.module (.builtin (dotted parts)) = .ok sub →
            resolveImports (resolveOne world true fuel) base sub.imports state =
              resolveImports (resolveOne world false fuel) base sub.imports state :=
        fun hsub => resolveImports_injecting (fun loader imported hplain => ih hplain)
          (module_builtin hsub)
      simp only [orOther]
      rw [World.module] at hinside ⊢
      simp only [Except.mapError, hinside rfl]

def coreText : Key × String := (.builtin "core.text", "core.text")

/-- The injection visits `core.text`. -/
theorem resolveOne_coreText (h : Follows loader search) :
    Agrees (DepthFirst.visit (successors world) fuel search coreText)
      (resolveOne world true fuel loader ⟨.builtinDotted ["core", "text"], ⟨0, 0, 0⟩⟩ base) := by
  have hlocate : locate world true ⟨.builtinDotted ["core", "text"], ⟨0, 0, 0⟩⟩ base =
      .ok ⟨.builtin "core.text", "core.text", base⟩ := rfl
  cases fuel with
  | zero =>
    rw [resolveOne, hlocate]
    rfl
  | succ fuel =>
    refine resolveOne_step hlocate (fun {loader search sub} hsub hfollows => ?_) h
    have hplain := module_builtin hsub
    rw [resolveImports_injecting (fun loader imported himported => resolveOne_injecting himported)
      hplain]
    rw [← successors_of_locate hlocate hsub]
    exact resolveImports_agrees resolveOne_agrees hfollows

/-! ### The bundled modules -/

/-- How far a bundled module is from one that imports nothing. -/
def rank (name : String) : Nat :=
  if name = "core.io" then 0
  else if name = "core.test" then 1
  else if name = "core.http" then 3
  else 2

theorem corelib_ranked : ∀ entry ∈ CORELIB_MODULES, ∀ parts ∈ entry.2,
    rank (dotted parts) < rank entry.1 := by
  decide

theorem corelib_dotted : ∀ entry ∈ CORELIB_MODULES, '.' ∈ entry.1.toList := by
  decide

theorem dot_mem_of_lookup {name : String} (h : (CORELIB_MODULES.lookup name).isSome) :
    '.' ∈ name.toList := by
  obtain ⟨entry, hentry, rfl⟩ := List.mem_map.mp (lookup_isSome_iff_mem_fst.mp h)
  exact corelib_dotted entry hentry

/-- A bundled module leads to bundled modules, and downwards. -/
theorem edge_builtin {name : String} {key : Key}
    (h : Edge (successors world) (.builtin name) key) :
    ∃ below, key = .builtin below ∧ rank below < rank name := by
  obtain ⟨canonical, hmem⟩ := h
  rw [successors, World.module] at hmem
  obtain ⟨imported, himported, hlocated⟩ := List.mem_filterMap.mp hmem
  obtain ⟨parts, hparts, rfl⟩ := List.mem_map.mp himported
  rw [located] at hlocated
  split at hlocated
  case h_2 => cases hlocated
  case h_1 found hfound =>
    obtain ⟨rfl, -⟩ := locate_dotted rfl hfound
    obtain ⟨rfl, -⟩ := Prod.mk.inj (Option.some.inj hlocated)
    refine ⟨dotted parts, rfl, ?_⟩
    cases hlookup : CORELIB_MODULES.lookup name with
    | none =>
      rw [hlookup] at hparts
      cases hparts
    | some imports =>
      rw [hlookup] at hparts
      exact corelib_ranked _ (lookup_mem hlookup) parts hparts

theorem reach_builtin {name : String} {key : Key}
    (h : TransGen (Edge (successors world)) (.builtin name) key) :
    ∃ below, key = .builtin below ∧ rank below < rank name := by
  induction h with
  | single hedge => exact edge_builtin hedge
  | tail _ hedge ih =>
    obtain ⟨middle, rfl, hmiddle⟩ := ih
    obtain ⟨below, rfl, hbelow⟩ := edge_builtin hedge
    exact ⟨below, rfl, hbelow.trans hmiddle⟩

theorem successors_names {key : Key} {node : Key × String} (h : node ∈ successors world key) :
    Names node := by
  rw [successors] at h
  split at h
  case h_1 sub hsub =>
    obtain ⟨imported, -, hlocated⟩ := List.mem_filterMap.mp h
    exact located_names hlocated
  case h_2 => cases h

/-- A bundled module shares its name with no other. -/
theorem names_builtin {name canonical : String} {key : Key} (h : Names (.builtin name, canonical))
    (hkey : Names (key, canonical)) : key = .builtin name := by
  obtain ⟨rfl, hmem⟩ := h
  cases key with
  | builtin name' => rw [hkey.1]
  | file path => exact absurd (dot_mem_of_lookup hmem) hkey

/-! ### What is reached -/

section Linking

variable (world) (program : Parsed) (base : String) (root : Option String)

/-- What the root imports. -/
def rootImports : List (Key × String) := program.imports.filterMap (located world base)

/-- The root file's own key. -/
def rootKeys : List Key := (root.map fun path => .file (world.canonicalKey path)).toList

def Reached (key : Key) : Prop :=
  ∃ node ∈ rootImports world program base, ReflTransGen (Edge (successors world)) node.1 key

/-- The key is imported under the name, by the root or by what it reaches. -/
def ImportedAs (node : Key × String) : Prop :=
  node ∈ rootImports world program base ∨
    ∃ key, Reached world program base key ∧ node ∈ successors world key

/-- A cycle is reached, one through the root file included. -/
def ReachesCycle : Prop :=
  ∃ key, Reached world program base key ∧
    (key ∈ rootKeys world root ∨ TransGen (Edge (successors world)) key key)

/-- What is met on the way through all imports, each followed to the end. -/
def met (fuel : Nat) : List (Event Key String) :=
  (rootImports world program base).flatMap (unfold (successors world) fuel (rootKeys world root))

/-- The imports reach these files only. -/
structure ImportsWithin (files : List String) : Prop where
  root : ∀ path name, (.file path, name) ∈ rootImports world program base → path ∈ files
  closed : ∀ path ∈ files, ∀ path' name,
    (.file path', name) ∈ successors world (.file path) → path' ∈ files

/-- The search over the root's imports. -/
def rootSearch (fuel : Nat) : Option (Except (Stop Key String) (Search Key String)) :=
  DepthFirst.visitAll (DepthFirst.visit (successors world) fuel) (rootImports world program base)
    (.start (rootKeys world root))

/-- What holds of the search when the root's imports are resolved, and after the injection. -/
structure Resolved (search : Search Key String) : Prop where
  sound : Sound (successors world) (rootKeys world root) search
  active : search.active = rootKeys world root
  names : ∀ name key, search.loaded.lookup name = some key →
    Names (key, name) ∧ (ImportedAs world program base (key, name) ∨ ∃ name, key = .builtin name)
  listed : ∀ node, ImportedAs world program base node → node ∈ search.order
  acyclic : ¬ ReachesCycle world program base root

variable {world program base root} {search' : Search Key String}

theorem importedAs_names {node : Key × String} (h : ImportedAs world program base node) :
    Names node := by
  rcases h with hroot | ⟨key, -, hmem⟩
  · obtain ⟨imported, -, hlocated⟩ := List.mem_filterMap.mp hroot
    exact located_names hlocated
  · exact successors_names hmem

theorem importedAs_of_met {node : Key × String}
    (h : .meets node ∈ met world program base root fuel) : ImportedAs world program base node := by
  obtain ⟨start, hstart, h⟩ := List.mem_flatMap.mp h
  rcases mem_unfold h with rfl | ⟨key, hreach, hnode⟩
  · exact .inl hstart
  · exact .inr ⟨key, ⟨start, hstart, hreach⟩, hnode⟩

/-- What is reached is imported under some name. -/
theorem exists_importedAs {key : Key} (h : Reached world program base key) :
    ∃ name, ImportedAs world program base (key, name) := by
  obtain ⟨node, hnode, hreach⟩ := h
  rcases hreach.cases_tail with rfl | ⟨key', hreach', name, hname⟩
  · exact ⟨node.2, .inl hnode⟩
  · exact ⟨name, .inr ⟨key', ⟨node, hnode, hreach'⟩, hname⟩⟩

theorem rootSearch_events {result : Except (Stop Key String) (Search Key String)}
    (h : rootSearch world program base root fuel = some result) :
    Explains (met world program base root fuel) [] result :=
  visitAll_events (fun hsearch habove hvisit => visit_events hsearch habove hvisit) Sound.start
    (fun _ _ _ hkey => .inl hkey) h

theorem rootSearch_ok (h : rootSearch world program base root fuel = some (.ok search)) :
    Resolved world program base root search := by
  have hreads : Reads _ [] search.loaded := rootSearch_events h
  obtain ⟨hsound, hextends, hroots⟩ :=
    visitAll_ok (fun hsearch hvisit => visit_ok hsearch hvisit) Sound.start h
  have hactive : search.active = rootKeys world root := hextends.active
  -- below what the root imports all is entered, and no cycle
  have hsettled : ∀ key, Reached world program base key →
      Settled (successors world) (rootKeys world root) search.loaded key := by
    rintro key ⟨node, hnode, hreach⟩
    obtain ⟨hlookup, hout⟩ := hroots node hnode
    have hsettled := hsound.settled _ _ hlookup (by rw [hactive]; exact hout)
    exact hsettled.of_reach hreach
  refine ⟨hsound, hactive, fun name key hlookup => ?_, fun node hnode => ?_, ?_⟩
  · have himported := importedAs_of_met
      ((hreads.new name key hlookup).resolve_left fun hnil => by cases hnil)
    exact ⟨importedAs_names himported, .inl himported⟩
  · rcases hnode with hroot | ⟨key, hreached, hmem⟩
    · obtain ⟨hlookup, hout⟩ := hroots node hroot
      exact hsound.ordered _ _ hlookup (by rw [hactive]; exact hout)
    · obtain ⟨-, -, hnames⟩ := hsettled key hreached key .refl
      have hedge : Edge (successors world) key node.1 := ⟨node.2, hmem⟩
      obtain ⟨havoid, -, -⟩ := hsettled key hreached node.1 (.single hedge)
      exact hsound.ordered _ _ (hnames node hmem) (by rw [hactive]; exact havoid)
  · rintro ⟨key, hreached, hcycle⟩
    obtain ⟨havoid, hacyclic, -⟩ := hsettled key hreached key .refl
    exact hcycle.elim havoid hacyclic

theorem rootSearch_cycle {node : Key × String}
    (h : rootSearch world program base root fuel = some (.error (.cycle node))) :
    ReachesCycle world program base root := by
  obtain ⟨before, start, after, search', hnodes, hbefore, hstart⟩ :=
    visitAll_stops (fun _ hok => by cases hok) h
  have hactive := visitAll_active (fun hv => visit_active hv) hbefore
  have habove : Above (successors world) (rootKeys world root) search'.active start.1 := by
    rw [hactive]
    exact fun key hkey => .inl hkey
  obtain ⟨key, hreach, hkey⟩ := visit_cycle habove hstart
  have hmem : start ∈ rootImports world program base := by
    rw [hnodes]
    exact List.mem_append_right _ List.mem_cons_self
  exact ⟨key, ⟨start, hmem, hreach⟩, hkey⟩

/-! ### The injection -/

/-- What the injection meets are bundled modules under their names. -/
theorem names_of_unfold {above : List Key} {node : Key × String}
    (h : .meets node ∈ unfold (successors world) fuel above coreText) :
    Names node ∧ ∃ name, node.1 = .builtin name := by
  rcases mem_unfold h with rfl | ⟨key, hreach, hnode⟩
  · exact ⟨⟨rfl, rfl⟩, _, rfl⟩
  · have hedge : Edge (successors world) key node.1 := ⟨node.2, hnode⟩
    obtain ⟨below, hbelow, -⟩ := reach_builtin (TransGen.tail' hreach hedge)
    exact ⟨successors_names hnode, below, hbelow⟩

theorem Resolved.above (h : Resolved world program base root search) (key : Key) :
    Above (successors world) (rootKeys world root) search.active key := by
  rw [h.active]
  exact fun key hkey => .inl hkey

theorem mem_rootKeys {key : Key} (h : key ∈ rootKeys world root) : ∃ path, key = .file path := by
  rw [rootKeys, Option.mem_toList, Option.map_eq_some_iff] at h
  obtain ⟨path, -, rfl⟩ := h
  exact ⟨_, rfl⟩

/-- The injection stops at no guard. -/
theorem Resolved.inject_not_error (h : Resolved world program base root search)
    {stop : Stop Key String} :
    DepthFirst.visit (successors world) fuel search coreText ≠ some (.error stop) := by
  intro hvisit
  cases stop with
  | cycle node =>
    obtain ⟨key, hreach, hkey⟩ := visit_cycle (h.above _) hvisit
    have hbuiltin : ∃ name, key = .builtin name := by
      rcases Relation.reflTransGen_iff_eq_or_transGen.mp hreach with rfl | hreach
      · exact ⟨_, rfl⟩
      · obtain ⟨below, rfl, -⟩ := reach_builtin hreach
        exact ⟨below, rfl⟩
    obtain ⟨name, rfl⟩ := hbuiltin
    rcases hkey with hroot | hcycle
    · obtain ⟨path, hpath⟩ := mem_rootKeys hroot
      cases hpath
    · obtain ⟨below, hbelow, hlt⟩ := reach_builtin hcycle
      rw [Key.builtin.inj hbelow] at hlt
      exact Nat.lt_irrefl _ hlt
  | collision node =>
    obtain ⟨before, after, loaded', key, hevents, hreads, hlookup, hne⟩ :=
      visit_events h.sound (h.above _) hvisit
    have hnode : .meets node ∈ unfold (successors world) fuel search.active coreText := by
      rw [hevents]
      exact List.mem_append_right _ List.mem_cons_self
    obtain ⟨hnames, name, hbuiltin⟩ := names_of_unfold hnode
    obtain ⟨key', canonical⟩ := node
    obtain rfl : key' = .builtin name := hbuiltin
    have hother : Names (key, canonical) := by
      rcases hreads.new _ _ hlookup with hold | hmem
      · exact (h.names _ _ hold).1
      · have hmet : .meets (key, canonical) ∈
            unfold (successors world) fuel search.active coreText := by
          rw [hevents]
          exact List.mem_append_left _ hmem
        exact (names_of_unfold hmet).1
    exact hne (names_builtin hnames hother)

theorem Resolved.inject (h : Resolved world program base root search)
    (hvisit : DepthFirst.visit (successors world) fuel search coreText = some (.ok search')) :
    Resolved world program base root search' ∧ coreText ∈ search'.order := by
  obtain ⟨hsound, hextends, hlookup, hout⟩ := visit_ok h.sound hvisit
  have hactive : search'.active = rootKeys world root := hextends.active.trans h.active
  obtain ⟨new, horder, -, -⟩ := hextends.order
  have hreads : Reads _ search.loaded search'.loaded := visit_events h.sound (h.above _) hvisit
  refine ⟨⟨hsound, hactive, fun name key hkey => ?_, fun node hnode => ?_, h.acyclic⟩, ?_⟩
  · rcases hreads.new name key hkey with hold | hmet
    · exact h.names name key hold
    · obtain ⟨hnames, hbuiltin⟩ := names_of_unfold hmet
      exact ⟨hnames, .inr hbuiltin⟩
  · rw [horder]
    exact List.mem_append_left _ (h.listed node hnode)
  · refine hsound.ordered _ _ hlookup ?_
    rw [hextends.active]
    exact hout

/-! ### The fuel -/

/-- The keys the search can be at. -/
def keys (world : World) (root : Option String) (files : List String) : List Key :=
  rootKeys world root ++ files.map .file ++ CORELIB_MODULES.map fun entry => .builtin entry.1

theorem mem_keys_of_names {files : List String} {node : Key × String} (h : Names node)
    (hfile : ∀ path, node.1 = .file path → path ∈ files) : node.1 ∈ keys world root files := by
  obtain ⟨key, canonical⟩ := node
  cases key with
  | builtin name =>
    obtain ⟨entry, hentry, rfl⟩ := List.mem_map.mp (lookup_isSome_iff_mem_fst.mp h.2)
    exact List.mem_append_right _ (List.mem_map.mpr ⟨entry, hentry, rfl⟩)
  | file path =>
    exact List.mem_append_left _ (List.mem_append_right _
      (List.mem_map.mpr ⟨path, hfile path rfl, rfl⟩))

theorem keys_closed {files : List String} (h : ImportsWithin world program base files) :
    ∀ key ∈ keys world root files, key ∉ rootKeys world root →
      ∀ child ∈ successors world key, child.1 ∈ keys world root files := by
  intro key hkey hroot child hchild
  refine mem_keys_of_names (successors_names hchild) fun path hpath => ?_
  rcases List.mem_append.mp hkey with hkey | hkey
  · obtain ⟨file, hfile, rfl⟩ := List.mem_map.mp ((List.mem_append.mp hkey).resolve_left hroot)
    refine h.closed file hfile path child.2 ?_
    rw [← hpath]
    exact hchild
  · obtain ⟨entry, -, rfl⟩ := List.mem_map.mp hkey
    obtain ⟨below, hbelow, -⟩ := edge_builtin ⟨child.2, hchild⟩
    rw [hpath] at hbelow
    cases hbelow

theorem rootKeys_nodup : (rootKeys world root).Nodup := by
  rw [rootKeys]
  cases root with
  | none => exact List.nodup_nil
  | some path => exact List.nodup_singleton _

theorem visit_keys_ne_none {files : List String} {node : Key × String}
    (h : ImportsWithin world program base files)
    (hfuel : files.length + CORELIB_MODULES.length < fuel)
    (hactive : search.active = rootKeys world root) (hnode : node.1 ∈ keys world root files) :
    DepthFirst.visit (successors world) fuel search node ≠ none := by
  refine visit_ne_none ?_ hnode ?_ ?_ ?_
  · rw [hactive]
    exact keys_closed h
  · rw [hactive]
    exact fun key hkey => List.mem_append_left _ (List.mem_append_left _ hkey)
  · rw [hactive]
    exact rootKeys_nodup
  · rw [hactive, keys, List.length_append, List.length_append, List.length_map, List.length_map]
    omega

theorem rootSearch_ne_none {files : List String} (h : ImportsWithin world program base files)
    (hfuel : files.length + CORELIB_MODULES.length < fuel) :
    rootSearch world program base root fuel ≠ none := by
  intro hnone
  obtain ⟨before, node, after, search', hnodes, hbefore, hnode⟩ :=
    visitAll_stops (fun _ hok => by cases hok) hnone
  have hactive := visitAll_active (fun hv => visit_active hv) hbefore
  have hmem : node ∈ rootImports world program base := by
    rw [hnodes]
    exact List.mem_append_right _ List.mem_cons_self
  refine visit_keys_ne_none h hfuel hactive (mem_keys_of_names ?_ fun path hpath => ?_) hnode
  · exact importedAs_names (.inl hmem)
  · refine h.root path node.2 ?_
    rw [← hpath]
    exact hmem

/-- What is met does not depend on the fuel, if there is enough. -/
theorem met_fuel {files : List String} (h : ImportsWithin world program base files)
    (hfuel : files.length + CORELIB_MODULES.length < fuel) :
    met world program base root (fuel + 1) = met world program base root fuel := by
  refine List.flatMap_congr fun node hnode => unfold_fuel (keys_closed h) ?_ ?_ rootKeys_nodup ?_
  · refine mem_keys_of_names (importedAs_names (.inl hnode)) fun path hpath => ?_
    refine h.root path node.2 ?_
    rw [← hpath]
    exact hnode
  · exact fun key hkey => List.mem_append_left _ (List.mem_append_left _ hkey)
  · rw [keys, List.length_append, List.length_append, List.length_map, List.length_map]
    omega

/-! ### More fuel -/

theorem resolveImports_fuel {imports : List Import} {state : Loader × ModuleScope}
    {resolve resolve' : Loader → Import → String → Load (Loader × String)}
    (hresolve : ∀ loader imported,
      resolve loader imported base = none ∨
        resolve loader imported base = resolve' loader imported base) :
    resolveImports resolve base imports state = none ∨
      resolveImports resolve base imports state = resolveImports resolve' base imports state := by
  induction imports generalizing state with
  | nil => exact .inr rfl
  | cons imported rest ih =>
    obtain ⟨loader, scope⟩ := state
    rw [resolveImports, resolveImports]
    rcases hresolve loader imported with hnone | hsame
    · rw [hnone]
      exact .inl rfl
    · rw [← hsame]
      split
      case h_1 loader' canonical hok =>
        cases hbind : loader'.bind scope canonical imported with
        | error error => exact .inr rfl
        | ok scope' => exact ih
      case h_2 => exact .inr rfl
      case h_3 => exact .inl rfl

theorem resolveOne_fuel :
    resolveOne world injecting fuel loader imported base = none ∨
      resolveOne world injecting fuel loader imported base =
        resolveOne world injecting (fuel + 1) loader imported base := by
  induction fuel generalizing loader imported base with
  | zero =>
    rw [resolveOne, resolveOne]
    cases locate world injecting imported base with
    | error error => exact .inr rfl
    | ok found => exact .inl rfl
  | succ fuel ih =>
    rw [resolveOne, resolveOne]
    cases locate world injecting imported base with
    | error error => exact .inr rfl
    | ok found =>
      obtain ⟨key, canonical, nextBase⟩ := found
      simp only [orOther]
      split
      · exact .inr rfl
      · split
        · exact .inr rfl
        · split
          · rename_i sub hsub
            have hinside : ∀ state,
                resolveImports (resolveOne world injecting fuel) nextBase sub.imports state = none ∨
                  resolveImports (resolveOne world injecting fuel) nextBase sub.imports state =
                    resolveImports (resolveOne world injecting (fuel + 1)) nextBase sub.imports
                      state := fun state => resolveImports_fuel fun loader imported => ih
            rcases hinside (loader.enter key canonical, .empty) with hnone | hsame
            · rw [hnone]
              exact .inl rfl
            · rw [← hsame]
              exact .inr rfl
          · exact .inr rfl

theorem injectCoreText_fuel :
    injectCoreText world fuel loader program base = none ∨
      injectCoreText world fuel loader program base =
        injectCoreText world (fuel + 1) loader program base := by
  rw [injectCoreText, injectCoreText]
  split
  · have hone : resolveOne world true fuel loader
        ⟨.builtinDotted ["core", "text"], ⟨0, 0, 0⟩⟩ base = none ∨ _ := resolveOne_fuel
    rcases hone with hnone | hsame
    · rw [hnone]
      exact .inl rfl
    · rw [← hsame]
      exact .inr rfl
  · exact .inr rfl

/-- A link that has ended ends the same with more fuel. -/
theorem link_fuel {result : Except Failure Linked}
    (h : link world fuel program base root = some result) :
    link world (fuel + 1) program base root = some result := by
  rw [← h]
  have himports : ∀ state, resolveImports (resolveOne world false fuel) base program.imports state =
      none ∨ resolveImports (resolveOne world false fuel) base program.imports state =
        resolveImports (resolveOne world false (fuel + 1)) base program.imports state :=
    fun state => resolveImports_fuel fun loader imported => resolveOne_fuel
  rw [link] at h
  rw [link, link]
  rcases himports (rootLoader world root, .empty) with hnone | hsame
  · rw [hnone] at h
    cases h
  · rw [← hsame]
    split at h
    case h_1 loader scope hroot =>
      cases hresolve : resolveProgram world program scope with
      | error error => rfl
      | ok resolved =>
        rw [hresolve, orOther] at h
        rw [orOther, orOther]
        have hinject : injectCoreText world fuel loader resolved base = none ∨ _ :=
          injectCoreText_fuel
        rcases hinject with hnone | hsame
        · rw [hnone] at h
          cases h
        · rw [hsame]
    case h_2 failure hroot => rfl
    case h_3 => cases h

end Linking

end Quilon.Modules
