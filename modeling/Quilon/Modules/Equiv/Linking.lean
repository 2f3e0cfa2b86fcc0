import Quilon.Modules.Equiv.Search

/-!
# Linking

What `link` gives (`link_cases`), and what it merges.  Where every module is imported under one
name, each is merged once (`link_once_iff`).  A file reached under the stems of two paths is merged
under both, though its resolution key is one (`symlink_merged_twice`).
-/

namespace Quilon.Modules

open DepthFirst Relation

section Linking

variable {world : World} {program : Parsed} {base : String} {root : Option String}
  {injecting : Bool} {imported : Import} {loader loader' : Loader}
  {search search' : Search Key String} {fuel : Nat}

/-! ### What is merged -/

/-- The block holds its module's items, each in its place and qualified. -/
def Block.IsModule (world : World) (block : Block) : Prop :=
  ∃ sub scope items fromCorelib, world.module block.key = .ok sub ∧
    qualifyModule world sub.items block.canonical scope = .ok items ∧
    block.items = items.map (markOrigin fromCorelib)

theorem resolveImports_out {imports : List Import} {state state' : Loader × ModuleScope}
    {resolve : Loader → Import → String → Load (Loader × String)}
    (hresolve : ∀ {loader loader' imported canonical},
      resolve loader imported base = some (.ok (loader', canonical)) →
        (∀ block ∈ loader.out, block.IsModule world) → ∀ block ∈ loader'.out, block.IsModule world)
    (h : resolveImports resolve base imports state = some (.ok state'))
    (hout : ∀ block ∈ state.1.out, block.IsModule world) :
    ∀ block ∈ state'.1.out, block.IsModule world := by
  induction imports generalizing state with
  | nil =>
    obtain rfl := Except.ok.inj (Option.some.inj h)
    exact hout
  | cons imported rest ih =>
    obtain ⟨loader, scope⟩ := state
    rw [resolveImports] at h
    split at h
    case h_1 loader' canonical hok =>
      cases hbind : loader'.bind scope canonical imported with
      | error error =>
        rw [hbind] at h
        cases h
      | ok scope' =>
        rw [hbind] at h
        exact ih h (hresolve hok hout)
    case h_2 => cases h
    case h_3 => cases h

theorem resolveOne_out {canonical : String}
    (h : resolveOne world injecting fuel loader imported base = some (.ok (loader', canonical)))
    (hout : ∀ block ∈ loader.out, block.IsModule world) :
    ∀ block ∈ loader'.out, block.IsModule world := by
  induction fuel generalizing loader loader' imported base canonical with
  | zero =>
    rw [resolveOne] at h
    cases hlocate : locate world injecting imported base with
    | error error =>
      rw [hlocate] at h
      cases h
    | ok found =>
      rw [hlocate] at h
      cases h
  | succ fuel ih =>
    rw [resolveOne] at h
    cases hlocate : locate world injecting imported base with
    | error error =>
      rw [hlocate] at h
      cases h
    | ok found =>
      obtain ⟨key, name, nextBase⟩ := found
      rw [hlocate, orOther] at h
      dsimp only at h
      split at h
      · cases h
      · split at h
        · split at h
          · obtain ⟨rfl, -⟩ := Prod.mk.inj (Except.ok.inj (Option.some.inj h))
            exact hout
          · cases h
        · cases hmodule : world.module key with
          | error error =>
            rw [hmodule] at h
            cases h
          | ok sub =>
            rw [hmodule] at h
            simp only [Except.mapError, orOther] at h
            split at h
            case h_2 => cases h
            case h_3 => cases h
            case h_1 inside scope hinside =>
              have hinsideOut := resolveImports_out (fun hok hout => ih hok hout) hinside hout
              cases hqualify : qualifyModule world sub.items name scope with
              | error error =>
                rw [hqualify] at h
                cases h
              | ok items =>
                rw [hqualify] at h
                obtain ⟨rfl, -⟩ := Prod.mk.inj (Except.ok.inj (Option.some.inj h))
                intro block hblock
                rcases List.mem_append.mp hblock with hblock | hblock
                · exact hinsideOut block hblock
                · rw [List.mem_singleton.mp hblock]
                  exact ⟨sub, scope, items, _, hmodule, hqualify, rfl⟩

/-! ### Linking -/

/-- The expression is part of the linked program's code. -/
def Linked.Contains (linked : Linked) (e : Expression) : Prop :=
  (∃ item ∈ linked.items, ∃ body ∈ item.bodies, Within body e) ∨
    ∃ block ∈ linked.program.testBlocks, Within block e

/-- `check_call`, where the receiver's type is `Text`: the composable method a member call is. -/
def composableCallee (typeOf : Expression → Option Ty) : Expression → Option String
  | .call (.identifier name _) (receiver :: _) true _ =>
    match typeOf receiver with
    | some .text => qnTextImpl name
    | _ => none
  | _ => none

theorem isComposableCall_of_callee {typeOf : Expression → Option Ty} {e : Expression}
    {implementation : String} (h : composableCallee typeOf e = some implementation) :
    isComposableCall e = true := by
  rw [composableCallee.eq_def] at h
  split at h
  case h_1 name span receiver rest callSpan =>
    split at h
    · rw [isComposableCall, h]
      rfl
    · cases h
  case h_2 => cases h

theorem usesTextComposable_of_contains {resolved : Parsed} {e : Expression}
    (h : (⟨loader.out, { resolved with imports := [] }⟩ : Linked).Contains e)
    (he : isComposableCall e = true) : usesTextComposable loader resolved = true := by
  have hmentions : ∀ {root}, Within root e → mentionsTextComposable root = true :=
    fun hwithin => Expression.walkBreaks_iff.mpr ⟨e, hwithin, he⟩
  rw [usesTextComposable, Bool.or_eq_true, Bool.or_eq_true]
  rcases h with ⟨item, hitem, body, hbody, hwithin⟩ | ⟨block, hblock, hwithin⟩
  · have huses : ∀ {items : List Item}, item ∈ items → usesTextComposableItems items = true :=
      fun hmem => List.any_eq_true.mpr ⟨item, hmem,
        List.any_eq_true.mpr ⟨body, hbody, hmentions hwithin⟩⟩
    rcases List.mem_append.mp hitem with hitem | hitem
    · exact .inr (huses hitem)
    · exact .inl (.inl (huses hitem))
  · exact .inl (.inr (List.any_eq_true.mpr ⟨block, hblock, hmentions hwithin⟩))

variable (world program base) in
/-- A linked program holds every module reached once, behind what it imports and before the root's
own items, and `core.text` where a composable method is called. -/
structure Merges (linked : Linked) : Prop where
  once : ∀ key, Reached world program base key → (linked.out.map Block.key).count key = 1
  whole : ∀ block ∈ linked.out, block.IsModule world
  sorted : ∀ before block after, linked.out = before ++ block :: after →
    ∀ child ∈ successors world block.key, ∃ earlier ∈ before,
      earlier.key = child.1 ∧ earlier.canonical = child.2
  own : ∃ scope resolved, resolveProgram world program scope = .ok resolved ∧
    linked.items = linked.out.flatMap Block.items ++ resolved.items
  composable : ∀ typeOf e implementation, linked.Contains e →
    composableCallee typeOf e = some implementation →
      Key.builtin "core.text" ∈ linked.out.map Block.key

variable (world program base root) in
/-- A link that does not fail otherwise fails with a cycle where one is reached, and with a
collision where two keys are met under one name before it. -/
structure LinksOnce (fuel : Nat) (result : Except Failure Linked) : Prop where
  cycle : (∀ span canonical, result ≠ .error (.nameCollision span canonical)) →
    ((∃ span chain, result = .error (.importCycle span chain)) ↔
      ReachesCycle world program base root)
  collision : (∃ span canonical, result = .error (.nameCollision span canonical)) ↔
    Collides (met world program base root fuel)
  merges : ∀ linked, result = .ok linked → Merges world program base linked

variable (world program base) in
/-- No module is imported under two names. -/
def OneName : Prop :=
  ∀ key name name', ImportedAs world program base (key, name) →
    ImportedAs world program base (key, name') → name = name'

variable (world program base root) in
/-- The search has entered what is linked. -/
structure Gathers (linked : Linked) (search : Search Key String) : Prop where
  resolved : Resolved world program base root search
  out : linked.out.map (fun block => (block.key, block.canonical)) = search.order
  whole : ∀ block ∈ linked.out, block.IsModule world
  own : ∃ scope resolved, resolveProgram world program scope = .ok resolved ∧
    linked.items = linked.out.flatMap Block.items ++ resolved.items
  composable : ∀ e, linked.Contains e → isComposableCall e = true → coreText ∈ search.order

theorem follows_start : Follows (rootLoader world root) (.start (rootKeys world root)) := by
  cases root with
  | none => exact ⟨rfl, rfl, rfl⟩
  | some path => exact ⟨rfl, rfl, rfl⟩

theorem rootLoader_out : (rootLoader world root).out = [] := by
  cases root <;> rfl

/-- What the injection gives, from where the root's imports are resolved. -/
theorem injectCoreText_cases {files : List String} {resolved : Parsed} {scope : ModuleScope}
    (hwithin : ImportsWithin world program base files)
    (hfuel : files.length + CORELIB_MODULES.length < fuel)
    (h : Resolved world program base root search) (hfollows : Follows loader search)
    (hout : ∀ block ∈ loader.out, block.IsModule world)
    (hresolve : resolveProgram world program scope = .ok resolved) :
    (∃ error, injectCoreText world fuel loader resolved base = some (.error (.other error))) ∨
      ∃ loader' search', injectCoreText world fuel loader resolved base = some (.ok loader') ∧
        Gathers world program base root ⟨loader'.out, { resolved with imports := [] }⟩ search' := by
  by_cases huses : usesTextComposable loader resolved = true
  · rw [injectCoreText, if_pos huses]
    have hagrees : Agrees (DepthFirst.visit (successors world) fuel search coreText)
        (resolveOne world true fuel loader ⟨.builtinDotted ["core", "text"], ⟨0, 0, 0⟩⟩ base) :=
      resolveOne_coreText hfollows
    cases hresult : resolveOne world true fuel loader
        ⟨.builtinDotted ["core", "text"], ⟨0, 0, 0⟩⟩ base with
    | none =>
      rw [hresult] at hagrees
      refine absurd hagrees (visit_keys_ne_none hwithin hfuel h.active ?_)
      exact mem_keys_of_names ⟨rfl, rfl⟩ fun path hpath => by cases hpath
    | some result =>
      rw [hresult] at hagrees
      cases result with
      | ok state =>
        obtain ⟨loader', canonical⟩ := state
        obtain ⟨search', hvisit, hfollows'⟩ := hagrees
        obtain ⟨hresolved, hmem⟩ := h.inject hvisit
        exact .inr ⟨loader', search', rfl, hresolved, hfollows'.out, resolveOne_out hresult hout,
          ⟨scope, resolved, hresolve, rfl⟩, fun _ _ _ => hmem⟩
      | error failure =>
        cases failure with
        | importCycle span chain =>
          obtain ⟨node, hvisit⟩ := hagrees
          exact absurd hvisit h.inject_not_error
        | nameCollision span canonical =>
          obtain ⟨node, hvisit⟩ := hagrees
          exact absurd hvisit h.inject_not_error
        | other error => exact .inl ⟨error, rfl⟩
  · rw [injectCoreText, if_neg huses]
    exact .inr ⟨loader, search, rfl, h, hfollows.out, hout, ⟨scope, resolved, hresolve, rfl⟩,
      fun e hcontains he => absurd (usesTextComposable_of_contains hcontains he) huses⟩

/-- How a link ends: with what stops the search, with something else, or with what the search has
entered. -/
theorem link_cases {files : List String} (hwithin : ImportsWithin world program base files)
    (hfuel : files.length + CORELIB_MODULES.length < fuel) :
    (∃ node span chain, rootSearch world program base root fuel = some (.error (.cycle node)) ∧
      link world fuel program base root = some (.error (.importCycle span chain))) ∨
    (∃ node span canonical,
      rootSearch world program base root fuel = some (.error (.collision node)) ∧
      link world fuel program base root = some (.error (.nameCollision span canonical))) ∨
    (∃ error, link world fuel program base root = some (.error (.other error))) ∨
    (∃ search linked search', rootSearch world program base root fuel = some (.ok search) ∧
      link world fuel program base root = some (.ok linked) ∧
      Gathers world program base root linked search') := by
  have hagrees : Agrees (rootSearch world program base root fuel)
      (resolveImports (resolveOne world false fuel) base program.imports
        (rootLoader world root, .empty)) := resolveImports_agrees resolveOne_agrees follows_start
  rw [link]
  cases hroot : resolveImports (resolveOne world false fuel) base program.imports
      (rootLoader world root, .empty) with
  | none =>
    rw [hroot] at hagrees
    exact absurd hagrees (rootSearch_ne_none hwithin hfuel)
  | some result =>
    rw [hroot] at hagrees
    cases result with
    | error failure =>
      cases failure with
      | importCycle span chain =>
        obtain ⟨node, hnode⟩ := hagrees
        exact .inl ⟨node, span, chain, hnode, rfl⟩
      | nameCollision span canonical =>
        obtain ⟨node, hnode⟩ := hagrees
        exact .inr (.inl ⟨node, span, canonical, hnode, rfl⟩)
      | other error => exact .inr (.inr (.inl ⟨error, rfl⟩))
    | ok state =>
      obtain ⟨loader, scope⟩ := state
      obtain ⟨search, hsearch, hfollows⟩ := hagrees
      have hout : ∀ block ∈ loader.out, block.IsModule world := by
        refine resolveImports_out (fun hok hout => resolveOne_out hok hout) hroot ?_
        intro block hblock
        rw [rootLoader_out] at hblock
        cases hblock
      refine .inr (.inr ?_)
      dsimp only
      cases hresolve : resolveProgram world program scope with
      | error error => exact .inl ⟨error, rfl⟩
      | ok resolved =>
        rw [orOther]
        have hresolved := rootSearch_ok hsearch
        rcases injectCoreText_cases hwithin hfuel hresolved hfollows hout hresolve with
          ⟨error, hinject⟩ | ⟨loader', search', hinject, hgathers⟩
        · rw [hinject]
          exact .inl ⟨error, rfl⟩
        · rw [hinject]
          exact .inr ⟨search, _, search', hsearch, rfl, hgathers⟩

/-- Where every module has one name, what the search has entered is merged as it should be. -/
theorem Gathers.merges {linked : Linked} (h : Gathers world program base root linked search)
    (hone : OneName world program base) : Merges world program base linked := by
  have hkeys : linked.out.map Block.key = search.order.map Prod.fst := by
    rw [← h.out, List.map_map]
    rfl
  refine ⟨fun key hreached => ?_, h.whole, fun before block after hsplit child hchild => ?_, h.own,
    fun typeOf e implementation hcontains hcallee => ?_⟩
  · rw [hkeys, count_fst_eq_one_iff h.resolved.sound.names.of_map]
    obtain ⟨name, himported⟩ := exists_importedAs hreached
    refine ⟨name, h.resolved.listed _ himported, fun name' hname' => ?_⟩
    obtain ⟨hnames, himported' | ⟨builtin, rfl⟩⟩ :=
      h.resolved.names _ _ (h.resolved.sound.listed _ hname')
    · exact hone key name' name himported' himported
    · have hname : name = builtin := (importedAs_names himported).1
      have hsame : name' = builtin := hnames.1
      rw [hname, hsame]
  · have horder : search.order = before.map (fun block => (block.key, block.canonical)) ++
        (block.key, block.canonical) :: after.map fun block => (block.key, block.canonical) := by
      rw [← h.out, hsplit, List.map_append]
      rfl
    have hmem := h.resolved.sound.sorted _ _ _ horder child hchild
    obtain ⟨earlier, hearlier, hsame⟩ := List.mem_map.mp hmem
    exact ⟨earlier, hearlier, congrArg Prod.fst hsame, congrArg Prod.snd hsame⟩
  · rw [hkeys]
    have hmem := h.composable e hcontains (isComposableCall_of_callee hcallee)
    exact List.mem_map.mpr ⟨coreText, hmem, rfl⟩

/-- Where every module reached is merged once, each has one name. -/
theorem Gathers.oneName {linked : Linked} (h : Gathers world program base root linked search)
    (honce : ∀ key, Reached world program base key → (linked.out.map Block.key).count key = 1) :
    OneName world program base := by
  have hkeys : linked.out.map Block.key = search.order.map Prod.fst := by
    rw [← h.out, List.map_map]
    rfl
  intro key name name' hname hname'
  have hreached : Reached world program base key := by
    rcases hname with hroot | ⟨key', ⟨node, hnode, hreach⟩, hmem⟩
    · exact ⟨(key, name), hroot, .refl⟩
    · exact ⟨node, hnode, hreach.tail ⟨name, hmem⟩⟩
  have hcount := honce key hreached
  rw [hkeys, count_fst_eq_one_iff h.resolved.sound.names.of_map] at hcount
  exact hcount.unique (h.resolved.listed _ hname) (h.resolved.listed _ hname')

/-- A link ends, and unless it fails otherwise it merges every module reached once, behind what it
imports, or stops at the cycle or the collision that is there: exactly if one of these is there or
no module is imported under two names. -/
theorem link_once_iff {files : List String} (hwithin : ImportsWithin world program base files)
    (hfuel : files.length + CORELIB_MODULES.length < fuel) :
    ∃ result, link world fuel program base root = some result ∧
      (∀ more, link world (fuel + more) program base root = some result) ∧
      ((∀ error, result ≠ .error (.other error)) →
        (LinksOnce world program base root fuel result ↔
          ReachesCycle world program base root ∨ Collides (met world program base root fuel) ∨
            OneName world program base)) := by
  have hmore : ∀ {result}, link world fuel program base root = some result →
      ∀ more, link world (fuel + more) program base root = some result := by
    intro result h more
    induction more with
    | zero => exact h
    | succ more ih => exact link_fuel ih
  rcases link_cases hwithin hfuel with ⟨node, span, chain, hsearch, hlink⟩ |
    ⟨node, span, canonical, hsearch, hlink⟩ | ⟨error, hlink⟩ |
    ⟨search, linked, search', hsearch, hlink, hgathers⟩
  · refine ⟨_, hlink, hmore hlink, fun _ => ?_⟩
    have hcycle := rootSearch_cycle hsearch
    refine ⟨fun _ => .inl hcycle, fun _ => ⟨fun _ => ?_, ?_, fun linked h => by cases h⟩⟩
    · exact ⟨fun _ => hcycle, fun _ => ⟨span, chain, rfl⟩⟩
    · rw [← (rootSearch_events hsearch).collides_iff]
      exact ⟨fun ⟨_, _, h⟩ => (by cases h), fun ⟨_, h⟩ => (by cases h)⟩
  · refine ⟨_, hlink, hmore hlink, fun _ => ?_⟩
    have hcollides := (rootSearch_events hsearch).collides_iff.mp ⟨node, rfl⟩
    refine ⟨fun _ => .inr (.inl hcollides), fun _ => ⟨fun h => ?_, ?_, fun linked h => by cases h⟩⟩
    · exact absurd rfl (h span canonical)
    · exact ⟨fun _ => hcollides, fun _ => ⟨span, canonical, rfl⟩⟩
  · exact ⟨_, hlink, hmore hlink, fun h => absurd rfl (h error)⟩
  · refine ⟨_, hlink, hmore hlink, fun _ => ?_⟩
    have hcycle := hgathers.resolved.acyclic
    have hcollides : ¬ Collides (met world program base root fuel) := by
      rw [← (rootSearch_events hsearch).collides_iff]
      exact fun ⟨_, h⟩ => by cases h
    constructor
    · intro h
      exact .inr (.inr (hgathers.oneName (h.merges linked rfl).once))
    · intro h
      have hone := (h.resolve_left hcycle).resolve_left hcollides
      refine ⟨fun _ => ?_, ?_, fun linked' h => ?_⟩
      · exact ⟨fun ⟨_, _, h⟩ => (by cases h), fun h => absurd h hcycle⟩
      · exact ⟨fun ⟨_, _, h⟩ => (by cases h), fun h => absurd h hcollides⟩
      · rw [← Except.ok.inj h]
        exact hgathers.merges hone

end Linking

/-! ### One file under two names -/

/-- A directory with one module, `a.qn`, and a symbolic link `b.qn` to it. -/
def symlinkWorld : World where
  isAbsolute path := path.toList.head? = some '/'
  join base path := base ++ "/" ++ path
  fileStem path :=
    let name := path.toList.reverse.takeWhile (· ≠ '/')
    some (String.ofList (name.dropWhile (· ≠ '.')).tail.reverse)
  parent path := some (String.ofList (path.toList.reverse.dropWhile (· ≠ '/')).tail.reverse)
  readToString _ := .ok ">> one = 1"
  canonicalize path :=
    some (if path = "/src/b.qn" ∨ path = "/src/./a.qn" then "/src/a.qn" else path)
  parse _ := .ok ⟨[], [.variableDeclaration ⟨false, "one", none, .number 1 ⟨9, 10, 1⟩, true, false,
    ⟨3, 10, 1⟩⟩], []⟩
  isAlphanumeric := Char.isAlphanum
  corelib _ := []
  walkItem _ _ item := .ok item
  walkExpression _ e := .ok e
  dot_not_alphanumeric := by decide
  parent_isSome _ := rfl

/-- A program of two imports. -/
def importing (path path' : String) : Parsed :=
  ⟨[⟨.filePath path, ⟨0, 9, 0⟩⟩, ⟨.filePath path', ⟨10, 19, 0⟩⟩], [], []⟩

/-- The modules and the names that a link gives. -/
def merged : Except Failure Linked → Option (List Key × List String)
  | .ok linked => some (linked.out.map Block.key, linked.items.map Item.name)
  | .error _ => none

/-- `<< "a.qn"` and `<< "./a.qn"` are one module. -/
theorem link_once_spellings : ∃ result,
    link symlinkWorld 11 (importing "a.qn" "./a.qn") "/src" none = some result ∧
      LinksOnce symlinkWorld (importing "a.qn" "./a.qn") "/src" none 11 result := by
  have himports : rootImports symlinkWorld (importing "a.qn" "./a.qn") "/src" =
      [(.file "/src/a.qn", "a"), (.file "/src/a.qn", "a")] := by decide +kernel
  have hsuccessors : ∀ path, successors symlinkWorld (.file path) = [] := fun _ => rfl
  have hwithin : ImportsWithin symlinkWorld (importing "a.qn" "./a.qn") "/src" ["/src/a.qn"] := by
    refine ⟨fun path name h => ?_, fun path _ path' name h => ?_⟩
    · rw [himports] at h
      simp at h
      simp [h]
    · rw [hsuccessors] at h
      cases h
  have hone : OneName symlinkWorld (importing "a.qn" "./a.qn") "/src" := by
    have hname : ∀ key name,
        ImportedAs symlinkWorld (importing "a.qn" "./a.qn") "/src" (key, name) → name = "a" := by
      intro key name h
      rcases h with hroot | ⟨key', ⟨node, hnode, hreach⟩, hmem⟩
      · rw [himports] at hroot
        simp at hroot
        exact hroot.2
      · rw [himports] at hnode
        have hnode' : node.1 = .file "/src/a.qn" := by
          simp at hnode
          rw [hnode]
        rw [hnode'] at hreach
        have hkey' : key' = .file "/src/a.qn" := by
          rcases hreach.cases_head with rfl | ⟨child, ⟨name', hname'⟩, -⟩
          · rfl
          · rw [hsuccessors] at hname'
            cases hname'
        rw [hkey', hsuccessors] at hmem
        cases hmem
    intro key name name' h h'
    rw [hname key name h, hname key name' h']
  obtain ⟨result, hlink, -, honce⟩ := @link_once_iff _ _ _ none 11 _ hwithin (by decide)
  refine ⟨result, hlink, (honce fun error h => ?_).mpr (.inr (.inr hone))⟩
  rw [h] at hlink
  have hmerged : (link symlinkWorld 11 (importing "a.qn" "./a.qn") "/src" none).map merged =
      some (some ([.file "/src/a.qn"], ["a.one"])) := by decide +kernel
  rw [hlink] at hmerged
  cases hmerged

theorem symlink_merged_twice : ∃ linked,
    link symlinkWorld 11 (importing "a.qn" "b.qn") "/src" none = some (.ok linked) ∧
      linked.out.map Block.key = [.file "/src/a.qn", .file "/src/a.qn"] ∧
      linked.items.map Item.name = ["a.one", "b.one"] ∧
      ¬ LinksOnce symlinkWorld (importing "a.qn" "b.qn") "/src" none 11 (.ok linked) := by
  have hmerged : (link symlinkWorld 11 (importing "a.qn" "b.qn") "/src" none).map merged =
      some (some ([.file "/src/a.qn", .file "/src/a.qn"], ["a.one", "b.one"])) := by decide +kernel
  obtain ⟨result, hlink, hresult⟩ := Option.map_eq_some_iff.mp hmerged
  cases result with
  | error failure => cases hresult
  | ok linked =>
    obtain ⟨hkeys, hnames⟩ := Prod.mk.inj (Option.some.inj hresult)
    refine ⟨linked, hlink, hkeys, hnames, fun h => ?_⟩
    have himports : rootImports symlinkWorld (importing "a.qn" "b.qn") "/src" =
        [(.file "/src/a.qn", "a"), (.file "/src/a.qn", "b")] := by decide +kernel
    have hreached : Reached symlinkWorld (importing "a.qn" "b.qn") "/src" (.file "/src/a.qn") := by
      refine ⟨(.file "/src/a.qn", "a"), ?_, .refl⟩
      rw [himports]
      exact List.mem_cons_self
    have honce := (h.merges linked rfl).once _ hreached
    rw [hkeys] at honce
    exact absurd honce (by decide)

end Quilon.Modules
