import Quilon.Library.Lookup
import Mathlib.Data.List.Nodup
import Mathlib.Data.List.Perm.Subperm
import Mathlib.Logic.Relation

/-!
# Depth-first loading under names

Nodes are reached by a key and a name.  The search keeps which name stands for which key, enters a
key under each name once, and stops at a key that is being entered (`cycle`), or at a name that
stands for another key (`collision`).

* `Sound` is its invariant: what is entered has no cycle below it (`Settled`), and stands in the
  order behind what it leads to (`visit_ok`).
* A cycle is met only where there is one (`visit_cycle`).
* `unfold` is the same walk without memory, and the search stops where that first closes a cycle or
  uses a name twice (`visit_events`).
* Over finitely many keys it ends (`visit_ne_none`).
-/

namespace Quilon.DepthFirst

open Relation

variable {K N : Type*} [DecidableEq N]

structure Search (K N : Type*) where
  /-- which key a name stands for -/
  loaded : List (N × K)
  /-- the keys that are being entered -/
  active : List K
  /-- what has been left, in that order -/
  order : List (K × N)

inductive Stop (K N : Type*) where
  | cycle (node : K × N)
  | collision (node : K × N)

def Search.enter (search : Search K N) (node : K × N) : Search K N :=
  { search with loaded := (node.2, node.1) :: search.loaded, active := node.1 :: search.active }

def Search.leave [DecidableEq K] (search : Search K N) (node : K × N) : Search K N :=
  { search with active := search.active.erase node.1, order := search.order ++ [node] }

/-- One after another. -/
def visitAll (visit : Search K N → K × N → Option (Except (Stop K N) (Search K N))) :
    List (K × N) → Search K N → Option (Except (Stop K N) (Search K N))
  | [], search => some (.ok search)
  | node :: rest, search =>
    match visit search node with
    | some (.ok search) => visitAll visit rest search
    | stopped => stopped

variable (successors : K → List (K × N))

/-- `none` when the fuel runs out. -/
def visit [DecidableEq K] : Nat → Search K N → K × N → Option (Except (Stop K N) (Search K N))
  | 0, _, _ => none
  | fuel + 1, search, node =>
    if node.1 ∈ search.active then some (.error (.cycle node))
    else
      match search.loaded.lookup node.2 with
      | some key => if key = node.1 then some (.ok search) else some (.error (.collision node))
      | none =>
        match visitAll (visit fuel) (successors node.1) (search.enter node) with
        | some (.ok search) => some (.ok (search.leave node))
        | stopped => stopped

/-- A key leads to another. -/
def Edge (key key' : K) : Prop := ∃ name, (key', name) ∈ successors key

/-- What is met on a walk without memory. -/
inductive Event (K N : Type*) where
  | meets (node : K × N)
  | closes

/-- The walk without memory, below the keys `above`. -/
def unfold [DecidableEq K] : Nat → List K → K × N → List (Event K N)
  | 0, _, _ => []
  | fuel + 1, above, node =>
    if node.1 ∈ above then [.closes]
    else .meets node :: (successors node.1).flatMap (unfold fuel (node.1 :: above))

/-- Below the key is no cycle and nothing to avoid, and all names below it stand for their keys. -/
def Settled (avoid : List K) (loaded : List (N × K)) (key : K) : Prop :=
  ∀ below, ReflTransGen (Edge successors) key below →
    below ∉ avoid ∧ ¬ TransGen (Edge successors) below below ∧
      ∀ node ∈ successors below, loaded.lookup node.2 = some node.1

structure Sound (avoid : List K) (search : Search K N) : Prop where
  avoided : ∀ key ∈ avoid, key ∈ search.active
  settled : ∀ name key, search.loaded.lookup name = some key → key ∉ search.active →
    Settled successors avoid search.loaded key
  ordered : ∀ name key, search.loaded.lookup name = some key → key ∉ search.active →
    (key, name) ∈ search.order
  listed : ∀ node ∈ search.order, search.loaded.lookup node.2 = some node.1
  names : (search.order.map Prod.snd).Nodup
  sorted : ∀ before node after, search.order = before ++ node :: after →
    ∀ child ∈ successors node.1, child ∈ before

/-- What a search keeps of what was there before. -/
structure Extends (search search' : Search K N) : Prop where
  loaded : ∀ name key, search.loaded.lookup name = some key →
    search'.loaded.lookup name = some key
  active : search'.active = search.active
  order : ∃ new, search'.order = search.order ++ new ∧
    (∀ node ∈ new, node.1 ∉ search.active ∧ search.loaded.lookup node.2 = none) ∧
    ∀ name key, search'.loaded.lookup name = some key → search.loaded.lookup name = none →
      (key, name) ∈ new

variable {successors} {search search' : Search K N} {node : K × N} {nodes : List (K × N)}
  {avoid above : List K} {loaded loaded' : List (N × K)} {key below : K} {name : N} {fuel : Nat}

/-! ### Entering and leaving -/

theorem lookup_cons_iff {name' : N} :
    ((name', key) :: loaded).lookup name = some below ↔
      (name = name' ∧ key = below) ∨ (name ≠ name' ∧ loaded.lookup name = some below) := by
  rw [lookup_cons_ite]
  by_cases h : name = name'
  · simp [h]
  · simp [h]

theorem Settled.mono (h : Settled successors avoid loaded key)
    (hloaded : ∀ name key, loaded.lookup name = some key → loaded'.lookup name = some key) :
    Settled successors avoid loaded' key := by
  intro below hbelow
  obtain ⟨havoid, hcycle, hnames⟩ := h below hbelow
  exact ⟨havoid, hcycle, fun node hnode => hloaded _ _ (hnames node hnode)⟩

theorem Settled.of_reach (h : Settled successors avoid loaded key)
    (hreach : ReflTransGen (Edge successors) key below) :
    Settled successors avoid loaded below :=
  fun _ hbelow => h _ (hreach.trans hbelow)

/-- A key is settled if what it leads to is. -/
theorem settled_of_successors (havoid : key ∉ avoid)
    (h : ∀ node ∈ successors key,
      loaded.lookup node.2 = some node.1 ∧ Settled successors avoid loaded node.1) :
    Settled successors avoid loaded key := by
  have hchild : ∀ child, Edge successors key child → Settled successors avoid loaded child :=
    fun child ⟨name, hname⟩ => (h (child, name) hname).2
  intro below hbelow
  rcases hbelow.cases_head with rfl | ⟨child, hedge, hreach⟩
  · refine ⟨havoid, fun hcycle => ?_, fun node hnode => (h node hnode).1⟩
    -- a cycle through the key passes through one of what it leads to
    obtain ⟨child, hedge, hback⟩ := TransGen.head'_iff.mp hcycle
    exact (hchild child hedge key hback).2.1 hcycle
  · exact hchild child hedge below hreach

theorem Extends.refl (search : Search K N) : Extends search search where
  loaded _ _ h := h
  active := rfl
  order := by
    refine ⟨[], (List.append_nil _).symm, fun _ h => (by cases h), fun name key h hnone => ?_⟩
    rw [h] at hnone
    cases hnone

theorem Extends.trans {search'' : Search K N} (h : Extends search search')
    (h' : Extends search' search'') : Extends search search'' := by
  obtain ⟨new, horder, hnew, hloaded⟩ := h.order
  obtain ⟨new', horder', hnew', hloaded'⟩ := h'.order
  refine ⟨fun name key hkey => h'.loaded _ _ (h.loaded _ _ hkey), h'.active.trans h.active,
    new ++ new', ?_, ?_, ?_⟩
  · rw [horder', horder, List.append_assoc]
  · intro node hnode
    rcases List.mem_append.mp hnode with hmem | hmem
    · exact hnew node hmem
    · obtain ⟨hactive, hnone⟩ := hnew' node hmem
      rw [h.active] at hactive
      refine ⟨hactive, ?_⟩
      cases hlookup : search.loaded.lookup node.2 with
      | none => rfl
      | some key =>
        rw [h.loaded _ _ hlookup] at hnone
        cases hnone
  · intro name key hkey hnone
    cases hlookup : search'.loaded.lookup name with
    | none => exact List.mem_append_right _ (hloaded' name key hkey hlookup)
    | some key' =>
      have hsame := h'.loaded _ _ hlookup
      rw [hkey] at hsame
      rw [Option.some.inj hsame]
      exact List.mem_append_left _ (hloaded name key' hlookup hnone)

theorem lookup_enter (hnone : search.loaded.lookup node.2 = none)
    (h : search.loaded.lookup name = some key) :
    (search.enter node).loaded.lookup name = some key := by
  refine lookup_cons_iff.mpr (.inr ⟨fun hname => ?_, h⟩)
  rw [hname, hnone] at h
  cases h

theorem lookup_enter_eq_none (hname : name ≠ node.2) (h : search.loaded.lookup name = none) :
    (search.enter node).loaded.lookup name = none := by
  cases hlookup : (search.enter node).loaded.lookup name with
  | none => rfl
  | some key =>
    rcases lookup_cons_iff.mp hlookup with ⟨hname', -⟩ | ⟨-, hsome⟩
    · exact absurd hname' hname
    · rw [h] at hsome
      cases hsome

theorem Sound.enter (h : Sound successors avoid search)
    (hnone : search.loaded.lookup node.2 = none) : Sound successors avoid (search.enter node) := by
  have hmono : ∀ name key, search.loaded.lookup name = some key →
      (search.enter node).loaded.lookup name = some key := fun _ _ => lookup_enter hnone
  have hold : ∀ name key, (search.enter node).loaded.lookup name = some key →
      key ∉ (search.enter node).active →
        search.loaded.lookup name = some key ∧ key ∉ search.active := by
    intro name key hkey hactive
    rcases lookup_cons_iff.mp hkey with ⟨-, rfl⟩ | ⟨-, hkey⟩
    · exact absurd List.mem_cons_self hactive
    · exact ⟨hkey, fun hmem => hactive (List.mem_cons_of_mem _ hmem)⟩
  refine ⟨fun key hkey => List.mem_cons_of_mem _ (h.avoided key hkey), ?_, ?_, ?_, h.names,
    h.sorted⟩
  · intro name key hkey hactive
    obtain ⟨hkey, hactive⟩ := hold name key hkey hactive
    exact (h.settled name key hkey hactive).mono hmono
  · intro name key hkey hactive
    obtain ⟨hkey, hactive⟩ := hold name key hkey hactive
    exact h.ordered name key hkey hactive
  · intro node' hnode'
    exact hmono _ _ (h.listed node' hnode')

section Walk

variable [DecidableEq K]

theorem leave_active (h : Extends (search.enter node) search') :
    (search'.leave node).active = search.active := by
  show search'.active.erase node.1 = _
  rw [h.active]
  exact List.erase_cons_head node.1 search.active

/-- A key is left, with all that it leads to left before. -/
theorem Sound.leave (hsearch : Sound successors avoid search) (hactive : node.1 ∉ search.active)
    (hnone : search.loaded.lookup node.2 = none) (h : Sound successors avoid search')
    (hextends : Extends (search.enter node) search')
    (hchildren : ∀ child ∈ successors node.1, search'.loaded.lookup child.2 = some child.1 ∧
      child.1 ∉ (search.enter node).active) :
    Sound successors avoid (search'.leave node) ∧ Extends search (search'.leave node) ∧
      (search'.leave node).loaded.lookup node.2 = some node.1 := by
  have hleave := leave_active hextends
  obtain ⟨new, horder, hnew, hloaded⟩ := hextends.order
  have hentered : (search.enter node).loaded.lookup node.2 = some node.1 :=
    lookup_cons_iff.mpr (.inl ⟨rfl, rfl⟩)
  have hnode := hextends.loaded _ _ hentered
  -- what was there before is under another name
  have hkeep : ∀ name key, search.loaded.lookup name = some key →
      (search.enter node).loaded.lookup name = some key := fun _ _ => lookup_enter hnone
  have hactive' : ∀ {key}, key ≠ node.1 → key ∉ search.active → key ∉ search'.active := by
    intro key hne hkey
    rw [hextends.active]
    exact fun hmem => (List.mem_cons.mp hmem).elim hne hkey
  have hsettled : Settled successors avoid search'.loaded node.1 := by
    have havoid : node.1 ∉ avoid := fun hmem => hactive (hsearch.avoided _ hmem)
    refine settled_of_successors havoid fun child hchild => ?_
    obtain ⟨hlookup, hout⟩ := hchildren child hchild
    rw [← hextends.active] at hout
    exact ⟨hlookup, h.settled _ _ hlookup hout⟩
  have horder' : (search'.leave node).order = search.order ++ (new ++ [node]) := by
    show search'.order ++ [node] = _
    rw [horder, List.append_assoc]
    rfl
  refine ⟨⟨?_, ?_, ?_, ?_, ?_, ?_⟩, ⟨?_, hleave, new ++ [node], horder', ?_, ?_⟩, hnode⟩
  · intro key hkey
    rw [hleave]
    exact hsearch.avoided key hkey
  · intro name key hlookup hkey
    rw [hleave] at hkey
    by_cases hkey' : key = node.1
    · rw [hkey']
      exact hsettled
    · exact h.settled name key hlookup (hactive' hkey' hkey)
  · intro name key hlookup hkey
    rw [hleave] at hkey
    by_cases hkey' : key = node.1
    · subst hkey'
      rw [horder']
      by_cases hname : name = node.2
      · rw [hname]
        simp
      · cases hold : search.loaded.lookup name with
        | some key =>
          have hsame := hextends.loaded _ _ (hkeep _ _ hold)
          have hlookup' : search'.loaded.lookup name = some node.1 := hlookup
          rw [hlookup'] at hsame
          obtain rfl := Option.some.inj hsame
          exact List.mem_append_left _ (hsearch.ordered name _ hold hkey)
        | none =>
          have hnone' := lookup_enter_eq_none hname hold
          exact absurd List.mem_cons_self (hnew _ (hloaded name _ hlookup hnone')).1
    · exact List.mem_append_left _ (h.ordered name key hlookup (hactive' hkey' hkey))
  · intro node' hnode'
    rcases List.mem_append.mp hnode' with hmem | hmem
    · exact h.listed node' hmem
    · rw [List.mem_singleton.mp hmem]
      exact hnode
  · show ((search'.order ++ [node]).map Prod.snd).Nodup
    rw [List.map_append, List.map_singleton]
    refine List.nodup_append.mpr ⟨h.names, List.nodup_singleton _, ?_⟩
    intro name hname name' hname' hsame
    obtain ⟨node', hnode', rfl⟩ := List.mem_map.mp hname
    rw [List.mem_singleton.mp hname'] at hsame
    rw [horder] at hnode'
    rcases List.mem_append.mp hnode' with hmem | hmem
    · have hlookup := hsearch.listed node' hmem
      rw [hsame, hnone] at hlookup
      cases hlookup
    · have hlookup := (hnew node' hmem).2
      rw [hsame, hentered] at hlookup
      cases hlookup
  · intro before node' after hsplit child hchild
    rcases List.eq_nil_or_concat after with rfl | ⟨after', last, rfl⟩
    · obtain ⟨hbefore, hlast⟩ := List.append_inj' hsplit rfl
      obtain rfl : node = node' := List.singleton_inj.mp hlast
      obtain ⟨hlookup, hout⟩ := hchildren child hchild
      rw [← hextends.active] at hout
      rw [← hbefore]
      exact h.ordered child.2 child.1 hlookup hout
    · have hsplit' : search'.order ++ [node] = (before ++ node' :: after') ++ [last] := by
        rw [List.concat_eq_append] at hsplit
        rw [List.append_assoc]
        exact hsplit
      obtain ⟨hbefore, -⟩ := List.append_inj' hsplit' rfl
      exact h.sorted before node' after' hbefore child hchild
  · intro name key hlookup
    exact hextends.loaded _ _ (hkeep _ _ hlookup)
  · intro node' hmem
    rcases List.mem_append.mp hmem with hmem | hmem
    · obtain ⟨hout, hlookup⟩ := hnew node' hmem
      refine ⟨fun h => hout (List.mem_cons_of_mem _ h), ?_⟩
      cases hold : search.loaded.lookup node'.2 with
      | none => rfl
      | some key =>
        rw [hkeep _ _ hold] at hlookup
        cases hlookup
    · rw [List.mem_singleton.mp hmem]
      exact ⟨hactive, hnone⟩
  · intro name key hlookup hold
    by_cases hname : name = node.2
    · subst hname
      have hlookup' : search'.loaded.lookup node.2 = some key := hlookup
      rw [hnode] at hlookup'
      rw [← Option.some.inj hlookup']
      simp
    · exact List.mem_append_left _ (hloaded name key hlookup (lookup_enter_eq_none hname hold))

/-! ### The search -/

omit [DecidableEq K] in
/-- What entering the nodes one after another keeps, if entering one does. -/
theorem visitAll_ok
    {step : Search K N → K × N → Option (Except (Stop K N) (Search K N))}
    (hstep : ∀ {search search' node}, Sound successors avoid search →
      step search node = some (.ok search') →
        Sound successors avoid search' ∧ Extends search search' ∧
          search'.loaded.lookup node.2 = some node.1 ∧ node.1 ∉ search.active)
    (hsearch : Sound successors avoid search)
    (h : visitAll step nodes search = some (.ok search')) :
    Sound successors avoid search' ∧ Extends search search' ∧
      ∀ node ∈ nodes, search'.loaded.lookup node.2 = some node.1 ∧ node.1 ∉ search.active := by
  induction nodes generalizing search with
  | nil =>
    obtain rfl := Except.ok.inj (Option.some.inj h)
    exact ⟨hsearch, Extends.refl search, fun node hnode => by cases hnode⟩
  | cons node rest ih =>
    rw [visitAll] at h
    split at h
    case h_2 stopped hstopped => exact absurd h (hstopped search')
    case h_1 next hnext =>
      obtain ⟨hsound, hextends, hlookup, hactive⟩ := hstep hsearch hnext
      obtain ⟨hsound', hextends', hrest⟩ := ih hsound h
      refine ⟨hsound', hextends.trans hextends', fun node' hnode' => ?_⟩
      rcases List.mem_cons.mp hnode' with rfl | hmem
      · exact ⟨hextends'.loaded _ _ hlookup, hactive⟩
      · rw [← hextends.active]
        exact hrest node' hmem

/-- Entering a node keeps the invariant. -/
theorem visit_ok (hsearch : Sound successors avoid search)
    (h : visit successors fuel search node = some (.ok search')) :
    Sound successors avoid search' ∧ Extends search search' ∧
      search'.loaded.lookup node.2 = some node.1 ∧ node.1 ∉ search.active := by
  induction fuel generalizing search search' node with
  | zero => cases h
  | succ fuel ih =>
    rw [visit] at h
    by_cases hactive : node.1 ∈ search.active
    · rw [if_pos hactive] at h
      cases h
    · rw [if_neg hactive] at h
      cases hlookup : search.loaded.lookup node.2 with
      | some key =>
        rw [hlookup] at h
        by_cases hkey : key = node.1
        · dsimp only at h
          rw [if_pos hkey] at h
          obtain rfl := Except.ok.inj (Option.some.inj h)
          exact ⟨hsearch, Extends.refl search, hkey ▸ hlookup, hactive⟩
        · dsimp only at h
          rw [if_neg hkey] at h
          cases h
      | none =>
        rw [hlookup] at h
        dsimp only at h
        split at h
        case h_2 stopped hstopped => exact absurd h (hstopped search')
        case h_1 inside hinside =>
          obtain rfl := Except.ok.inj (Option.some.inj h)
          obtain ⟨hsound, hextends, hchildren⟩ :=
            visitAll_ok (fun hs hv => ih hs hv) (hsearch.enter hlookup) hinside
          obtain ⟨hsound', hextends', hnode⟩ :=
            hsearch.leave hactive hlookup hsound hextends hchildren
          exact ⟨hsound', hextends', hnode, hactive⟩

/-! ### Where it stops -/

omit [DecidableEq N] [DecidableEq K] in
/-- What does not get through the nodes has stopped at one of them. -/
theorem visitAll_stops
    {step : Search K N → K × N → Option (Except (Stop K N) (Search K N))}
    {stopped : Option (Except (Stop K N) (Search K N))}
    (hstopped : ∀ search', stopped ≠ some (.ok search'))
    (h : visitAll step nodes search = stopped) :
    ∃ before node after search', nodes = before ++ node :: after ∧
      visitAll step before search = some (.ok search') ∧ step search' node = stopped := by
  induction nodes generalizing search with
  | nil => exact absurd h.symm (hstopped search)
  | cons node rest ih =>
    rw [visitAll] at h
    split at h
    case h_1 next hnext =>
      obtain ⟨before, node', after, search', hnodes, hbefore, hnode'⟩ := ih h
      refine ⟨node :: before, node', after, search', ?_, ?_, hnode'⟩
      · rw [hnodes]
        rfl
      · rw [visitAll, hnext]
        exact hbefore
    case h_2 => exact ⟨[], node, rest, search, rfl, rfl, h⟩

omit [DecidableEq N] [DecidableEq K] in
theorem visitAll_active
    {step : Search K N → K × N → Option (Except (Stop K N) (Search K N))}
    (hstep : ∀ {search search' node}, step search node = some (.ok search') →
      search'.active = search.active)
    (h : visitAll step nodes search = some (.ok search')) : search'.active = search.active := by
  induction nodes generalizing search with
  | nil =>
    obtain rfl := Except.ok.inj (Option.some.inj h)
    rfl
  | cons node rest ih =>
    rw [visitAll] at h
    split at h
    case h_1 next hnext => exact (ih h).trans (hstep hnext)
    case h_2 stopped hstopped => exact absurd h (hstopped search')

/-- What a node does is one of four things. -/
theorem visit_cases {result : Except (Stop K N) (Search K N)}
    (h : visit successors (fuel + 1) search node = some result) :
    (node.1 ∈ search.active ∧ result = .error (.cycle node)) ∨
    (node.1 ∉ search.active ∧ search.loaded.lookup node.2 = some node.1 ∧
      result = .ok search) ∨
    (∃ key, node.1 ∉ search.active ∧ search.loaded.lookup node.2 = some key ∧ key ≠ node.1 ∧
      result = .error (.collision node)) ∨
    (∃ inside, node.1 ∉ search.active ∧ search.loaded.lookup node.2 = none ∧
      visitAll (visit successors fuel) (successors node.1) (search.enter node) = some inside ∧
      result = inside.map (·.leave node)) := by
  rw [visit] at h
  by_cases hactive : node.1 ∈ search.active
  · rw [if_pos hactive] at h
    exact .inl ⟨hactive, (Option.some.inj h).symm⟩
  · rw [if_neg hactive] at h
    cases hlookup : search.loaded.lookup node.2 with
    | some key =>
      rw [hlookup] at h
      by_cases hkey : key = node.1
      · dsimp only at h
        rw [if_pos hkey] at h
        exact .inr (.inl ⟨hactive, congrArg some hkey, (Option.some.inj h).symm⟩)
      · dsimp only at h
        rw [if_neg hkey] at h
        exact .inr (.inr (.inl ⟨key, hactive, rfl, hkey, (Option.some.inj h).symm⟩))
    | none =>
      rw [hlookup] at h
      dsimp only at h
      refine .inr (.inr (.inr ?_))
      split at h
      case h_1 inside hinside =>
        exact ⟨.ok inside, hactive, rfl, hinside, (Option.some.inj h).symm⟩
      case h_2 stopped hstopped =>
        cases result with
        | ok search' => exact absurd h (hstopped search')
        | error stop => exact ⟨.error stop, hactive, rfl, h, rfl⟩

theorem visit_active (h : visit successors fuel search node = some (.ok search')) :
    search'.active = search.active := by
  induction fuel generalizing search search' node with
  | zero => cases h
  | succ fuel ih =>
    rcases visit_cases h with ⟨-, hresult⟩ | ⟨-, -, hresult⟩ | ⟨_, -, -, -, hresult⟩ |
      ⟨inside, -, -, hinside, hresult⟩
    · cases hresult
    · rw [Except.ok.inj hresult]
    · cases hresult
    · cases inside with
      | error stop => cases hresult
      | ok inside =>
        have hactive := visitAll_active (fun hv => ih hv) hinside
        rw [Except.ok.inj hresult]
        show inside.active.erase node.1 = search.active
        rw [hactive]
        exact List.erase_cons_head node.1 search.active

/-- What is active leads to the node, or is to be avoided. -/
def Above (successors : K → List (K × N)) (avoid active : List K) (key : K) : Prop :=
  ∀ above ∈ active, above ∈ avoid ∨ TransGen (Edge successors) above key

omit [DecidableEq N] [DecidableEq K] in
theorem Above.child (h : Above successors avoid search.active node.1) {child : K × N}
    (hchild : child ∈ successors node.1) :
    Above successors avoid (search.enter node).active child.1 := by
  have hedge : Edge successors node.1 child.1 := ⟨child.2, hchild⟩
  intro key hkey
  rcases List.mem_cons.mp hkey with rfl | hkey
  · exact .inr (TransGen.single hedge)
  · exact (h key hkey).imp id fun hreach => hreach.tail hedge

/-- Where the search meets a cycle there is one. -/
theorem visit_cycle {met : K × N} (habove : Above successors avoid search.active node.1)
    (h : visit successors fuel search node = some (.error (.cycle met))) :
    ∃ below, ReflTransGen (Edge successors) node.1 below ∧
      (below ∈ avoid ∨ TransGen (Edge successors) below below) := by
  induction fuel generalizing search node with
  | zero => cases h
  | succ fuel ih =>
    rcases visit_cases h with ⟨hactive, -⟩ | ⟨-, -, hresult⟩ | ⟨_, -, -, -, hresult⟩ |
      ⟨inside, -, -, hinside, hresult⟩
    · exact ⟨node.1, .refl, habove node.1 hactive⟩
    · cases hresult
    · cases hresult
    · cases inside with
      | ok inside => cases hresult
      | error stop =>
        obtain rfl : Stop.cycle met = stop := Except.error.inj hresult
        obtain ⟨before, child, after, search', hnodes, hbefore, hchild⟩ :=
          visitAll_stops (fun _ hok => by cases hok) hinside
        have hmem : child ∈ successors node.1 := by
          rw [hnodes]
          exact List.mem_append_right _ List.mem_cons_self
        have hactive := visitAll_active (fun hv => visit_active hv) hbefore
        have habove' : Above successors avoid search'.active child.1 := by
          rw [hactive]
          exact habove.child hmem
        obtain ⟨below, hreach, hbelow⟩ := ih habove' hchild
        exact ⟨below, hreach.head ⟨child.2, hmem⟩, hbelow⟩

/-- Over finitely many keys there is fuel enough. -/
theorem visit_ne_none {keys : List K}
    (hclosed : ∀ key ∈ keys, key ∉ search.active → ∀ child ∈ successors key, child.1 ∈ keys)
    (hnode : node.1 ∈ keys)
    (hactive : ∀ key ∈ search.active, key ∈ keys) (hnodup : search.active.Nodup)
    (hfuel : keys.length < fuel + search.active.length) :
    visit successors fuel search node ≠ none := by
  induction fuel generalizing search node with
  | zero =>
    have hle := (hnodup.subperm hactive).length_le
    omega
  | succ fuel ih =>
    have hinside : node.1 ∉ search.active →
        visitAll (visit successors fuel) (successors node.1) (search.enter node) ≠ none := by
      intro hout hnone
      obtain ⟨before, child, after, search', hnodes, hbefore, hchild⟩ :=
        visitAll_stops (fun _ hok => by cases hok) hnone
      have hmem : child ∈ successors node.1 := by
        rw [hnodes]
        exact List.mem_append_right _ List.mem_cons_self
      have hkeep : search'.active = node.1 :: search.active :=
        visitAll_active (fun hv => visit_active hv) hbefore
      refine ih ?_ (hclosed _ hnode hout child hmem) ?_ ?_ ?_ hchild
      · rw [hkeep]
        exact fun key hkey hactive =>
          hclosed key hkey fun hmem => hactive (List.mem_cons_of_mem _ hmem)
      · rw [hkeep]
        intro key hkey
        rcases List.mem_cons.mp hkey with rfl | hkey
        · exact hnode
        · exact hactive key hkey
      · rw [hkeep]
        exact List.nodup_cons.mpr ⟨hout, hnodup⟩
      · rw [hkeep, List.length_cons]
        omega
    intro h
    rw [visit] at h
    split at h
    · cases h
    · split at h
      · split at h <;> cases h
      · split at h
        · cases h
        · exact hinside ‹_› h

/-! ### The walk without memory -/

/-- The events meet names that stand for their keys in `loaded'`, and what stands there beyond
`loaded` is met. -/
structure Reads (events : List (Event K N)) (loaded loaded' : List (N × K)) : Prop where
  kept : ∀ name key, loaded.lookup name = some key → loaded'.lookup name = some key
  met : ∀ event ∈ events, ∃ node, event = .meets node ∧ loaded'.lookup node.2 = some node.1
  new : ∀ name key, loaded'.lookup name = some key →
    loaded.lookup name = some key ∨ .meets (key, name) ∈ events

/-- What the events say of a result: all is met, or what comes before the first cycle is, or what
comes before a name's second use. -/
def Explains (events : List (Event K N)) (loaded : List (N × K)) :
    Except (Stop K N) (Search K N) → Prop
  | .ok search => Reads events loaded search.loaded
  | .error (.cycle _) =>
    ∃ before after loaded', events = before ++ .closes :: after ∧ Reads before loaded loaded'
  | .error (.collision node) =>
    ∃ before after loaded' key, events = before ++ .meets node :: after ∧
      Reads before loaded loaded' ∧ loaded'.lookup node.2 = some key ∧ key ≠ node.1

section Events

variable {events events' : List (Event K N)} {loaded'' : List (N × K)}
  {result : Except (Stop K N) (Search K N)}

omit [DecidableEq K] in
theorem Reads.nil (loaded : List (N × K)) : Reads ([] : List (Event K N)) loaded loaded where
  kept _ _ h := h
  met _ h := by cases h
  new _ _ h := .inl h

omit [DecidableEq K] in
theorem Reads.trans (h : Reads events loaded loaded') (h' : Reads events' loaded' loaded'') :
    Reads (events ++ events') loaded loaded'' := by
  refine ⟨fun name key hkey => h'.kept _ _ (h.kept _ _ hkey), fun event hevent => ?_,
    fun name key hkey => ?_⟩
  · rcases List.mem_append.mp hevent with hmem | hmem
    · obtain ⟨node, hnode, hlookup⟩ := h.met event hmem
      exact ⟨node, hnode, h'.kept _ _ hlookup⟩
    · exact h'.met event hmem
  · rcases h'.new name key hkey with hold | hmem
    · exact (h.new name key hold).imp id fun hmem => List.mem_append_left _ hmem
    · exact .inr (List.mem_append_right _ hmem)

omit [DecidableEq K] in
theorem Explains.after (h : Reads events loaded loaded') (h' : Explains events' loaded' result) :
    Explains (events ++ events') loaded result := by
  match result, h' with
  | .ok _, h' => exact h.trans h'
  | .error (.cycle _), ⟨before, after, known, hevents, hreads⟩ =>
    refine ⟨events ++ before, after, known, ?_, h.trans hreads⟩
    rw [hevents, List.append_assoc]
  | .error (.collision _), ⟨before, after, known, key, hevents, hreads, hkey⟩ =>
    refine ⟨events ++ before, after, known, key, ?_, h.trans hreads, hkey⟩
    rw [hevents, List.append_assoc]

omit [DecidableEq K] in
/-- What is not walked any more does not matter. -/
theorem Explains.stopped {stop : Stop K N} (h : Explains events loaded (.error stop)) :
    Explains (events ++ events') loaded (.error stop) := by
  match stop, h with
  | .cycle _, ⟨before, after, known, hevents, hreads⟩ =>
    refine ⟨before, after ++ events', known, ?_, hreads⟩
    rw [hevents, List.append_assoc]
    rfl
  | .collision _, ⟨before, after, known, key, hevents, hreads, hkey⟩ =>
    refine ⟨before, after ++ events', known, key, ?_, hreads, hkey⟩
    rw [hevents, List.append_assoc]
    rfl

/-- Below a settled key all names stand for their keys. -/
theorem unfold_settled (hsettled : Settled successors avoid loaded node.1)
    (hnode : loaded.lookup node.2 = some node.1)
    (habove : ∀ key ∈ above, ¬ ReflTransGen (Edge successors) node.1 key) :
    Reads (unfold successors fuel above node) loaded loaded := by
  refine ⟨fun _ _ h => h, ?_, fun _ _ h => .inl h⟩
  induction fuel generalizing node above with
  | zero => exact fun event hevent => by cases hevent
  | succ fuel ih =>
    intro event hevent
    rw [unfold, if_neg fun hmem => habove _ hmem .refl] at hevent
    rcases List.mem_cons.mp hevent with rfl | hevent
    · exact ⟨node, rfl, hnode⟩
    · obtain ⟨child, hchild, hevent⟩ := List.mem_flatMap.mp hevent
      have hedge : Edge successors node.1 child.1 := ⟨child.2, hchild⟩
      obtain ⟨-, hcycle, hnames⟩ := hsettled node.1 .refl
      refine ih (hsettled.of_reach (.single hedge)) (hnames child hchild) ?_ event hevent
      intro key hkey hreach
      rcases List.mem_cons.mp hkey with rfl | hkey
      · exact hcycle (TransGen.head' hedge hreach)
      · exact habove key hkey (hreach.head hedge)

omit [DecidableEq K] in
/-- Nothing active is below a settled key. -/
theorem Above.not_reach (h : Above successors avoid above key)
    (hsettled : Settled successors avoid loaded key) :
    ∀ active ∈ above, ¬ ReflTransGen (Edge successors) key active := by
  intro active hactive hreach
  obtain ⟨havoid, hcycle, -⟩ := hsettled active hreach
  rcases h active hactive with hmem | hback
  · exact havoid hmem
  · exact hcycle (hback.trans_left hreach)

theorem visitAll_events
    (hvisit : ∀ {search node result}, Sound successors avoid search →
      Above successors avoid search.active node.1 →
        visit successors fuel search node = some result →
          Explains (unfold successors fuel search.active node) search.loaded result)
    (hsearch : Sound successors avoid search)
    (habove : ∀ node ∈ nodes, Above successors avoid search.active node.1)
    (h : visitAll (visit successors fuel) nodes search = some result) :
    Explains (nodes.flatMap (unfold successors fuel search.active)) search.loaded result := by
  induction nodes generalizing search with
  | nil =>
    obtain rfl := Option.some.inj h
    exact Reads.nil _
  | cons node rest ih =>
    rw [List.flatMap_cons]
    have hnode := habove node List.mem_cons_self
    rw [visitAll] at h
    split at h
    case h_1 next hnext =>
      obtain ⟨hsound, hextends, -, -⟩ := visit_ok hsearch hnext
      have hreads : Reads _ search.loaded next.loaded := hvisit hsearch hnode hnext
      have hrest := ih hsound (fun node hmem => by
        rw [hextends.active]
        exact habove node (List.mem_cons_of_mem _ hmem)) h
      rw [hextends.active] at hrest
      exact hrest.after hreads
    case h_2 stopped hstopped =>
      cases result with
      | ok search' => exact absurd h (hstopped search')
      | error stop => exact (hvisit hsearch hnode h).stopped

/-- The search is the walk without memory up to where that first closes a cycle or uses a name
twice. -/
theorem visit_events (hsearch : Sound successors avoid search)
    (habove : Above successors avoid search.active node.1)
    (h : visit successors fuel search node = some result) :
    Explains (unfold successors fuel search.active node) search.loaded result := by
  induction fuel generalizing search node result with
  | zero => cases h
  | succ fuel ih =>
    rcases visit_cases h with ⟨hactive, rfl⟩ | ⟨hactive, hlookup, rfl⟩ |
      ⟨key, hactive, hlookup, hkey, rfl⟩ | ⟨inside, hactive, hlookup, hinside, rfl⟩
    · rw [unfold, if_pos hactive]
      exact ⟨[], [], search.loaded, rfl, Reads.nil _⟩
    · have hsettled := hsearch.settled _ _ hlookup hactive
      exact unfold_settled hsettled hlookup (habove.not_reach hsettled)
    · rw [unfold, if_neg hactive]
      exact ⟨[], _, search.loaded, key, rfl, Reads.nil _, hlookup, hkey⟩
    · rw [unfold, if_neg hactive]
      have hentered : Reads [.meets node] search.loaded (search.enter node).loaded := by
        refine ⟨fun _ _ => lookup_enter hlookup, fun event hevent => ?_, fun name key hkey => ?_⟩
        · exact ⟨node, List.mem_singleton.mp hevent, lookup_cons_iff.mpr (.inl ⟨rfl, rfl⟩)⟩
        · rcases lookup_cons_iff.mp hkey with ⟨rfl, rfl⟩ | ⟨-, hold⟩
          · exact .inr (List.mem_singleton.mpr rfl)
          · exact .inl hold
      have hchildren := visitAll_events (fun hs ha hv => ih hs ha hv) (hsearch.enter hlookup)
        (fun child hchild => habove.child hchild) hinside
      have hall := hchildren.after hentered
      match inside, hall with
      | .ok _, hall => exact hall
      | .error _, hall => exact hall

/-- Two keys are met under one name before a cycle closes. -/
def Collides (events : List (Event K N)) : Prop :=
  ∃ before node after key, events = before ++ .meets node :: after ∧ .closes ∉ before ∧
    .meets (key, node.2) ∈ before ∧ key ≠ node.1

omit [DecidableEq K] in
theorem Reads.closes_not_mem (h : Reads events loaded loaded') : Event.closes ∉ events := by
  intro hmem
  obtain ⟨node, hnode, -⟩ := h.met _ hmem
  cases hnode

omit [DecidableEq K] in
theorem Reads.lookup (h : Reads events loaded loaded') (hnode : .meets node ∈ events) :
    loaded'.lookup node.2 = some node.1 := by
  obtain ⟨node', hnode', hlookup⟩ := h.met _ hnode
  rw [Event.meets.inj hnode']
  exact hlookup

omit [DecidableEq K] in
theorem Reads.eq_of_meets (h : Reads events loaded loaded') (hnode : .meets node ∈ events)
    (hkey : .meets (key, node.2) ∈ events) : key = node.1 := by
  have hlookup := h.lookup hkey
  rw [h.lookup hnode] at hlookup
  exact (Option.some.inj hlookup).symm

omit [DecidableEq K] in
theorem Reads.not_collides (h : Reads events loaded loaded') : ¬ Collides events := by
  rintro ⟨before, node, after, key, rfl, -, hkey, hne⟩
  have hnode : Event.meets node ∈ before ++ .meets node :: after :=
    List.mem_append_right _ List.mem_cons_self
  exact hne (h.eq_of_meets hnode (List.mem_append_left _ hkey))

omit [DecidableEq K] in
/-- What comes behind the first cycle does not collide with what comes before it. -/
theorem Reads.not_collides_of_closes (h : Reads events loaded loaded') :
    ¬ Collides (events ++ .closes :: events') := by
  rintro ⟨before, node, after, key, hevents, hcloses, hkey, hne⟩
  rcases List.append_eq_append_iff.mp hevents with ⟨rest, hbefore, hrest⟩ | ⟨rest, hbefore, hrest⟩
  · cases rest with
    | nil => cases hrest
    | cons event rest =>
      obtain ⟨rfl, -⟩ := List.cons.inj hrest
      refine hcloses ?_
      rw [hbefore]
      exact List.mem_append_right _ List.mem_cons_self
  · cases rest with
    | nil => cases hrest
    | cons event rest =>
      obtain ⟨rfl, -⟩ := List.cons.inj hrest
      rw [hbefore] at h
      exact hne (h.eq_of_meets (List.mem_append_right _ List.mem_cons_self)
        (List.mem_append_left _ hkey))

omit [DecidableEq K] in
/-- A walk from nothing stops at a collision exactly where two keys are met under one name. -/
theorem Explains.collides_iff (h : Explains events [] result) :
    (∃ node, result = .error (.collision node)) ↔ Collides events := by
  match result, h with
  | .ok search, hreads =>
    have hreads : Reads events [] search.loaded := hreads
    exact ⟨fun ⟨_, hresult⟩ => (by cases hresult), fun h => absurd h hreads.not_collides⟩
  | .error (.cycle _), ⟨_, _, _, hevents, hreads⟩ =>
    refine ⟨fun ⟨_, hresult⟩ => (by cases hresult), fun h => ?_⟩
    rw [hevents] at h
    exact absurd h hreads.not_collides_of_closes
  | .error (.collision node), ⟨before, after, known, key, hevents, hreads, hkey, hne⟩ =>
    refine ⟨fun _ => ⟨before, node, after, key, hevents, hreads.closes_not_mem, ?_, hne⟩,
      fun _ => ⟨node, rfl⟩⟩
    exact (hreads.new _ _ hkey).resolve_left fun hnil => by cases hnil

omit [DecidableEq N] in
/-- What is met is the node itself or what a key below it leads to. -/
theorem mem_unfold {met : K × N} (h : .meets met ∈ unfold successors fuel above node) :
    met = node ∨ ∃ key, ReflTransGen (Edge successors) node.1 key ∧ met ∈ successors key := by
  induction fuel generalizing above node with
  | zero => cases h
  | succ fuel ih =>
    rw [unfold] at h
    split at h
    · cases List.mem_singleton.mp h
    · rcases List.mem_cons.mp h with hmet | h
      · exact .inl (Event.meets.inj hmet)
      · obtain ⟨child, hchild, h⟩ := List.mem_flatMap.mp h
        rcases ih h with rfl | ⟨key, hreach, hmet⟩
        · exact .inr ⟨node.1, .refl, hchild⟩
        · exact .inr ⟨key, hreach.head ⟨child.2, hchild⟩, hmet⟩

omit [DecidableEq N] in
/-- Over finitely many keys more fuel adds nothing to the walk. -/
theorem unfold_fuel {keys : List K}
    (hclosed : ∀ key ∈ keys, key ∉ above → ∀ child ∈ successors key, child.1 ∈ keys)
    (hnode : node.1 ∈ keys) (habove : ∀ key ∈ above, key ∈ keys) (hnodup : above.Nodup)
    (hfuel : keys.length < fuel + above.length) :
    unfold successors (fuel + 1) above node = unfold successors fuel above node := by
  induction fuel generalizing above node with
  | zero =>
    have hle := (hnodup.subperm habove).length_le
    omega
  | succ fuel ih =>
    rw [unfold, unfold]
    by_cases hout : node.1 ∈ above
    · rw [if_pos hout, if_pos hout]
    · rw [if_neg hout, if_neg hout]
      refine congrArg (Event.meets node :: ·) (List.flatMap_congr fun child hchild => ?_)
      refine ih ?_ (hclosed _ hnode hout child hchild) ?_ (List.nodup_cons.mpr ⟨hout, hnodup⟩) ?_
      · exact fun key hkey habove => hclosed key hkey fun hmem =>
          habove (List.mem_cons_of_mem _ hmem)
      · intro key hkey
        rcases List.mem_cons.mp hkey with rfl | hkey
        · exact hnode
        · exact habove key hkey
      · rw [List.length_cons]
        omega

end Events

end Walk

omit [DecidableEq N] in
/-- A key stands once in the order if it was entered under one name. -/
theorem count_fst_eq_one_iff [DecidableEq K] {order : List (K × N)} (h : order.Nodup) :
    (order.map Prod.fst).count key = 1 ↔ ∃! name, (key, name) ∈ order := by
  have hcount : (order.map Prod.fst).count key =
      (order.filter fun node => node.1 = key).length := by
    rw [List.count, List.countP_map, List.countP_eq_length_filter]
    refine congrArg List.length (List.filter_congr fun node _ => ?_)
    exact beq_eq_decide node.1 key
  have hmem : ∀ node, node ∈ order.filter (fun node => node.1 = key) ↔
      node ∈ order ∧ node.1 = key := by simp
  rw [hcount, List.length_eq_one_iff]
  constructor
  · rintro ⟨⟨key', name⟩, hone⟩
    rw [hone] at hmem
    obtain ⟨horder, rfl⟩ := (hmem (key', name)).mp List.mem_cons_self
    refine ⟨name, horder, fun name' hname' => ?_⟩
    have hsame := List.mem_singleton.mp ((hmem (key', name')).mpr ⟨hname', rfl⟩)
    exact (Prod.mk.inj hsame).2
  · rintro ⟨name, hname, hunique⟩
    refine ⟨(key, name), List.perm_singleton.mp ?_⟩
    refine (List.perm_ext_iff_of_nodup (h.filter _) (List.nodup_singleton _)).mpr fun node => ?_
    rw [hmem, List.mem_singleton]
    constructor
    · rintro ⟨horder, rfl⟩
      exact Prod.ext rfl (hunique node.2 horder)
    · rintro rfl
      exact ⟨hname, rfl⟩

/-- Before anything is entered. -/
def Search.start (avoid : List K) : Search K N := ⟨[], avoid, []⟩

theorem Sound.start : Sound successors avoid (Search.start avoid) where
  avoided _ h := h
  settled _ _ h := by cases h
  ordered _ _ h := by cases h
  listed _ h := by cases h
  names := List.nodup_nil
  sorted before node after h := by
    have hlength := congrArg List.length h
    simp [Search.start] at hlength

end Quilon.DepthFirst
