import Quilon.Runtime.Collections

/-!
# Maps and sets as finite maps and finite sets

Keys modulo the language's equality are the classes of `hashKeys` (`keyOf_eq_iff`).  Over them each
operation is the one on finite maps and sets (`step_model`), what a header shows is what its finite
map has (`shows_toFinmap`), and `each` visits what was there when it started (`mapEach_calls`).
-/

namespace Quilon.Collections

variable {User V State : Type} {users : UserKeys User} {finish : UInt8 → Written → UInt64}

/-! ### Keys modulo equality -/

/-- Equal keys of the language. -/
def SameKey (users : UserKeys User) : Key User → Key User → Prop
  | .num bits, .num bits' => SameNum bits bits'
  | .text bytes, .text bytes' => bytes = bytes'
  | .bool b, .bool b' => b = b'
  | .user value, .user value' => users.eq value value' = true
  | _, _ => False

abbrev KeyClass (users : UserKeys User) (finish : UInt8 → Written → UInt64) : Type :=
  (hashKeys users finish).Class

def keyOf (users : UserKeys User) (finish : UInt8 → Written → UInt64) (key : Key User) :
    KeyClass users finish :=
  (hashKeys users finish).classOf (QnKey.new key)

theorem keyOf_eq_iff {key key' : Key User} :
    keyOf users finish key = keyOf users finish key' ↔ SameKey users key key' := by
  unfold keyOf
  rw [HashKeys.classOf_eq_iff]
  show eq users _ _ = true ↔ _
  rw [eq_iff]
  cases key with
  | num bits =>
    cases key' with
    | num bits' => exact canonicalNumBits_eq_iff
    | text => exact Iff.rfl
    | bool => exact Iff.rfl
    | user => exact Iff.rfl
  | text => cases key' <;> exact Iff.rfl
  | bool => cases key' <;> exact Iff.rfl
  | user => cases key' <;> exact Iff.rfl

/-- The key that comes back is the one that went in. -/
theorem keyOf_toKey (key : QnKey User) :
    keyOf users finish key.toKey = (hashKeys users finish).classOf key := by
  cases key with
  | num bits canonical =>
    have heq : eq users (QnKey.new (QnKey.num bits canonical).toKey) (.num bits canonical) = true :=
      eq_iff.mpr canonical
    exact HashKeys.classOf_eq_iff.mpr heq
  | text => rfl
  | bool => rfl
  | user => rfl

/-! ### The finite maps and sets of a program -/

structure Model (users : UserKeys User) (finish : UInt8 → Written → UInt64) (V : Type) where
  maps : List (Finmap fun _ : KeyClass users finish => V)
  sets : List (Finset (KeyClass users finish))

namespace Model

def empty : Model users finish V := ⟨[], []⟩

def combine (model : Model users finish V) (left right : Nat)
    (operator : Finset (KeyClass users finish) → Finset (KeyClass users finish) →
      Finset (KeyClass users finish)) : Option (Model users finish V) := do
  let leftSet ← model.sets[left]?
  let rightSet ← model.sets[right]?
  return { model with sets := model.sets ++ [operator leftSet rightSet] }

def step (model : Model users finish V) : Operation User V → Option (Model users finish V)
  | .mapLiteral entries =>
    let map := entries.foldl (fun map entry => map.insert (keyOf users finish entry.1) entry.2) ∅
    some { model with maps := model.maps ++ [map] }
  | .set index key value => do
    let map ← model.maps[index]?
    return { model with maps := model.maps.set index (map.insert (keyOf users finish key) value) }
  | .removeFromMap index key => do
    let map ← model.maps[index]?
    return { model with maps := model.maps.set index (map.erase (keyOf users finish key)) }
  | .setLiteral elements =>
    some { model with sets := model.sets ++ [(elements.map (keyOf users finish)).toFinset] }
  | .add index key => do
    let set ← model.sets[index]?
    return { model with sets := model.sets.set index (insert (keyOf users finish key) set) }
  | .removeFromSet index key => do
    let set ← model.sets[index]?
    return { model with sets := model.sets.set index (set.erase (keyOf users finish key)) }
  | .union left right => model.combine left right (· ∪ ·)
  | .difference left right => model.combine left right (· \ ·)
  | .intersection left right => model.combine left right (· ∩ ·)

def run (model : Model users finish V) : List (Operation User V) → Option (Model users finish V)
  | [] => some model
  | operation :: rest => do
    let model ← model.step operation
    model.run rest

end Model

/-- What a header stands for. -/
def Header.toFinmap (header : Header users finish V) : Finmap fun _ : KeyClass users finish => V :=
  header.table.toFinmap

def Header.toFinset (header : Header users finish Unit) : Finset (KeyClass users finish) :=
  header.table.toFinset

/-- What a heap stands for. -/
def Heap.model (heap : Heap users finish V) : Model users finish V :=
  ⟨heap.maps.map Header.toFinmap, heap.sets.map Header.toFinset⟩

/-! ### One operation -/

/-- The check of a user key finds nothing: `%` and `==` agree. -/
theorem debugCheckUserKey_eq_true (existing : List (QnKey User)) (key : QnKey User) :
    debugCheckUserKey users existing key = true := by
  cases key with
  | num => rfl
  | text => rfl
  | bool => rfl
  | user new =>
    show existing.all _ = true
    rw [List.all_eq_true]
    intro present _
    cases present with
    | num => rfl
    | text => rfl
    | bool => rfl
    | user value =>
      show (!(users.eq new value && userHashBits users new != userHashBits users value)) = true
      cases heq : users.eq new value with
      | false => rfl
      | true =>
        have hbits : userHashBits users new = userHashBits users value :=
          canonicalNumBits_eq_iff.mpr (users.hash_congr heq)
        rw [hbits, bne_self_eq_false]
        rfl

theorem insertKey_eq (debug : Bool) (order : Order (QnKey User × V))
    (header : Header users finish V) (key : Key User) (value : V) :
    insertKey debug order header key value =
      some (refreshSnapshot order (header.table.insert (QnKey.new key) value)) := by
  unfold insertKey
  dsimp only
  rw [debugCheckUserKey_eq_true, Bool.not_true, Bool.and_false, if_neg Bool.false_ne_true]

theorem toFinmap_insertKey {debug : Bool} {order : Order (QnKey User × V)}
    {header header' : Header users finish V} {key : Key User} {value : V}
    (h : insertKey debug order header key value = some header') :
    header'.toFinmap = header.toFinmap.insert (keyOf users finish key) value := by
  rw [insertKey_eq] at h
  rw [← Option.some.inj h]
  exact HashTable.toFinmap_insert _ _ _

theorem toFinmap_removeKey (order : Order (QnKey User × V)) (header : Header users finish V)
    (key : Key User) :
    (removeKey order header key).toFinmap = header.toFinmap.erase (keyOf users finish key) :=
  HashTable.toFinmap_remove _ _

theorem toFinset_insertKey {debug : Bool} {order : Order (QnKey User × Unit)}
    {header header' : Header users finish Unit} {key : Key User}
    (h : insertKey debug order header key () = some header') :
    header'.toFinset = insert (keyOf users finish key) header.toFinset := by
  rw [insertKey_eq] at h
  rw [← Option.some.inj h]
  exact HashTable.toFinset_insert _ _

theorem toFinset_removeKey (order : Order (QnKey User × Unit)) (header : Header users finish Unit)
    (key : Key User) :
    (removeKey order header key).toFinset = header.toFinset.erase (keyOf users finish key) :=
  HashTable.toFinset_remove _ _

theorem toFinmap_mapLiteral (debug : Bool) (order : Order (QnKey User × V))
    (entries : List (Key User × V)) :
    (mapLiteral debug order entries : Option (Header users finish V)).map Header.toFinmap =
      some (entries.foldl (fun map entry => map.insert (keyOf users finish entry.1) entry.2)
        ∅) := by
  have hentries : ∀ header : Header users finish V,
      (entries.foldlM (fun header entry => mapSet debug order header entry.1 entry.2) header).map
          Header.toFinmap =
        some (entries.foldl (fun map entry => map.insert (keyOf users finish entry.1) entry.2)
          header.toFinmap) := by
    induction entries with
    | nil => exact fun _ => rfl
    | cons entry rest ih =>
      intro header
      have hfirst := insertKey_eq debug order header entry.1 entry.2
      rw [List.foldlM_cons, mapSet, hfirst, Option.bind_eq_bind, Option.bind_some, ih,
        toFinmap_insertKey hfirst, List.foldl_cons]
  exact hentries (mapNew order)

theorem toFinset_setLiteral (debug : Bool) (order : Order (QnKey User × Unit))
    (elements : List (Key User)) :
    (setLiteral debug order elements : Option (Header users finish Unit)).map Header.toFinset =
      some (elements.map (keyOf users finish)).toFinset := by
  have helements : ∀ header : Header users finish Unit,
      (elements.foldlM (setAdd debug order) header).map Header.toFinset =
        some (header.toFinset ∪ (elements.map (keyOf users finish)).toFinset) := by
    induction elements with
    | nil =>
      intro header
      rw [List.map_nil, List.toFinset_nil, Finset.union_empty]
      rfl
    | cons key rest ih =>
      intro header
      have hfirst := insertKey_eq debug order header key ()
      rw [List.foldlM_cons, setAdd, hfirst, Option.bind_eq_bind, Option.bind_some, ih,
        toFinset_insertKey hfirst, List.map_cons, List.toFinset_cons, Finset.insert_union,
        Finset.union_insert]
  have hnew : (setNew order : Header users finish Unit).toFinset = ∅ := rfl
  rw [setLiteral, helements, hnew, Finset.empty_union]

theorem toFinset_setUnion (order : Order (QnKey User × Unit))
    (left right : Header users finish Unit) :
    (setUnion order left right).toFinset = left.toFinset ∪ right.toFinset := by
  ext q
  rw [Finset.mem_union]
  show q ∈ (left.table.insertAll _).toFinset ↔ q ∈ left.table.toFinset ∨ q ∈ right.table.toFinset
  rw [HashTable.mem_insertAll, @HashTable.mem_toFinset _ _ _ right.table]
  simp only [(order.perm right.table.entries).mem_iff]

theorem mem_setFilter (order : Order (QnKey User × Unit)) (left right : Header users finish Unit)
    (keepPresent : Bool) {q : KeyClass users finish} :
    q ∈ (setFilter order left right keepPresent).toFinset ↔
      q ∈ left.toFinset ∧ (q ∈ right.toFinset ↔ keepPresent = true) := by
  have hcontains : ∀ key : QnKey User, right.table.contains key = true ↔
      (hashKeys users finish).classOf key ∈ right.toFinset := fun key =>
    HashTable.contains_iff.trans Finmap.mem_keys.symm
  show q ∈ (HashTable.empty.insertAll _).toFinset ↔ q ∈ left.table.toFinset ∧ _
  have hempty : q ∉ (HashTable.empty : Table users finish Unit).toFinset := Finset.notMem_empty q
  rw [HashTable.mem_insertAll, @HashTable.mem_toFinset _ _ _ left.table]
  constructor
  · rintro (hmem | ⟨entry, hentry, rfl⟩)
    · exact absurd hmem hempty
    · obtain ⟨hmem, hkept⟩ := List.mem_filter.mp hentry
      refine ⟨⟨entry, (order.perm _).mem_iff.mp hmem, rfl⟩, ?_⟩
      rw [← hcontains, beq_iff_eq.mp hkept]
  · rintro ⟨⟨entry, hmem, rfl⟩, hkept⟩
    refine .inr ⟨entry, List.mem_filter.mpr ⟨(order.perm _).mem_iff.mpr hmem, ?_⟩, rfl⟩
    rw [← hcontains] at hkept
    exact beq_iff_eq.mpr (Bool.eq_iff_iff.mpr hkept)

theorem toFinset_setDiff (order : Order (QnKey User × Unit))
    (left right : Header users finish Unit) :
    (setDiff order left right).toFinset = left.toFinset \ right.toFinset := by
  ext q
  rw [Finset.mem_sdiff, setDiff, mem_setFilter]
  simp

theorem toFinset_setIntersect (order : Order (QnKey User × Unit))
    (left right : Header users finish Unit) :
    (setIntersect order left right).toFinset = left.toFinset ∩ right.toFinset := by
  ext q
  rw [Finset.mem_inter, setIntersect, mem_setFilter]
  simp

theorem model_combine (heap : Heap users finish V) (left right : Nat)
    {operator : Header users finish Unit → Header users finish Unit → Header users finish Unit}
    {operator' : Finset (KeyClass users finish) → Finset (KeyClass users finish) →
      Finset (KeyClass users finish)}
    (hoperator : ∀ left right, (operator left right).toFinset =
      operator' left.toFinset right.toFinset) :
    (combine heap left right operator).map Heap.model =
      heap.model.combine left right operator' := by
  have hset : ∀ i : Nat, heap.model.sets[i]? = heap.sets[i]?.map Header.toFinset := fun i =>
    List.getElem?_map
  unfold combine Model.combine
  rw [hset, hset]
  cases heap.sets[left]? with
  | none => rfl
  | some leftSet =>
    cases heap.sets[right]? with
    | none => rfl
    | some rightSet =>
      show some (Heap.model _) = some _
      unfold Heap.model
      dsimp only
      rw [List.map_append, List.map_singleton, hoperator]

/-- Each operation is the one on finite maps and sets. -/
theorem step_model (debug : Bool) (orders : Orders User V) (heap : Heap users finish V)
    (operation : Operation User V) :
    (step debug orders heap operation).map Heap.model = heap.model.step operation := by
  have hmap : ∀ i : Nat, heap.model.maps[i]? = heap.maps[i]?.map Header.toFinmap := fun i =>
    List.getElem?_map
  have hset : ∀ i : Nat, heap.model.sets[i]? = heap.sets[i]?.map Header.toFinset := fun i =>
    List.getElem?_map
  cases operation with
  | mapLiteral entries =>
    have hliteral := @toFinmap_mapLiteral _ _ users finish debug orders.maps entries
    obtain ⟨header, hheader, hmade⟩ := Option.map_eq_some_iff.mp hliteral
    unfold step Model.step
    dsimp only
    rw [hheader, ← hmade]
    show some (Heap.model _) = some _
    unfold Heap.model
    dsimp only
    rw [List.map_append, List.map_singleton]
  | set index key value =>
    unfold step Model.step
    dsimp only
    rw [hmap]
    cases heap.maps[index]? with
    | none => rfl
    | some header =>
      have hkey := insertKey_eq debug orders.maps header key value
      show (Option.bind (mapSet _ _ _ _ _) _).map _ = some _
      rw [mapSet, hkey, Option.bind_some]
      show some (Heap.model _) = some _
      unfold Heap.model
      dsimp only
      rw [List.map_set, toFinmap_insertKey hkey]
  | removeFromMap index key =>
    unfold step Model.step
    dsimp only
    rw [hmap]
    cases heap.maps[index]? with
    | none => rfl
    | some header =>
      show some (Heap.model _) = some _
      unfold Heap.model
      dsimp only
      rw [List.map_set, mapRemove, toFinmap_removeKey]
  | setLiteral elements =>
    have hliteral := @toFinset_setLiteral _ users finish debug orders.sets elements
    obtain ⟨header, hheader, hmade⟩ := Option.map_eq_some_iff.mp hliteral
    unfold step Model.step
    dsimp only
    rw [hheader, ← hmade]
    show some (Heap.model _) = some _
    unfold Heap.model
    dsimp only
    rw [List.map_append, List.map_singleton]
  | add index key =>
    unfold step Model.step
    dsimp only
    rw [hset]
    cases heap.sets[index]? with
    | none => rfl
    | some header =>
      have hkey := insertKey_eq debug orders.sets header key ()
      show (Option.bind (setAdd _ _ _ _) _).map _ = some _
      rw [setAdd, hkey, Option.bind_some]
      show some (Heap.model _) = some _
      unfold Heap.model
      dsimp only
      rw [List.map_set, toFinset_insertKey hkey]
  | removeFromSet index key =>
    unfold step Model.step
    dsimp only
    rw [hset]
    cases heap.sets[index]? with
    | none => rfl
    | some header =>
      show some (Heap.model _) = some _
      unfold Heap.model
      dsimp only
      rw [List.map_set, setRemove, toFinset_removeKey]
  | union left right => exact model_combine heap left right (toFinset_setUnion orders.sets)
  | difference left right => exact model_combine heap left right (toFinset_setDiff orders.sets)
  | intersection left right =>
    exact model_combine heap left right (toFinset_setIntersect orders.sets)

theorem run_model (debug : Bool) (heap : Heap users finish V)
    (operations : List (Orders User V × Operation User V)) :
    (run debug heap operations).map Heap.model =
      heap.model.run (operations.map Prod.snd) := by
  induction operations generalizing heap with
  | nil => rfl
  | cons first rest ih =>
    have hstep := step_model debug first.1 heap first.2
    rw [List.map_cons, Model.run, ← hstep]
    show (Option.bind (step debug first.1 heap first.2) _).map _ = _
    cases step debug first.1 heap first.2 with
    | none => rfl
    | some heap' => exact ih heap'

/-! ### What a header shows -/

/-- Reading all the places of a list. -/
theorem mapM_range {A B : Type} (list : List A) (f : A → B) :
    (List.range list.length).mapM (fun i => list[i]?.map f) = some (list.map f) := by
  have htake : ∀ n ≤ list.length,
      (List.range n).mapM (fun i => list[i]?.map f) = some ((list.take n).map f) := by
    intro n hn
    induction n with
    | zero => rfl
    | succ n ih =>
      have hread : list[n]?.map f = some (f (list.get ⟨n, hn⟩)) := by
        rw [List.getElem?_eq_getElem hn]
        rfl
      rw [List.range_succ, List.mapM_append, ih (by omega), List.mapM_cons, hread,
        List.take_succ_eq_append_getElem hn, List.map_append]
      rfl
  rw [htake _ (Nat.le_refl _), List.take_length]

theorem len_eq (header : Header users finish V) : header.len = header.snapshot.length := by
  rw [header.counts, header.mirrors.length_eq]

theorem keyArray_eq (header : Header users finish V) :
    keyArray header = some (header.snapshot.map fun entry => entry.1.toKey) := by
  unfold keyArray mapLen
  rw [len_eq]
  exact mapM_range header.snapshot fun entry => entry.1.toKey

theorem valuesArray_eq (header : Header users finish V) :
    valuesArray header = some (header.snapshot.map Prod.snd) := by
  unfold valuesArray mapLen
  rw [len_eq]
  exact mapM_range header.snapshot Prod.snd

/-- An entry under its key modulo equality. -/
def entryOf (users : UserKeys User) (finish : UInt8 → Written → UInt64) (entry : Key User × V) :
    Sigma fun _ : KeyClass users finish => V :=
  ⟨keyOf users finish entry.1, entry.2⟩

/-- The header shows the finite map. -/
structure Shows (header : Header users finish V)
    (map : Finmap fun _ : KeyClass users finish => V) : Prop where
  get : ∀ key, mapGet header key = map.lookup (keyOf users finish key)
  has : ∀ key, mapHas header key = true ↔ keyOf users finish key ∈ map
  size : mapLen header = map.keys.card
  arrays : ∃ keys values, keyArray header = some keys ∧ valuesArray header = some values ∧
    keys.length = values.length ∧
      (((keys.zip values).map (entryOf users finish) : List _) : Multiset _) = map.entries

/-- The header shows the finite set. -/
structure ShowsSet (header : Header users finish Unit) (set : Finset (KeyClass users finish)) :
    Prop where
  has : ∀ key, setHas header key = true ↔ keyOf users finish key ∈ set
  size : setLen header = set.card
  items : ∃ items, itemsArray header = some items ∧
    ((items.map (keyOf users finish) : List _) : Multiset _) = set.val

theorem snapshot_entries (header : Header users finish V) :
    ((header.snapshot.map fun entry => entryOf users finish (entry.1.toKey, entry.2) : List _) :
      Multiset _) = header.toFinmap.entries := by
  have hentry : (fun entry : QnKey User × V => entryOf users finish (entry.1.toKey, entry.2)) =
      fun entry => ⟨(hashKeys users finish).classOf entry.1, entry.2⟩ := by
    funext entry
    unfold entryOf
    rw [keyOf_toKey]
  rw [hentry]
  exact Multiset.coe_eq_coe.mpr (header.mirrors.map _)

theorem shows_toFinmap (header : Header users finish V) : Shows header header.toFinmap where
  get key := HashTable.get?_eq_lookup header.table (QnKey.new key)
  has key := HashTable.contains_iff
  size := header.counts.trans (HashTable.length_entries header.table)
  arrays := by
    refine ⟨_, _, keyArray_eq header, valuesArray_eq header, ?_, ?_⟩
    · rw [List.length_map, List.length_map]
    · rw [← snapshot_entries, List.zip_map', List.map_map]
      rfl

theorem showsSet_toFinset (header : Header users finish Unit) :
    ShowsSet header header.toFinset where
  has key := HashTable.contains_iff.trans Finmap.mem_keys.symm
  size := header.counts.trans (HashTable.length_entries header.table)
  items := by
    refine ⟨_, keyArray_eq header, ?_⟩
    show _ = header.toFinmap.entries.keys
    rw [← snapshot_entries, Multiset.coe_keys, List.map_map]
    unfold List.keys
    rw [List.map_map]
    rfl

/-! ### `each` -/

variable {A : Type}

theorem callEach_calls (callback : A → State → Option State) (buffer : List A) (state : State) :
    (callEach callback buffer state).1 <+: buffer ∧
      ((callEach callback buffer state).2.isSome →
        (callEach callback buffer state).1 = buffer) := by
  induction buffer generalizing state with
  | nil => exact ⟨List.prefix_refl _, fun _ => rfl⟩
  | cons entry rest ih =>
    rw [callEach]
    cases callback entry state with
    | none =>
      refine ⟨⟨rest, rfl⟩, fun h => ?_⟩
      cases h
    | some state' =>
      obtain ⟨hbegins, hall⟩ := ih state'
      exact ⟨List.cons_prefix_cons.mpr ⟨rfl, hbegins⟩, fun h => congrArg (entry :: ·) (hall h)⟩

theorem mapEach_calls {prepare : Heap users finish V × State →
      Option ((Key User × V → Heap users finish V × State → Option (Heap users finish V × State)) ×
        (Heap users finish V × State))}
    {map : Nat} {state state' : Heap users finish V × State} {header : Header users finish V}
    {callback : Key User × V → Heap users finish V × State → Option (Heap users finish V × State)}
    (hprepare : prepare state = some (callback, state'))
    (hheader : state'.1.maps[map]? = some header) :
    mapEach prepare map state =
      callEach callback (header.snapshot.map fun entry => (entry.1.toKey, entry.2)) state' := by
  have hread : ∀ i : Nat, (do
      let key ← mapKey header i
      let value ← mapVal header i
      return (key, value)) = header.snapshot[i]?.map fun entry => (entry.1.toKey, entry.2) := by
    intro i
    unfold mapKey mapVal
    cases header.snapshot[i]? <;> rfl
  unfold mapEach eachEntry
  rw [hprepare]
  dsimp only
  rw [hheader, Option.bind_eq_bind, Option.bind_some, funext hread, mapLen, len_eq, mapM_range]

theorem setEach_calls {prepare : Heap users finish V × State →
      Option ((Key User → Heap users finish V × State → Option (Heap users finish V × State)) ×
        (Heap users finish V × State))}
    {set : Nat} {state state' : Heap users finish V × State} {header : Header users finish Unit}
    {callback : Key User → Heap users finish V × State → Option (Heap users finish V × State)}
    (hprepare : prepare state = some (callback, state'))
    (hheader : state'.1.sets[set]? = some header) :
    setEach prepare set state =
      callEach callback (header.snapshot.map fun entry => entry.1.toKey) state' := by
  have hitems : (List.range (setLen header)).mapM (setItem header) = _ := keyArray_eq header
  unfold setEach eachEntry
  rw [hprepare]
  dsimp only
  rw [hheader, Option.bind_eq_bind, Option.bind_some, hitems]

/-! ### Programs -/

/-- The heap shows the finite maps and sets. -/
structure Agree (heap : Heap users finish V) (model : Model users finish V) : Prop where
  maps : List.Forall₂ Shows heap.maps model.maps
  sets : List.Forall₂ ShowsSet heap.sets model.sets

theorem agree_model (heap : Heap users finish V) : Agree heap heap.model where
  maps :=
    List.forall₂_map_right_iff.mpr (List.forall₂_same.mpr fun header _ => shows_toFinmap header)
  sets :=
    List.forall₂_map_right_iff.mpr (List.forall₂_same.mpr fun header _ => showsSet_toFinset header)

/-- The header that shows a finite map. -/
theorem Agree.map {heap : Heap users finish V} {model : Model users finish V}
    (h : Agree heap model) {index : Nat} {map : Finmap fun _ : KeyClass users finish => V}
    (hmap : model.maps[index]? = some map) :
    ∃ header, heap.maps[index]? = some header ∧ header.toFinmap.entries = map.entries := by
  obtain ⟨hindex, rfl⟩ := List.getElem?_eq_some_iff.mp hmap
  have hlength := h.maps.length_eq
  have hshows := h.maps.get (by omega) hindex
  refine ⟨_, List.getElem?_eq_getElem (by omega), ?_⟩
  obtain ⟨keys, values, hkeys, hvalues, -, hentries⟩ := hshows.arrays
  obtain ⟨keys', values', hkeys', hvalues', -, hentries'⟩ := (shows_toFinmap _).arrays
  rw [List.get_eq_getElem] at hkeys hvalues
  rw [hkeys'] at hkeys
  rw [hvalues'] at hvalues
  rw [← hentries', Option.some.inj hkeys, Option.some.inj hvalues]
  exact hentries

theorem Agree.set {heap : Heap users finish V} {model : Model users finish V}
    (h : Agree heap model) {index : Nat} {set : Finset (KeyClass users finish)}
    (hset : model.sets[index]? = some set) :
    ∃ header, heap.sets[index]? = some header ∧ header.toFinset = set := by
  obtain ⟨hindex, rfl⟩ := List.getElem?_eq_some_iff.mp hset
  have hlength := h.sets.length_eq
  have hshows := h.sets.get (by omega) hindex
  refine ⟨_, List.getElem?_eq_getElem (by omega), ?_⟩
  obtain ⟨items, hitems, hall⟩ := hshows.items
  obtain ⟨items', hitems', hall'⟩ := (showsSet_toFinset _).items
  rw [List.get_eq_getElem] at hitems
  rw [hitems'] at hitems
  rw [Option.some.inj hitems] at hall'
  exact Finset.val_injective (hall'.symm.trans hall)

/-- `+`, `-` and `+-` -/
def Operation.isOperator : Operation User V → Bool
  | .union _ _ | .difference _ _ | .intersection _ _ => true
  | _ => false

theorem step_operator {debug : Bool} {orders : Orders User V} {heap heap' : Heap users finish V}
    {operation : Operation User V} (hoperator : operation.isOperator = true)
    (h : step debug orders heap operation = some heap') :
    heap'.maps = heap.maps ∧ ∃ made, heap'.sets = heap.sets ++ [made] := by
  have hcombine : ∀ left right operator, combine heap left right operator = some heap' →
      heap'.maps = heap.maps ∧ ∃ made, heap'.sets = heap.sets ++ [made] := by
    intro left right operator hmade
    obtain ⟨leftSet, -, hmade⟩ := Option.bind_eq_some_iff.mp hmade
    obtain ⟨rightSet, -, hmade⟩ := Option.bind_eq_some_iff.mp hmade
    rw [← Option.some.inj hmade]
    exact ⟨rfl, _, rfl⟩
  cases operation with
  | union left right => exact hcombine left right _ h
  | difference left right => exact hcombine left right _ h
  | intersection left right => exact hcombine left right _ h
  | _ => cases hoperator

/-- Maps and sets are finite maps and finite sets over the keys modulo equality: after any
operations they show what the same operations make of these, the set operators change no table, and
`each` calls its callback once for each entry that was there. -/
theorem collections_refine (users : UserKeys User) (finish : UInt8 → Written → UInt64)
    (debug : Bool) :
    (∀ key key', keyOf users finish key = keyOf users finish key' ↔ SameKey users key key') ∧
    (∀ operations : List (Orders User V × Operation User V),
      Option.Rel Agree (run debug (Heap.empty : Heap users finish V) operations)
        (Model.empty.run (operations.map Prod.snd))) ∧
    (∀ (orders : Orders User V) (heap heap' : Heap users finish V) (operation : Operation User V),
      operation.isOperator = true → step debug orders heap operation = some heap' →
        heap'.maps = heap.maps ∧ ∃ made, heap'.sets = heap.sets ++ [made]) ∧
    (∀ prepare index (state : Heap users finish V × State) callback state'
        (model : Model users finish V) map,
      prepare state = some (callback, state') → Agree state'.1 model →
        model.maps[index]? = some map →
          let each := mapEach prepare index state
          (((each.1.map (entryOf users finish)) : List _) : Multiset _) ≤ map.entries ∧
            (each.2.isSome →
              (((each.1.map (entryOf users finish)) : List _) : Multiset _) = map.entries)) ∧
    (∀ prepare index (state : Heap users finish V × State) callback state'
        (model : Model users finish V) set,
      prepare state = some (callback, state') → Agree state'.1 model →
        model.sets[index]? = some set →
          let each := setEach prepare index state
          (((each.1.map (keyOf users finish)) : List _) : Multiset _) ≤ set.val ∧
            (each.2.isSome →
              (((each.1.map (keyOf users finish)) : List _) : Multiset _) = set.val)) := by
  refine ⟨fun _ _ => keyOf_eq_iff, ?_, fun _ _ _ _ => step_operator, ?_, ?_⟩
  · intro operations
    have hrun := run_model debug (Heap.empty : Heap users finish V) operations
    have hempty : (Heap.empty : Heap users finish V).model = Model.empty := rfl
    rw [← hempty, ← hrun]
    cases run debug (Heap.empty : Heap users finish V) operations with
    | none => exact .none
    | some heap => exact .some (agree_model heap)
  · intro prepare index state callback state' model map hprepare hagree hmap
    obtain ⟨header, hheader, hentries⟩ := hagree.map hmap
    have heach := mapEach_calls hprepare hheader
    obtain ⟨hcalls, hall⟩ := callEach_calls callback
      (header.snapshot.map fun entry => (entry.1.toKey, entry.2)) state'
    have hsnapshot := snapshot_entries header
    rw [← hentries, ← hsnapshot]
    dsimp only
    rw [heach]
    have hmapped : header.snapshot.map
          (fun entry => entryOf users finish (entry.1.toKey, entry.2)) =
        (header.snapshot.map fun entry => (entry.1.toKey, entry.2)).map (entryOf users finish) := by
      rw [List.map_map]
      rfl
    rw [hmapped]
    refine ⟨?_, fun hreturns => by rw [hall hreturns]⟩
    exact Multiset.coe_le.mpr (hcalls.map _).sublist.subperm
  · intro prepare index state callback state' model set hprepare hagree hset
    obtain ⟨header, hheader, rfl⟩ := hagree.set hset
    have heach := setEach_calls hprepare hheader
    obtain ⟨hcalls, hall⟩ := callEach_calls callback
      (header.snapshot.map fun entry => entry.1.toKey) state'
    obtain ⟨items, hitems, hvalues⟩ := (showsSet_toFinset header).items
    have hsnapshot : itemsArray header = _ := keyArray_eq header
    rw [hsnapshot] at hitems
    dsimp only
    rw [heach, ← hvalues, ← Option.some.inj hitems]
    refine ⟨?_, fun hreturns => by rw [hall hreturns]⟩
    exact Multiset.coe_le.mpr (hcalls.map _).sublist.subperm

/-- Numbers that are equal if both are odd or neither is. -/
def parityKeys : UserKeys Nat where
  hash n := if n % 2 = 0 then 0 else nanBits
  eq n m := n % 2 == m % 2
  eq_refl _ := beq_self_eq_true _
  eq_symm h := beq_iff_eq.mpr (beq_iff_eq.mp h).symm
  eq_trans h h' := beq_iff_eq.mpr ((beq_iff_eq.mp h).trans (beq_iff_eq.mp h'))
  hash_congr h := by
    rw [beq_iff_eq.mp h]
    exact .inl rfl

def sameOrders : Orders Nat Nat where
  maps := ⟨id, List.Perm.refl⟩
  sets := ⟨List.reverse, List.reverse_perm⟩

theorem collections_refine_parity :
    Option.Rel Agree
      (run true (Heap.empty : Heap parityKeys (fun tag _ => tag.toUInt64) Nat)
        [(sameOrders, .mapLiteral [(.user 1, 10), (.user 3, 30)]), (sameOrders, .set 0 (.num 0) 7)])
      (Model.empty.run [.mapLiteral [(.user 1, 10), (.user 3, 30)], .set 0 (.num 0) 7]) ∧
    keyOf parityKeys (fun tag _ => tag.toUInt64) (.num 0) =
      keyOf parityKeys (fun tag _ => tag.toUInt64) (.num 0x8000000000000000) := by
  obtain ⟨hkeys, hruns, -⟩ :=
    @collections_refine Nat Nat Unit parityKeys (fun tag _ => tag.toUInt64) true
  exact ⟨hruns _, (hkeys _ _).mpr (.inr (.inl ⟨rfl, rfl⟩))⟩

end Quilon.Collections
