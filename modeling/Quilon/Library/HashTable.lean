import Mathlib.Data.Finmap

/-!
# Hash tables

A table keeps its entries in some order, no two of them under equal keys, and finds one by its hash
first and by equality then.  Where equal keys have equal hashes, it is a finite map from keys modulo
equality (`toFinmap`), which each operation changes as it should (`toFinmap_insert`,
`toFinmap_remove`).  A set is a table with nothing for values (`toFinset`).
-/

namespace Quilon

/-- Keys with an equality, and a hash that equal keys share. -/
structure HashKeys (K H : Type*) where
  hash : K → H
  eq : K → K → Bool
  eq_refl (a : K) : eq a a = true
  eq_symm {a b : K} (h : eq a b = true) : eq b a = true
  eq_trans {a b c : K} (h : eq a b = true) (h' : eq b c = true) : eq a c = true
  hash_congr {a b : K} (h : eq a b = true) : hash a = hash b

namespace HashKeys

variable {K H V : Type*} (keys : HashKeys K H)

def setoid : Setoid K where
  r a b := keys.eq a b = true
  iseqv := ⟨keys.eq_refl, keys.eq_symm, keys.eq_trans⟩

/-- Keys modulo equality. -/
abbrev Class : Type _ := Quotient keys.setoid

def classOf (key : K) : keys.Class := Quotient.mk keys.setoid key

instance decidableEqClass : DecidableEq keys.Class :=
  @Quotient.decidableEq K keys.setoid fun a b =>
    inferInstanceAs (Decidable (keys.eq a b = true))

variable {keys} {a b : K}

theorem classOf_eq_iff : keys.classOf a = keys.classOf b ↔ keys.eq a b = true :=
  Quotient.eq (r := keys.setoid)

theorem exists_classOf (q : keys.Class) : ∃ key, keys.classOf key = q := Quotient.exists_rep q

end HashKeys

/-- What a table holds. -/
structure HashTable {K H : Type*} (keys : HashKeys K H) (V : Type*) where
  entries : List (K × V)
  distinct : entries.Pairwise fun entry entry' => keys.classOf entry.1 ≠ keys.classOf entry'.1

namespace HashTable

variable {K H V : Type*} {keys : HashKeys K H}

def empty : HashTable keys V := ⟨[], List.Pairwise.nil⟩

section Operations

variable [DecidableEq H]

/-- Whether the entry is the one looked for: it has the hash, and then the key. -/
def hits (keys : HashKeys K H) (key : K) (entry : K × V) : Bool :=
  decide (keys.hash entry.1 = keys.hash key) && keys.eq key entry.1

def get? (table : HashTable keys V) (key : K) : Option V :=
  (table.entries.find? (hits keys key)).map Prod.snd

def contains (table : HashTable keys V) (key : K) : Bool := table.entries.any (hits keys key)

/-- The value is replaced, but not the key. -/
def insertEntry (keys : HashKeys K H) (key : K) (value : V) : List (K × V) → List (K × V)
  | [] => [(key, value)]
  | entry :: rest =>
    if hits keys key entry then (entry.1, value) :: rest
    else entry :: insertEntry keys key value rest

variable {key key' : K} {value : V} {entry : K × V} {entries : List (K × V)}

theorem hits_iff : hits keys key entry = true ↔ keys.classOf entry.1 = keys.classOf key := by
  unfold hits
  rw [Bool.and_eq_true, decide_eq_true_iff, HashKeys.classOf_eq_iff]
  constructor
  · rintro ⟨-, h⟩
    exact keys.eq_symm h
  · intro h
    exact ⟨keys.hash_congr h, keys.eq_symm h⟩

theorem mem_insertEntry (h : entry ∈ insertEntry keys key value entries) :
    keys.classOf entry.1 = keys.classOf key ∨ entry ∈ entries := by
  induction entries with
  | nil =>
    rw [List.mem_singleton.mp h]
    exact .inl rfl
  | cons first rest ih =>
    rw [insertEntry] at h
    split at h
    case isTrue hhits =>
      rcases List.mem_cons.mp h with rfl | hmem
      · exact .inl (hits_iff.mp hhits)
      · exact .inr (List.mem_cons_of_mem _ hmem)
    case isFalse hmiss =>
      rcases List.mem_cons.mp h with rfl | hmem
      · exact .inr List.mem_cons_self
      · exact (ih hmem).imp_right (List.mem_cons_of_mem _)

theorem distinct_insertEntry
    (h : entries.Pairwise fun entry entry' => keys.classOf entry.1 ≠ keys.classOf entry'.1) :
    (insertEntry keys key value entries).Pairwise fun entry entry' =>
      keys.classOf entry.1 ≠ keys.classOf entry'.1 := by
  induction entries with
  | nil => exact List.pairwise_singleton _ _
  | cons first rest ih =>
    obtain ⟨hfirst, hrest⟩ := List.pairwise_cons.mp h
    rw [insertEntry]
    split
    case isTrue hhits => exact List.pairwise_cons.mpr ⟨hfirst, hrest⟩
    case isFalse hmiss =>
      refine List.pairwise_cons.mpr ⟨fun entry hentry => ?_, ih hrest⟩
      rcases mem_insertEntry hentry with hkey | hmem
      · rw [hkey]
        exact fun heq => hmiss (hits_iff.mpr heq)
      · exact hfirst entry hmem

def insert (table : HashTable keys V) (key : K) (value : V) : HashTable keys V :=
  ⟨insertEntry keys key value table.entries, distinct_insertEntry table.distinct⟩

def remove (table : HashTable keys V) (key : K) : HashTable keys V :=
  ⟨table.entries.eraseP (hits keys key), table.distinct.sublist List.eraseP_sublist⟩

end Operations

/-! ### Tables as finite maps -/

theorem nodupKeys (table : HashTable keys V) :
    (table.entries.map fun entry =>
      (⟨keys.classOf entry.1, entry.2⟩ : Sigma fun _ => V)).NodupKeys :=
  List.nodupKeys_iff_pairwise.mpr (List.pairwise_map.mpr table.distinct)

def toAList (table : HashTable keys V) : AList fun _ : keys.Class => V :=
  ⟨_, table.nodupKeys⟩

/-- The finite map that a table stands for. -/
def toFinmap (table : HashTable keys V) : Finmap fun _ : keys.Class => V := table.toAList.toFinmap

/-- The finite set that a table without values stands for. -/
def toFinset (table : HashTable keys Unit) : Finset keys.Class := table.toFinmap.keys

theorem mem_toFinmap {table : HashTable keys V} {q : keys.Class} :
    q ∈ table.toFinmap ↔ ∃ entry ∈ table.entries, keys.classOf entry.1 = q := by
  unfold toFinmap
  rw [Finmap.mem_toFinmap, AList.mem_keys]
  simp [toAList, AList.keys, List.keys]

theorem mem_toFinset {set : HashTable keys Unit} {q : keys.Class} :
    q ∈ set.toFinset ↔ ∃ entry ∈ set.entries, keys.classOf entry.1 = q :=
  Finmap.mem_keys.trans mem_toFinmap

theorem length_entries (table : HashTable keys V) :
    table.entries.length = table.toFinmap.keys.card := by
  show _ = (List.map _ (List.map _ table.entries)).length
  rw [List.length_map, List.length_map]

section Lookup

variable [DecidableEq H] {key key' : K} {value : V} {entries : List (K × V)}
  {table : HashTable keys V}

theorem find?_eq_dlookup (key : K) (entries : List (K × V)) :
    (entries.find? (hits keys key)).map Prod.snd =
      (entries.map fun entry => (⟨keys.classOf entry.1, entry.2⟩ : Sigma fun _ => V)).dlookup
        (keys.classOf key) := by
  induction entries with
  | nil => rfl
  | cons entry rest ih =>
    rw [List.map_cons, List.find?_cons]
    by_cases hkey : keys.classOf entry.1 = keys.classOf key
    · rw [hits_iff.mpr hkey, hkey, List.dlookup_cons_eq]
      rfl
    · rw [Bool.eq_false_iff.mpr fun hhits => hkey (hits_iff.mp hhits),
        List.dlookup_cons_ne _ _ (Ne.symm hkey)]
      exact ih

theorem get?_eq_lookup (table : HashTable keys V) (key : K) :
    table.get? key = table.toFinmap.lookup (keys.classOf key) :=
  find?_eq_dlookup key table.entries

theorem contains_iff : table.contains key = true ↔ keys.classOf key ∈ table.toFinmap := by
  rw [mem_toFinmap]
  unfold contains
  rw [List.any_eq_true]
  simp only [hits_iff]

theorem find?_insertEntry_self (key : K) (value : V) (entries : List (K × V)) :
    ((insertEntry keys key value entries).find? (hits keys key)).map Prod.snd = some value := by
  induction entries with
  | nil =>
    have hhits : hits keys key (key, value) = true := hits_iff.mpr rfl
    rw [insertEntry, List.find?_cons, hhits]
    rfl
  | cons entry rest ih =>
    rw [insertEntry]
    split
    case isTrue hhits =>
      have hhits' : hits keys key (entry.1, value) = true := hits_iff.mpr (hits_iff.mp hhits)
      rw [List.find?_cons, hhits']
      rfl
    case isFalse hmiss =>
      rw [List.find?_cons, Bool.eq_false_iff.mpr hmiss]
      exact ih

theorem find?_insertEntry_of_ne (hne : keys.classOf key' ≠ keys.classOf key) (value : V)
    (entries : List (K × V)) :
    ((insertEntry keys key value entries).find? (hits keys key')).map Prod.snd =
      (entries.find? (hits keys key')).map Prod.snd := by
  induction entries with
  | nil =>
    have hmiss : hits keys key' (key, value) = false :=
      Bool.eq_false_iff.mpr fun hhits => hne (hits_iff.mp hhits).symm
    rw [insertEntry, List.find?_cons, hmiss]
  | cons entry rest ih =>
    rw [insertEntry]
    split
    case isTrue hhits =>
      have hkey := hits_iff.mp hhits
      have hmiss : ∀ v : V, hits keys key' (entry.1, v) = false := fun v =>
        Bool.eq_false_iff.mpr fun hhits' => hne ((hits_iff.mp hhits').symm.trans hkey)
      rw [List.find?_cons, List.find?_cons, hmiss value, hmiss entry.2]
    case isFalse hmiss =>
      rw [List.find?_cons, List.find?_cons]
      cases hits keys key' entry with
      | true => rfl
      | false => exact ih

theorem toFinmap_insert (table : HashTable keys V) (key : K) (value : V) :
    (table.insert key value).toFinmap = table.toFinmap.insert (keys.classOf key) value := by
  refine Finmap.ext_lookup fun q => ?_
  obtain ⟨key', rfl⟩ := HashKeys.exists_classOf q
  rw [← get?_eq_lookup]
  by_cases hkey : keys.classOf key' = keys.classOf key
  · rw [hkey, Finmap.lookup_insert, get?_eq_lookup, hkey, ← get?_eq_lookup]
    exact find?_insertEntry_self key value table.entries
  · rw [Finmap.lookup_insert_of_ne _ hkey, ← get?_eq_lookup]
    exact find?_insertEntry_of_ne hkey value table.entries

/-- The entry that is removed is the one of the key. -/
theorem map_eraseP (key : K) (entries : List (K × V)) :
    (entries.eraseP (hits keys key)).map
        (fun entry => (⟨keys.classOf entry.1, entry.2⟩ : Sigma fun _ => V)) =
      (entries.map fun entry => (⟨keys.classOf entry.1, entry.2⟩ : Sigma fun _ => V)).kerase
        (keys.classOf key) := by
  induction entries with
  | nil => rfl
  | cons entry rest ih =>
    rw [List.map_cons]
    by_cases hkey : keys.classOf key = keys.classOf entry.1
    · rw [List.eraseP_cons_of_pos (hits_iff.mpr hkey.symm), List.kerase_cons_eq hkey]
    · rw [List.eraseP_cons_of_neg fun hhits => hkey (hits_iff.mp hhits).symm,
        List.kerase_cons_ne hkey, List.map_cons, ih]

theorem toFinmap_remove (table : HashTable keys V) (key : K) :
    (table.remove key).toFinmap = table.toFinmap.erase (keys.classOf key) := by
  show AList.toFinmap _ = Finmap.erase _ (AList.toFinmap _)
  rw [Finmap.erase_toFinmap]
  exact congrArg AList.toFinmap (AList.ext (map_eraseP key table.entries))

theorem mem_insert_keys {q : keys.Class} :
    q ∈ (table.insert key value).toFinmap.keys ↔
      q = keys.classOf key ∨ q ∈ table.toFinmap.keys := by
  rw [toFinmap_insert, Finmap.mem_keys, Finmap.mem_keys, Finmap.mem_insert]

end Lookup

/-! ### Tables without values as finite sets -/

section Sets

variable [DecidableEq H] {key : K} {set : HashTable keys Unit} {entries : List (K × Unit)}

theorem toFinset_insert (set : HashTable keys Unit) (key : K) :
    (set.insert key ()).toFinset = Insert.insert (keys.classOf key) set.toFinset := by
  ext q
  rw [Finset.mem_insert]
  exact mem_insert_keys

theorem toFinset_remove (set : HashTable keys Unit) (key : K) :
    (set.remove key).toFinset = set.toFinset.erase (keys.classOf key) := by
  show Finmap.keys _ = _
  rw [toFinmap_remove, Finmap.keys_erase]
  rfl

/-- All of the keys are inserted. -/
def insertAll (set : HashTable keys Unit) (entries : List (K × Unit)) : HashTable keys Unit :=
  entries.foldl (fun (set : HashTable keys Unit) entry => set.insert entry.1 ()) set

theorem mem_insertAll {q : keys.Class} : q ∈ (set.insertAll entries).toFinset ↔
    q ∈ set.toFinset ∨ ∃ entry ∈ entries, keys.classOf entry.1 = q := by
  induction entries generalizing set with
  | nil =>
    show q ∈ set.toFinset ↔ _
    simp
  | cons entry rest ih =>
    show q ∈ ((set.insert entry.1 ()).insertAll rest).toFinset ↔ _
    rw [ih, toFinset_insert, Finset.mem_insert, List.exists_mem_cons_iff]
    constructor
    · rintro ((rfl | hset) | hrest)
      · exact .inr (.inl rfl)
      · exact .inl hset
      · exact .inr (.inr hrest)
    · rintro (hset | rfl | hrest)
      · exact .inl (.inr hset)
      · exact .inl (.inl rfl)
      · exact .inr hrest

end Sets

end HashTable

end Quilon
