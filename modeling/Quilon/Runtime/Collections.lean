import Quilon.Library.HashTable
import Mathlib.Data.UInt

/-!
# Maps and sets

`quilon-rt/src/collections`: the keys of `Map` and `Set`, the headers of their tables, and the
operations on them, with the literals, arrays and `each` that
`codegen/generator/collections.rs` makes of these.

A table's iteration order is a parameter of each operation that reads it.  A `Text` key is its
bytes, a user key its value, and a boxed value the value; what `%` and `==` give for a user key does
not change while it is in a table.  Counts are natural numbers.
-/

namespace Quilon.Collections

/-! ### Keys -/

/-- `f == 0.0` -/
def isZero (bits : UInt64) : Bool := bits &&& 0x7FFFFFFFFFFFFFFF == 0

/-- `f.is_nan()` -/
def isNan (bits : UInt64) : Bool := 0x7FF0000000000000 < (bits &&& 0x7FFFFFFFFFFFFFFF)

/-- `f64::NAN.to_bits()` -/
def nanBits : UInt64 := 0x7FF8000000000000

def canonicalNumBits (bits : UInt64) : UInt64 :=
  if isZero bits then 0 else if isNan bits then nanBits else bits

variable {bits bits' : UInt64}

theorem canonicalNumBits_zero (h : isZero bits = true) : canonicalNumBits bits = 0 := if_pos h

theorem isZero_of_isNan (h : isNan bits = true) : isZero bits = false := by
  unfold isNan at h
  unfold isZero
  rw [beq_eq_false_iff_ne]
  intro hzero
  rw [hzero] at h
  cases h

theorem canonicalNumBits_nan (h : isNan bits = true) : canonicalNumBits bits = nanBits := by
  unfold canonicalNumBits
  rw [isZero_of_isNan h, h]
  rfl

theorem canonicalNumBits_other (hzero : isZero bits = false) (hnan : isNan bits = false) :
    canonicalNumBits bits = bits := by
  unfold canonicalNumBits
  rw [hzero, hnan]
  rfl

/-- A `Num` is a zero, or a NaN, or neither. -/
theorem isZero_or_isNan_or (bits : UInt64) :
    isZero bits = true ∨ isNan bits = true ∨ (isZero bits = false ∧ isNan bits = false) := by
  cases isZero bits <;> cases isNan bits <;> simp

theorem canonicalNumBits_idem (bits : UInt64) :
    canonicalNumBits (canonicalNumBits bits) = canonicalNumBits bits := by
  rcases isZero_or_isNan_or bits with hzero | hnan | ⟨hzero, hnan⟩
  · rw [canonicalNumBits_zero hzero]
    rfl
  · rw [canonicalNumBits_nan hnan]
    rfl
  · rw [canonicalNumBits_other hzero hnan, canonicalNumBits_other hzero hnan]

/-- The same `Num`, where both zeros are one and all NaNs are one. -/
def SameNum (bits bits' : UInt64) : Prop :=
  bits = bits' ∨ (isZero bits = true ∧ isZero bits' = true) ∨
    (isNan bits = true ∧ isNan bits' = true)

theorem canonicalNumBits_eq_iff :
    canonicalNumBits bits = canonicalNumBits bits' ↔ SameNum bits bits' := by
  have hzeroBits : isZero 0 = true := rfl
  have hnanBits : isNan nanBits = true := rfl
  have hnanZero : isZero nanBits = false := rfl
  constructor
  · intro h
    rcases isZero_or_isNan_or bits with hzero | hnan | ⟨hzero, hnan⟩
    · rw [canonicalNumBits_zero hzero] at h
      rcases isZero_or_isNan_or bits' with hzero' | hnan' | ⟨hzero', hnan'⟩
      · exact .inr (.inl ⟨hzero, hzero'⟩)
      · rw [canonicalNumBits_nan hnan'] at h
        cases h
      · rw [canonicalNumBits_other hzero' hnan'] at h
        rw [← h, hzeroBits] at hzero'
        cases hzero'
    · rw [canonicalNumBits_nan hnan] at h
      rcases isZero_or_isNan_or bits' with hzero' | hnan' | ⟨hzero', hnan'⟩
      · rw [canonicalNumBits_zero hzero'] at h
        cases h
      · exact .inr (.inr ⟨hnan, hnan'⟩)
      · rw [canonicalNumBits_other hzero' hnan'] at h
        rw [← h, hnanBits] at hnan'
        cases hnan'
    · rw [canonicalNumBits_other hzero hnan] at h
      rcases isZero_or_isNan_or bits' with hzero' | hnan' | ⟨hzero', hnan'⟩
      · rw [canonicalNumBits_zero hzero'] at h
        rw [h, hzeroBits] at hzero
        cases hzero
      · rw [canonicalNumBits_nan hnan'] at h
        rw [h, hnanBits] at hnan
        cases hnan
      · rw [canonicalNumBits_other hzero' hnan'] at h
        exact .inl h
  · rintro (rfl | ⟨hzero, hzero'⟩ | ⟨hnan, hnan'⟩)
    · rfl
    · rw [canonicalNumBits_zero hzero, canonicalNumBits_zero hzero']
    · rw [canonicalNumBits_nan hnan, canonicalNumBits_nan hnan']

/-- A user key type: what its `%` and its `==` give, which agree. -/
structure UserKeys (User : Type) where
  hash : User → UInt64
  eq : User → User → Bool
  eq_refl (a : User) : eq a a = true
  eq_symm {a b : User} (h : eq a b = true) : eq b a = true
  eq_trans {a b c : User} (h : eq a b = true) (h' : eq b c = true) : eq a c = true
  hash_congr {a b : User} (h : eq a b = true) : SameNum (hash a) (hash b)

/-- A key of the language. -/
inductive Key (User : Type) where
  | num (bits : UInt64)
  | text (bytes : List UInt8)
  | bool (b : Bool)
  | user (value : User)

inductive QnKey (User : Type) where
  | num (a : UInt64) (canonical : canonicalNumBits a = a)
  | text (bytes : List UInt8)
  | bool (b : Bool)
  | user (value : User)

namespace QnKey

variable {User : Type}

/-- `QnKey::new`, of what `key_abi` makes of the key. -/
def new : Key User → QnKey User
  | .num bits => .num (canonicalNumBits bits) (canonicalNumBits_idem bits)
  | .text bytes => .text bytes
  | .bool b => .bool b
  | .user value => .user value

/-- `key_from_words` -/
def toKey : QnKey User → Key User
  | .num a _ => .num a
  | .text bytes => .text bytes
  | .bool b => .bool b
  | .user value => .user value

/-- `TAG_NUM`, `TAG_TEXT`, `KEY_TAG_BOOL` and `TAG_USER` -/
def tag : QnKey User → UInt8
  | .num _ _ => 0
  | .text _ => 1
  | .bool _ => 2
  | .user _ => 3

end QnKey

/-- What a key writes to the hasher behind its tag. -/
inductive Written where
  | bytes (bytes : List UInt8)
  | word (word : UInt64)

section Hashing

variable {User : Type} (users : UserKeys User) (finish : UInt8 → Written → UInt64)

def userHashBits (value : User) : UInt64 := canonicalNumBits (users.hash value)

/-- `QnKey`'s `PartialEq::eq` -/
def eq (key other : QnKey User) : Bool :=
  if key.tag ≠ other.tag then false
  else
    match key, other with
    | .text bytes, .text bytes' => bytes == bytes'
    | .user value, .user value' => users.eq value value'
    | .num a _, .num a' _ => a == a'
    | .bool b, .bool b' => b == b'
    | _, _ => false

/-- `QnKey`'s `Hash::hash`, where `finish` is what the fixed-seed hasher makes of it. -/
def hash (key : QnKey User) : UInt64 :=
  finish key.tag (match key with
    | .text bytes => .bytes bytes
    | .user value => .word (userHashBits users value)
    | .num a _ => .word a
    | .bool b => .word (if b then 1 else 0))

variable {users} {a b c : QnKey User}

theorem eq_iff : eq users a b = true ↔
    match a, b with
    | .text bytes, .text bytes' => bytes = bytes'
    | .user value, .user value' => users.eq value value' = true
    | .num bits _, .num bits' _ => bits = bits'
    | .bool b, .bool b' => b = b'
    | _, _ => False := by
  cases a <;> cases b <;> simp [eq, QnKey.tag]

/-- The equality and the hash of the keys agree. -/
def hashKeys (users : UserKeys User) (finish : UInt8 → Written → UInt64) :
    HashKeys (QnKey User) UInt64 where
  hash := hash users finish
  eq := eq users
  eq_refl a := by
    rw [eq_iff]
    cases a with
    | num => rfl
    | text => rfl
    | bool => rfl
    | user value => exact users.eq_refl value
  eq_symm {a b} h := by
    rw [eq_iff] at h ⊢
    cases a <;> cases b <;> try exact h.elim
    case user.user => exact users.eq_symm h
    all_goals exact Eq.symm h
  eq_trans {a b c} h h' := by
    rw [eq_iff] at h h' ⊢
    cases a <;> cases b <;> try exact h.elim
    all_goals
      cases c <;> try exact h'.elim
    case user.user.user => exact users.eq_trans h h'
    all_goals exact Eq.trans h h'
  hash_congr {a b} h := by
    rw [eq_iff] at h
    unfold hash
    cases a <;> cases b <;> try exact h.elim
    case user.user value value' =>
      show finish 3 (.word (canonicalNumBits _)) = finish 3 (.word (canonicalNumBits _))
      rw [canonicalNumBits_eq_iff.mpr (users.hash_congr h)]
    case num.num bits _ bits' _ =>
      obtain rfl : bits = bits' := h
      rfl
    case text.text bytes bytes' =>
      obtain rfl : bytes = bytes' := h
      rfl
    case bool.bool b b' =>
      obtain rfl : b = b' := h
      rfl

end Hashing

/-! ### Headers -/

/-- An order in which the entries of a table are iterated. -/
structure Order (α : Type) where
  iterate : List α → List α
  perm (entries : List α) : (iterate entries).Perm entries

variable {User : Type} {users : UserKeys User} {finish : UInt8 → Written → UInt64} {V : Type}

/-- The table of a map or a set. -/
abbrev Table (users : UserKeys User) (finish : UInt8 → Written → UInt64) (V : Type) :=
  HashTable (hashKeys users finish) V

/-- `QnMap`, and `QnSet` where there are no values: the snapshot has the entries of the table. -/
structure Header (users : UserKeys User) (finish : UInt8 → Written → UInt64) (V : Type) where
  table : Table users finish V
  snapshot : List (QnKey User × V)
  len : Nat
  mirrors : snapshot.Perm table.entries
  counts : len = table.entries.length

/-- `refresh_snapshot`, and `build_map` and `build_set`, which end with it. -/
def refreshSnapshot (order : Order (QnKey User × V)) (table : Table users finish V) :
    Header users finish V where
  table := table
  snapshot := order.iterate table.entries
  len := table.entries.length
  mirrors := order.perm table.entries
  counts := rfl

/-- `debug_check_user_key`: false where it panics. -/
def debugCheckUserKey (users : UserKeys User) (existing : List (QnKey User)) (newKey : QnKey User) :
    Bool :=
  match newKey with
  | .user new => existing.all fun present =>
    match present with
    | .user value => !(users.eq new value && userHashBits users new != userHashBits users value)
    | _ => true
  | _ => true

/-- What `__map_set` and `__set_add` do; the checks are made in debug builds only. -/
def insertKey (debug : Bool) (order : Order (QnKey User × V)) (header : Header users finish V)
    (key : Key User) (value : V) : Option (Header users finish V) :=
  let key := QnKey.new key
  if debug && !debugCheckUserKey users (header.table.entries.map Prod.fst) key then none
  else some (refreshSnapshot order (header.table.insert key value))

/-- What `__map_remove` and `__set_remove` do. -/
def removeKey (order : Order (QnKey User × V)) (header : Header users finish V) (key : Key User) :
    Header users finish V :=
  refreshSnapshot order (header.table.remove (QnKey.new key))

/-! ### Maps -/

/-- `__map_new` -/
def mapNew (order : Order (QnKey User × V)) : Header users finish V :=
  refreshSnapshot order HashTable.empty

/-- `__map_set` -/
def mapSet (debug : Bool) (order : Order (QnKey User × V)) (header : Header users finish V)
    (key : Key User) (value : V) : Option (Header users finish V) :=
  insertKey debug order header key value

/-- `__map_remove` -/
def mapRemove (order : Order (QnKey User × V)) (header : Header users finish V) (key : Key User) :
    Header users finish V :=
  removeKey order header key

/-- `__map_get` -/
def mapGet (header : Header users finish V) (key : Key User) : Option V :=
  header.table.get? (QnKey.new key)

/-- `__map_has` -/
def mapHas (header : Header users finish V) (key : Key User) : Bool :=
  header.table.contains (QnKey.new key)

/-- `__map_len` -/
def mapLen (header : Header users finish V) : Nat := header.len

/-- `__map_key_a` and `__map_key_b`, and the key that `key_from_words` makes of them. -/
def mapKey (header : Header users finish V) (i : Nat) : Option (Key User) :=
  header.snapshot[i]?.map fun entry => entry.1.toKey

/-- `__map_val` -/
def mapVal (header : Header users finish V) (i : Nat) : Option V :=
  header.snapshot[i]?.map Prod.snd

/-- `generate_map_literal` -/
def mapLiteral (debug : Bool) (order : Order (QnKey User × V)) (entries : List (Key User × V)) :
    Option (Header users finish V) :=
  entries.foldlM (fun header entry => mapSet debug order header entry.1 entry.2) (mapNew order)

/-- `build_key_array` -/
def keyArray (header : Header users finish V) : Option (List (Key User)) :=
  (List.range (mapLen header)).mapM (mapKey header)

/-- `build_values_array` -/
def valuesArray (header : Header users finish V) : Option (List V) :=
  (List.range (mapLen header)).mapM (mapVal header)

/-! ### Sets -/

/-- `__set_new` -/
def setNew (order : Order (QnKey User × Unit)) : Header users finish Unit :=
  refreshSnapshot order HashTable.empty

/-- `__set_add` -/
def setAdd (debug : Bool) (order : Order (QnKey User × Unit)) (header : Header users finish Unit)
    (key : Key User) : Option (Header users finish Unit) :=
  insertKey debug order header key ()

/-- `__set_remove` -/
def setRemove (order : Order (QnKey User × Unit)) (header : Header users finish Unit)
    (key : Key User) : Header users finish Unit :=
  removeKey order header key

/-- `__set_has` -/
def setHas (header : Header users finish Unit) (key : Key User) : Bool :=
  header.table.contains (QnKey.new key)

/-- `__set_len` -/
def setLen (header : Header users finish Unit) : Nat := header.len

/-- `__set_item_a` and `__set_item_b`, and the key that `key_from_words` makes of them. -/
def setItem (header : Header users finish Unit) (i : Nat) : Option (Key User) :=
  header.snapshot[i]?.map fun entry => entry.1.toKey

/-- `__set_union` -/
def setUnion (order : Order (QnKey User × Unit)) (left right : Header users finish Unit) :
    Header users finish Unit :=
  refreshSnapshot order (left.table.insertAll (order.iterate right.table.entries))

/-- `set_filter` -/
def setFilter (order : Order (QnKey User × Unit)) (left right : Header users finish Unit)
    (keepPresent : Bool) : Header users finish Unit :=
  let kept := (order.iterate left.table.entries).filter fun entry =>
    right.table.contains entry.1 == keepPresent
  refreshSnapshot order (HashTable.empty.insertAll kept)

/-- `__set_diff` -/
def setDiff (order : Order (QnKey User × Unit)) (left right : Header users finish Unit) :
    Header users finish Unit :=
  setFilter order left right false

/-- `__set_intersect` -/
def setIntersect (order : Order (QnKey User × Unit)) (left right : Header users finish Unit) :
    Header users finish Unit :=
  setFilter order left right true

/-- `generate_set_literal` -/
def setLiteral (debug : Bool) (order : Order (QnKey User × Unit)) (elements : List (Key User)) :
    Option (Header users finish Unit) :=
  elements.foldlM (setAdd debug order) (setNew order)

/-- `build_items_array` -/
def itemsArray (header : Header users finish Unit) : Option (List (Key User)) :=
  (List.range (setLen header)).mapM (setItem header)

/-! ### The tables of a program -/

/-- The maps and the sets that were made, by their addresses. -/
structure Heap (users : UserKeys User) (finish : UInt8 → Written → UInt64) (V : Type) where
  maps : List (Header users finish V)
  sets : List (Header users finish Unit)

def Heap.empty : Heap users finish V := ⟨[], []⟩

inductive Operation (User V : Type) where
  | mapLiteral (entries : List (Key User × V))
  | set (map : Nat) (key : Key User) (value : V)
  | removeFromMap (map : Nat) (key : Key User)
  | setLiteral (elements : List (Key User))
  | add (set : Nat) (key : Key User)
  | removeFromSet (set : Nat) (key : Key User)
  | union (left right : Nat)
  | difference (left right : Nat)
  | intersection (left right : Nat)

structure Orders (User V : Type) where
  maps : Order (QnKey User × V)
  sets : Order (QnKey User × Unit)

/-- A set operator, which makes a new set. -/
def combine (heap : Heap users finish V) (left right : Nat)
    (operator : Header users finish Unit → Header users finish Unit → Header users finish Unit) :
    Option (Heap users finish V) := do
  let leftSet ← heap.sets[left]?
  let rightSet ← heap.sets[right]?
  return { heap with sets := heap.sets ++ [operator leftSet rightSet] }

def step (debug : Bool) (orders : Orders User V) (heap : Heap users finish V) :
    Operation User V → Option (Heap users finish V)
  | .mapLiteral entries => do
    let header ← mapLiteral debug orders.maps entries
    return { heap with maps := heap.maps ++ [header] }
  | .set map key value => do
    let header ← heap.maps[map]?
    let header ← mapSet debug orders.maps header key value
    return { heap with maps := heap.maps.set map header }
  | .removeFromMap map key => do
    let header ← heap.maps[map]?
    return { heap with maps := heap.maps.set map (mapRemove orders.maps header key) }
  | .setLiteral elements => do
    let header ← setLiteral debug orders.sets elements
    return { heap with sets := heap.sets ++ [header] }
  | .add set key => do
    let header ← heap.sets[set]?
    let header ← setAdd debug orders.sets header key
    return { heap with sets := heap.sets.set set header }
  | .removeFromSet set key => do
    let header ← heap.sets[set]?
    return { heap with sets := heap.sets.set set (setRemove orders.sets header key) }
  | .union left right => combine heap left right (setUnion orders.sets)
  | .difference left right => combine heap left right (setDiff orders.sets)
  | .intersection left right => combine heap left right (setIntersect orders.sets)

def run (debug : Bool) (heap : Heap users finish V) :
    List (Orders User V × Operation User V) → Option (Heap users finish V)
  | [] => some heap
  | (orders, operation) :: rest => do
    let heap ← step debug orders heap operation
    run debug heap rest

/-! ### `each` -/

variable {State A : Type}

/-- The callback for each of the buffered entries: the calls made, and the state behind the last one
unless it does not return. -/
def callEach (callback : A → State → Option State) : List A → State → List A × Option State
  | [], state => ([], some state)
  | entry :: rest, state =>
    match callback entry state with
    | none => ([entry], none)
    | some state =>
      let (calls, result) := callEach callback rest state
      (entry :: calls, result)

/-- `map_each` and `set_each`, where `prepare` is the evaluation of the callback's expression, and
`entries` copies the entries that the receiver has then. -/
def eachEntry (prepare : State → Option ((A → State → Option State) × State))
    (entries : State → Option (List A)) (state : State) : List A × Option State :=
  match prepare state with
  | none => ([], none)
  | some (callback, state) =>
    match entries state with
    | none => ([], none)
    | some buffer => callEach callback buffer state

/-- `map_each` -/
def mapEach (prepare : Heap users finish V × State →
      Option ((Key User × V → Heap users finish V × State → Option (Heap users finish V × State)) ×
        (Heap users finish V × State)))
    (map : Nat) (state : Heap users finish V × State) :
    List (Key User × V) × Option (Heap users finish V × State) :=
  eachEntry prepare
    (fun state => do
      let header ← state.1.maps[map]?
      (List.range (mapLen header)).mapM fun i => do
        let key ← mapKey header i
        let value ← mapVal header i
        return (key, value))
    state

/-- `set_each` -/
def setEach (prepare : Heap users finish V × State →
      Option ((Key User → Heap users finish V × State → Option (Heap users finish V × State)) ×
        (Heap users finish V × State)))
    (set : Nat) (state : Heap users finish V × State) :
    List (Key User) × Option (Heap users finish V × State) :=
  eachEntry prepare
    (fun state => do
      let header ← state.1.sets[set]?
      (List.range (setLen header)).mapM (setItem header))
    state

end Quilon.Collections
