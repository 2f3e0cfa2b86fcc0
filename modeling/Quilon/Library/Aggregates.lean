import Mathlib.Data.List.Basic

/-!
# Aggregates in memory

Scalars and structs as a target lays them out, the values of such types, and memory as far as
storing and loading go.  A position is a bit of memory counted from where the value begins; storing
or loading a value moves the positions its type `holds` and no others, so the padding of a struct and
the unused bits of a narrow integer are lost.

A value is kept as the bits at those positions.  A bit is undefined, or a plain bit, or one bit of a
pointer: a pointer is whole when it is put together again from all its bits.
-/

namespace Quilon.Llvm

inductive Bit where
  | undefined
  | bit (value : Bool)
  | pointer (address index : Nat)
deriving DecidableEq

inductive Scalar where
  | int (width : Nat)
  | double
  | ptr
deriving DecidableEq

inductive BasicType where
  | scalar (scalar : Scalar)
  | struct (fields : List BasicType)

namespace BasicType

def isStruct : BasicType → Bool
  | .struct _ => true
  | .scalar _ => false

mutual

/-- Struct types are equal when their fields are. -/
def decideEq : (a b : BasicType) → Decidable (a = b)
  | .scalar s, .scalar t =>
    if h : s = t then isTrue (by rw [h]) else isFalse (by simp [h])
  | .struct fs, .struct gs =>
    match decideEqFields fs gs with
    | isTrue h => isTrue (by rw [h])
    | isFalse h => isFalse (by simp [h])
  | .scalar _, .struct _ => isFalse (by simp)
  | .struct _, .scalar _ => isFalse (by simp)

def decideEqFields : (fs gs : List BasicType) → Decidable (fs = gs)
  | [], [] => isTrue rfl
  | [], _ :: _ => isFalse (by simp)
  | _ :: _, [] => isFalse (by simp)
  | f :: fs, g :: gs =>
    match decideEq f g, decideEqFields fs gs with
    | isTrue hf, isTrue hfs => isTrue (by rw [hf, hfs])
    | isFalse hf, _ => isFalse (by simp [hf])
    | _, isFalse hfs => isFalse (by simp [hfs])

end

instance : DecidableEq BasicType := decideEq

end BasicType

/-! ### The target -/

/-- The first multiple of `alignment` from `offset` on. -/
def padTo (offset alignment : Nat) : Nat :=
  (offset + alignment - 1) / alignment * alignment

theorem le_padTo {alignment : Nat} (h : 0 < alignment) (offset : Nat) :
    offset ≤ padTo offset alignment := by
  have hdiv := Nat.div_add_mod (offset + alignment - 1) alignment
  have hmod := Nat.mod_lt (offset + alignment - 1) h
  rw [padTo, Nat.mul_comm]
  omega

@[simp]
theorem padTo_zero {alignment : Nat} (h : 0 < alignment) : padTo 0 alignment = 0 := by
  rw [padTo, Nat.div_eq_of_lt (by omega), Nat.zero_mul]

/-- What a target says about its scalars; alignments are in bytes. -/
structure DataLayout where
  pointerBits : Nat
  pointerBits_pos : 0 < pointerBits
  alignment : Scalar → Nat
  alignment_pos : ∀ scalar, 0 < alignment scalar

namespace DataLayout

variable (layout : DataLayout)

def bits : Scalar → Nat
  | .int width => width
  | .double => 64
  | .ptr => layout.pointerBits

mutual

def alignmentOf : BasicType → Nat
  | .scalar scalar => layout.alignment scalar
  | .struct fields => alignmentOfFields fields

def alignmentOfFields : List BasicType → Nat
  | [] => 1
  | field :: rest => max (alignmentOf field) (alignmentOfFields rest)

end

mutual

/-- The size of a type in bytes, its trailing padding included. -/
def abiSize : BasicType → Nat
  | .scalar scalar => padTo ((layout.bits scalar + 7) / 8) (layout.alignment scalar)
  | .struct fields => padTo (endOfFields 0 fields) (layout.alignmentOfFields fields)

/-- Where the last of `fields` ends when the first one is placed from `start` on. -/
def endOfFields (start : Nat) : List BasicType → Nat
  | [] => start
  | field :: rest =>
    endOfFields (padTo start (layout.alignmentOf field) + abiSize field) rest

end

/-- The offset of the field at `index`, in bytes. -/
def fieldOffset (start : Nat) : List BasicType → Nat → Nat
  | [], _ => start
  | field :: _, 0 => padTo start (layout.alignmentOf field)
  | field :: rest, index + 1 =>
    fieldOffset (padTo start (layout.alignmentOf field) + layout.abiSize field) rest index

mutual

/-- Whether a value of the type has a bit at `position`; padding is not held. -/
def holds : BasicType → Nat → Bool
  | .scalar scalar, position => decide (position < layout.bits scalar)
  | .struct fields, position => holdsInFields 0 fields position

def holdsInFields (start : Nat) : List BasicType → Nat → Bool
  | [], _ => false
  | field :: rest, position =>
    let offset := padTo start (layout.alignmentOf field)
    decide (8 * offset ≤ position) && holds field (position - 8 * offset) ||
      holdsInFields (offset + layout.abiSize field) rest position

end

mutual

theorem alignmentOf_pos : ∀ type : BasicType, 0 < layout.alignmentOf type
  | .scalar scalar => layout.alignment_pos scalar
  | .struct fields => alignmentOfFields_pos fields

theorem alignmentOfFields_pos : ∀ fields : List BasicType, 0 < layout.alignmentOfFields fields
  | [] => Nat.one_pos
  | field :: rest => by
    have hfield := alignmentOf_pos field
    rw [alignmentOfFields]
    omega

end

theorem le_endOfFields (start : Nat) (fields : List BasicType) :
    start ≤ layout.endOfFields start fields := by
  induction fields generalizing start with
  | nil => exact Nat.le_refl _
  | cons field rest ih =>
    have hpad := le_padTo (layout.alignmentOf_pos field) start
    have hrest := ih (padTo start (layout.alignmentOf field) + layout.abiSize field)
    rw [endOfFields]
    omega

mutual

/-- A type holds bits only within its size. -/
theorem lt_of_holds : ∀ (type : BasicType) (position : Nat),
    layout.holds type position = true → position < 8 * layout.abiSize type
  | .scalar scalar, position, h => by
    have hpad := le_padTo (layout.alignment_pos scalar) ((layout.bits scalar + 7) / 8)
    have hbits : position < layout.bits scalar := by simpa [holds] using h
    rw [abiSize]
    omega
  | .struct fields, position, h => by
    have hpad := le_padTo (layout.alignmentOfFields_pos fields) (layout.endOfFields 0 fields)
    have hfields := lt_of_holdsInFields 0 fields position (by simpa [holds] using h)
    rw [abiSize]
    omega

theorem lt_of_holdsInFields : ∀ (start : Nat) (fields : List BasicType) (position : Nat),
    layout.holdsInFields start fields position = true →
      8 * start ≤ position ∧ position < 8 * layout.endOfFields start fields
  | _, [], _, h => by simp [holdsInFields] at h
  | start, field :: rest, position, h => by
    have hpad := le_padTo (layout.alignmentOf_pos field) start
    have hend := layout.le_endOfFields
      (padTo start (layout.alignmentOf field) + layout.abiSize field) rest
    simp only [holdsInFields, Bool.or_eq_true, Bool.and_eq_true, decide_eq_true_eq] at h
    rw [endOfFields]
    cases h with
    | inl h =>
      have hsize := lt_of_holds field _ h.2
      omega
    | inr h =>
      have hrest := lt_of_holdsInFields _ rest position h
      omega

end

/-- A field's bits are bits of the struct. -/
theorem holdsInFields_of_field {fields : List BasicType} {index : Nat} {field : BasicType}
    (start : Nat) (hfield : fields[index]? = some field) {position : Nat}
    (h : layout.holds field position = true) :
    layout.holdsInFields start fields
      (8 * layout.fieldOffset start fields index + position) = true := by
  induction fields generalizing start index with
  | nil => simp at hfield
  | cons first rest ih =>
    simp only [holdsInFields, Bool.or_eq_true, Bool.and_eq_true, decide_eq_true_eq]
    cases index with
    | zero =>
      have : first = field := by simpa using hfield
      subst this
      refine Or.inl ⟨Nat.le_add_right _ _, ?_⟩
      rw [fieldOffset, Nat.add_sub_cancel_left]
      exact h
    | succ index => exact Or.inr (ih _ (by simpa using hfield))

/-- A bit of a struct is a bit of one of its fields. -/
theorem exists_field_of_holdsInFields {fields : List BasicType} {start position : Nat}
    (h : layout.holdsInFields start fields position = true) :
    ∃ index field inner, fields[index]? = some field ∧ layout.holds field inner = true ∧
      position = 8 * layout.fieldOffset start fields index + inner := by
  induction fields generalizing start with
  | nil => simp [holdsInFields] at h
  | cons first rest ih =>
    simp only [holdsInFields, Bool.or_eq_true, Bool.and_eq_true, decide_eq_true_eq] at h
    cases h with
    | inl h =>
      refine ⟨0, first, position - 8 * padTo start (layout.alignmentOf first), rfl, h.2, ?_⟩
      rw [fieldOffset]
      omega
    | inr h =>
      obtain ⟨index, field, inner, hfield, hinner, hposition⟩ := ih h
      exact ⟨index + 1, field, inner, by simpa using hfield, hinner, hposition⟩

theorem le_fieldOffset (start : Nat) (fields : List BasicType) (index : Nat) :
    start ≤ layout.fieldOffset start fields index := by
  induction fields generalizing start index with
  | nil => simp [fieldOffset]
  | cons field rest ih =>
    have hpad := le_padTo (layout.alignmentOf_pos field) start
    cases index with
    | zero => exact hpad
    | succ index =>
      have hrest := ih (padTo start (layout.alignmentOf field) + layout.abiSize field) index
      rw [fieldOffset]
      omega

/-- A field ends before a later one begins. -/
theorem fieldOffset_add_size_le {fields : List BasicType} {i j : Nat} {field : BasicType}
    (start : Nat) (hfield : fields[i]? = some field) (h : i < j) :
    layout.fieldOffset start fields i + layout.abiSize field ≤
      layout.fieldOffset start fields j := by
  induction fields generalizing start i j with
  | nil => simp at hfield
  | cons first rest ih =>
    obtain ⟨j, rfl⟩ : ∃ k, j = k + 1 := ⟨j - 1, by omega⟩
    cases i with
    | zero =>
      have : first = field := by simpa using hfield
      subst this
      exact layout.le_fieldOffset _ rest j
    | succ i => exact ih _ (by simpa using hfield) (by omega)

/-- The first field stands at the beginning. -/
@[simp]
theorem fieldOffset_zero (fields : List BasicType) : layout.fieldOffset 0 fields 0 = 0 := by
  cases fields with
  | nil => rfl
  | cons field rest => exact padTo_zero (layout.alignmentOf_pos field)

end DataLayout

/-! ### Values -/

/-- A value: bits at the positions its type holds, and nothing elsewhere. -/
@[ext]
structure Value (layout : DataLayout) where
  type : BasicType
  bits : Nat → Bit
  blank : ∀ position, layout.holds type position = false → bits position = .undefined

namespace Value

variable {layout : DataLayout}

/-- What loading at `type` gives of the memory from a position on. -/
def load (type : BasicType) (contents : Nat → Bit) : Value layout where
  type := type
  bits position := if layout.holds type position then contents position else .undefined
  blank position h := by simp [h]

@[simp]
theorem load_type (type : BasicType) (contents : Nat → Bit) :
    (load type contents : Value layout).type = type := rfl

theorem load_bits (type : BasicType) (contents : Nat → Bit) (position : Nat) :
    (load type contents : Value layout).bits position =
      if layout.holds type position then contents position else .undefined := rfl

/-- A value stored and loaded back at its own type is the same value. -/
@[simp]
theorem load_self (value : Value layout) : load value.type value.bits = value := by
  refine Value.ext rfl (funext fun position => ?_)
  rw [load_bits]
  by_cases h : layout.holds value.type position = true
  · rw [if_pos h]
  · rw [if_neg h, value.blank position (by simpa using h)]

/-- Stored, loaded at another type, stored and loaded back: nothing is lost exactly when the other
type holds every defined bit. -/
theorem load_load_eq_iff (value : Value layout) (type : BasicType) :
    load value.type (load type value.bits : Value layout).bits = value ↔
      ∀ position, value.bits position ≠ .undefined → layout.holds type position = true := by
  constructor
  · intro h position hdefined
    by_contra hlost
    have hbit := congrFun (congrArg Value.bits h) position
    rw [load_bits, load_bits, if_neg hlost, ite_self] at hbit
    exact hdefined hbit.symm
  · intro h
    refine Value.ext rfl (funext fun position => ?_)
    by_cases hdefined : value.bits position = .undefined
    · rw [load_bits, load_bits, hdefined, ite_self, ite_self]
    · have hheld : layout.holds value.type position = true := by
        by_contra hnot
        exact hdefined (value.blank position (by simpa using hnot))
      rw [load_bits, load_bits, if_pos hheld, if_pos (h position hdefined)]

/-- `undef`. -/
def undef (type : BasicType) : Value layout :=
  load type fun _ => .undefined

/-- The zero of a type: a null pointer is all zero bits. -/
def zero (type : BasicType) : Value layout :=
  load type fun _ => .bit false

/-- The pointer to `address`. -/
def pointer (address : Nat) : Value layout :=
  load (.scalar .ptr) (.pointer address)

/-- A scalar with the bits of `value`, the least significant first. -/
def ofBits (scalar : Scalar) (value : Nat → Bool) : Value layout :=
  load (.scalar scalar) fun position => .bit (value position)

/-- The address a pointer value holds; `none` for null and for what is no whole pointer. -/
def address? (value : Value layout) : Option Nat :=
  match value.bits 0 with
  | .pointer address _ =>
    if (List.range layout.pointerBits).all
        fun position => value.bits position = .pointer address position
    then some address else none
  | _ => none

theorem address?_pointer (address : Nat) :
    (pointer address : Value layout).address? = some address := by
  have hbits : ∀ position < layout.pointerBits,
      (pointer address : Value layout).bits position = .pointer address position := by
    intro position h
    have hheld : layout.holds (.scalar .ptr) position = true := decide_eq_true h
    rw [pointer, load_bits, if_pos hheld]
  rw [address?, hbits 0 layout.pointerBits_pos]
  simp only [ite_eq_left_iff, List.all_eq_true, List.mem_range, decide_eq_true_eq, reduceCtorEq,
    imp_false, not_not]
  exact hbits

theorem address?_zero (type : BasicType) : (zero type : Value layout).address? = none := by
  have hbit : (zero type : Value layout).bits 0 = .bit false ∨
      (zero type : Value layout).bits 0 = .undefined := by
    rw [zero, load_bits]
    split
    · exact Or.inl rfl
    · exact Or.inr rfl
  rw [address?]
  cases hbit with
  | inl h => rw [h]
  | inr h => rw [h]

/-! #### Fields -/

/-- `insertvalue`: the struct with its field at `index` replaced. -/
def insert (struct field : Value layout) (index : Nat) : Option (Value layout) :=
  match struct.type with
  | .scalar _ => none
  | .struct fields =>
    if index < fields.length then
      let start := 8 * layout.fieldOffset 0 fields index
      some (load (.struct fields) fun position =>
        if start ≤ position ∧ layout.holds field.type (position - start) = true
        then field.bits (position - start) else struct.bits position)
    else none

/-- `extractvalue`. -/
def extract (struct : Value layout) (index : Nat) : Option (Value layout) :=
  match struct.type with
  | .scalar _ => none
  | .struct fields =>
    fields[index]?.map fun field =>
      load field fun position => struct.bits (8 * layout.fieldOffset 0 fields index + position)

variable {struct field whole : Value layout} {fields : List BasicType} {i j : Nat}

theorem insert_eq_some (field : Value layout) (htype : struct.type = .struct fields)
    (hindex : i < fields.length) :
    ∃ whole, struct.insert field i = some whole ∧ whole.type = .struct fields := by
  rw [insert, htype]
  simp only [if_pos hindex]
  exact ⟨_, rfl, rfl⟩

/-- The bits of a struct after an insertion: those of the field at its offset, the others as they
were. -/
theorem insert_bits (htype : struct.type = .struct fields)
    (hfield : fields[i]? = some field.type) (h : struct.insert field i = some whole)
    (position : Nat) :
    whole.bits position =
      if 8 * layout.fieldOffset 0 fields i ≤ position ∧
          layout.holds field.type (position - 8 * layout.fieldOffset 0 fields i) = true
      then field.bits (position - 8 * layout.fieldOffset 0 fields i)
      else struct.bits position := by
  have hindex : i < fields.length := (List.getElem?_eq_some_iff.mp hfield).1
  rw [insert, htype] at h
  simp only [if_pos hindex, Option.some.injEq] at h
  subst h
  rw [load_bits]
  by_cases hin : 8 * layout.fieldOffset 0 fields i ≤ position ∧
      layout.holds field.type (position - 8 * layout.fieldOffset 0 fields i) = true
  · have hheld := layout.holdsInFields_of_field 0 hfield hin.2
    rw [Nat.add_sub_cancel' hin.1] at hheld
    rw [if_pos hin, DataLayout.holds, if_pos hheld]
  · rw [if_neg hin]
    by_cases hheld : layout.holds (.struct fields) position = true
    · rw [if_pos hheld]
    · rw [if_neg hheld, struct.blank position (by rw [htype]; simpa using hheld)]

/-- The field just inserted. -/
theorem extract_insert_self (htype : struct.type = .struct fields)
    (hfield : fields[i]? = some field.type) (h : struct.insert field i = some whole) :
    whole.extract i = some field := by
  have hindex : i < fields.length := (List.getElem?_eq_some_iff.mp hfield).1
  obtain ⟨whole', h', htype'⟩ := insert_eq_some field htype hindex
  obtain rfl : whole' = whole := Option.some.inj (h'.symm.trans h)
  rw [extract, htype']
  simp only [hfield, Option.map_some, Option.some.injEq]
  refine Value.ext rfl (funext fun position => ?_)
  rw [load_bits, insert_bits htype hfield h, Nat.add_sub_cancel_left]
  by_cases hheld : layout.holds field.type position = true
  · rw [if_pos hheld, if_pos ⟨Nat.le_add_right _ _, hheld⟩]
  · rw [if_neg hheld, field.blank position (by simpa using hheld)]

/-- The other fields stay. -/
theorem extract_insert_of_ne (htype : struct.type = .struct fields)
    (hfield : fields[i]? = some field.type) (h : struct.insert field i = some whole)
    (hne : j ≠ i) : whole.extract j = struct.extract j := by
  have hindex : i < fields.length := (List.getElem?_eq_some_iff.mp hfield).1
  obtain ⟨whole', h', htype'⟩ := insert_eq_some field htype hindex
  obtain rfl : whole' = whole := Option.some.inj (h'.symm.trans h)
  rw [extract, extract, htype', htype]
  cases hother : fields[j]? with
  | none => simp only [hother, Option.map_none]
  | some other =>
    simp only [hother, Option.map_some, Option.some.injEq]
    refine Value.ext rfl (funext fun position => ?_)
    rw [load_bits, load_bits]
    by_cases hheld : layout.holds other position = true
    · rw [if_pos hheld, if_pos hheld, insert_bits htype hfield h, if_neg ?_]
      -- the two fields do not overlap
      intro hin
      have hother_size := layout.lt_of_holds _ _ hheld
      have hfield_size := layout.lt_of_holds _ _ hin.2
      rcases Nat.lt_or_gt_of_ne hne with hlt | hgt
      · have hbefore := layout.fieldOffset_add_size_le 0 hother hlt
        omega
      · have hafter := layout.fieldOffset_add_size_le 0 hfield hgt
        omega
    · rw [if_neg hheld, if_neg hheld]

end Value

/-! ### Memory -/

/-- The cells allocated so far; an address is the place in this list. -/
abbrev Heap := List (Nat → Bit)

namespace Heap

variable {layout : DataLayout} {heap later : Heap} {value : Value layout} {address : Nat}

/-- A new cell, whatever is in it. -/
def alloc (heap : Heap) : Nat × Heap :=
  (heap.length, heap ++ [fun _ => .undefined])

/-- Store `value` into the cell at `address`: the positions its type does not hold stay. -/
def store (heap : Heap) (address : Nat) (value : Value layout) : Heap :=
  heap.modify address fun cell position =>
    if layout.holds value.type position then value.bits position else cell position

/-- Load from the cell at `address`; `none` where there is no cell. -/
def load (heap : Heap) (address : Nat) (type : BasicType) : Option (Value layout) :=
  heap[address]?.map (Value.load type)

/-- What was stored is loaded back at its own type. -/
theorem load_store (h : address < heap.length) :
    (heap.store address value).load address value.type = some value := by
  rw [load, store, List.getElem?_modify_eq, List.getElem?_eq_getElem h]
  simp only [Option.map_eq_map, Option.map_some, Option.some.injEq]
  refine Value.ext rfl (funext fun position => ?_)
  rw [Value.load_bits]
  by_cases hheld : layout.holds value.type position = true
  · rw [if_pos hheld, if_pos hheld]
  · rw [if_neg hheld, value.blank position (by simpa using hheld)]

/-- A cell keeps what it holds when more cells are allocated. -/
theorem load_of_prefix {type : BasicType} (hgrows : heap <+: later)
    (h : heap.load address type = some value) : later.load address type = some value := by
  obtain ⟨rest, rfl⟩ := hgrows
  rw [load, Option.map_eq_some_iff] at h ⊢
  obtain ⟨cell, hcell, hvalue⟩ := h
  refine ⟨cell, ?_, hvalue⟩
  rw [List.getElem?_append_left (List.getElem?_eq_some_iff.mp hcell).1]
  exact hcell

/-- Storing into a new cell leaves the others alone. -/
theorem prefix_store_alloc : heap <+: heap.alloc.2.store heap.alloc.1 value := by
  rw [alloc, store, List.modify_eq_take_drop, List.take_left]
  exact List.prefix_append _ _

/-! #### Fields of a struct in memory -/

/-- Load field `index` of the struct with these fields that begins at `address`, at `type`. -/
def loadField (heap : Heap) (address : Nat) (fields : List BasicType) (index : Nat)
    (type : BasicType) : Option (Value layout) :=
  heap[address]?.map fun cell =>
    Value.load type fun position => cell (8 * layout.fieldOffset 0 fields index + position)

/-- Store `value` as field `index` of the struct with these fields. -/
def storeField (heap : Heap) (address : Nat) (fields : List BasicType) (index : Nat)
    (value : Value layout) : Heap :=
  heap.modify address fun cell position =>
    let start := 8 * layout.fieldOffset 0 fields index
    if start ≤ position ∧ layout.holds value.type (position - start) = true
    then value.bits (position - start) else cell position

/-- Store the values as the fields from `index` on. -/
def storeFields (heap : Heap) (address : Nat) (fields : List BasicType) (index : Nat) :
    List (Value layout) → Heap
  | [] => heap
  | value :: rest =>
    (heap.storeField address fields index value).storeFields address fields (index + 1) rest

variable {fields : List BasicType} {i j : Nat} {other : BasicType}

@[simp]
theorem length_storeField : (heap.storeField address fields i value).length = heap.length := by
  rw [storeField, List.length_modify]

theorem loadField_storeField_self (h : address < heap.length) :
    (heap.storeField address fields i value).loadField address fields i value.type =
      some value := by
  rw [loadField, storeField, List.getElem?_modify_eq, List.getElem?_eq_getElem h]
  simp only [Option.map_eq_map, Option.map_some, Option.some.injEq]
  refine Value.ext rfl (funext fun position => ?_)
  rw [Value.load_bits, Nat.add_sub_cancel_left]
  by_cases hheld : layout.holds value.type position = true
  · rw [if_pos hheld, if_pos ⟨Nat.le_add_right _ _, hheld⟩]
  · rw [if_neg hheld, value.blank position (by simpa using hheld)]

/-- The other fields stay. -/
theorem loadField_storeField_of_ne (hfield : fields[i]? = some value.type)
    (hother : fields[j]? = some other) (hne : j ≠ i) :
    (heap.storeField address fields i value).loadField address fields j other =
      (heap.loadField address fields j other : Option (Value layout)) := by
  rw [loadField, loadField, storeField, List.getElem?_modify_eq]
  cases hcell : heap[address]? with
  | none => rfl
  | some cell =>
    simp only [Option.map_eq_map, Option.map_some, Option.some.injEq]
    refine Value.ext rfl (funext fun position => ?_)
    rw [Value.load_bits, Value.load_bits]
    by_cases hheld : layout.holds other position = true
    · rw [if_pos hheld, if_pos hheld, if_neg ?_]
      -- the two fields do not overlap
      intro hin
      have hother_size := layout.lt_of_holds _ _ hheld
      have hfield_size := layout.lt_of_holds _ _ hin.2
      rcases Nat.lt_or_gt_of_ne hne with hlt | hgt
      · have hbefore := layout.fieldOffset_add_size_le 0 hother hlt
        omega
      · have hafter := layout.fieldOffset_add_size_le 0 hfield hgt
        omega
    · rw [if_neg hheld, if_neg hheld]

theorem loadField_storeFields_of_lt {values : List (Value layout)}
    (hvalues : ∀ (offset : Nat) (v : Value layout), values[offset]? = some v →
      fields[i + offset]? = some v.type)
    (hother : fields[j]? = some other) (h : j < i) :
    (heap.storeFields address fields i values).loadField address fields j other =
      (heap.loadField address fields j other : Option (Value layout)) := by
  induction values generalizing heap i with
  | nil => rfl
  | cons first rest ih =>
    have hfirst : fields[i]? = some first.type := hvalues 0 first rfl
    have hrest : ∀ (offset : Nat) (v : Value layout), rest[offset]? = some v →
        fields[i + 1 + offset]? = some v.type := by
      intro offset v hv
      have hfield := hvalues (offset + 1) v hv
      rwa [show i + (offset + 1) = i + 1 + offset by omega] at hfield
    rw [storeFields, ih hrest (by omega), loadField_storeField_of_ne hfirst hother (by omega)]

/-- Every field stored is loaded back at its own type. -/
theorem loadField_storeFields {values : List (Value layout)}
    (hvalues : ∀ (offset : Nat) (v : Value layout), values[offset]? = some v →
      fields[i + offset]? = some v.type)
    (haddress : address < heap.length) (h : values[j]? = some value) :
    (heap.storeFields address fields i values).loadField address fields (i + j) value.type =
      some value := by
  induction values generalizing heap i j with
  | nil => cases h
  | cons first rest ih =>
    have hrest : ∀ (offset : Nat) (v : Value layout), rest[offset]? = some v →
        fields[i + 1 + offset]? = some v.type := by
      intro offset v hv
      have hfield := hvalues (offset + 1) v hv
      rwa [show i + (offset + 1) = i + 1 + offset by omega] at hfield
    rw [storeFields]
    cases j with
    | zero =>
      obtain rfl : first = value := Option.some.inj h
      have hfirst : fields[i]? = some first.type := hvalues 0 first rfl
      rw [Nat.add_zero i, loadField_storeFields_of_lt hrest hfirst (by omega),
        loadField_storeField_self haddress]
    | succ j =>
      rw [show i + (j + 1) = i + 1 + j by omega]
      exact ih hrest (by simpa using haddress) h

/-- Storing fields into the last cell leaves the others alone. -/
theorem exists_storeFields_append (heap : Heap) (fields : List BasicType) (i : Nat)
    (cell : Nat → Bit) (values : List (Value layout)) :
    ∃ cell', storeFields (heap ++ [cell]) heap.length fields i values = heap ++ [cell'] := by
  induction values generalizing cell i with
  | nil => exact ⟨cell, rfl⟩
  | cons value rest ih =>
    rw [storeFields, storeField, List.modify_eq_take_drop, List.take_left, List.drop_left]
    exact ih _ _

end Heap

end Quilon.Llvm
