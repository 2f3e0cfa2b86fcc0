import Quilon.Codegen.Sums
import Quilon.Typechecker.RecordUpdate

/-!
# Record literals

`generate_record_expression`, `generate_record_update`, `generate_record` and
`record_field_pointer` with `record_struct_type` (`codegen/generator/records.rs`).  What is emitted
is run on the spot: a definition takes the memory before the emitted instructions and gives their
value with the memory after them.  The emission of the parts of a literal is a parameter.

A load or a store through a pointer that points to no cell is a failure; the sizes of the cells are
left out.
-/

namespace Quilon.RecordUpdate

open Llvm

/-- The cells, and whatever else running code changes. -/
structure Memory (ρ : Type) where
  heap : Heap
  rest : ρ

inductive Failure (φ : Type) where
  /-- `value_repr_type` of a field -/
  | lowering (failure : Sums.Failure)
  | missingRecordType
  | missingSourceType
  /-- `into_pointer_value` of something else: the compiler panics -/
  | notAPointer
  | spreadSourceMissingField (name : String)
  | fieldHasNoSource (name : String)
  /-- the instruction builder's refusal of an index -/
  | fieldOutOfRange (index : Nat)
  /-- run time: no memory behind the address -/
  | badAccess
  /-- of a part -/
  | part (failure : φ)

variable {layout : DataLayout} {φ ρ : Type}

/-- Where the value of a field comes from. -/
inductive Provider (layout : DataLayout) where
  | override (value : Llvm.Value layout)
  /-- index into the sources -/
  | spread (index : Nat)

structure Source (layout : DataLayout) where
  ptr : Llvm.Value layout
  layout : List (String × Ty)
  structType : List BasicType

/-- Load a field through a pointer to a struct of these fields. -/
def loadField (heap : Heap) (pointer : Llvm.Value layout) (fields : List BasicType) (index : Nat)
    (type : BasicType) : Except (Failure φ) (Llvm.Value layout) :=
  if index < fields.length then
    match pointer.address? with
    | none => .error .badAccess
    | some address =>
      match heap.loadField address fields index type with
      | none => .error .badAccess
      | some value => .ok value
  else .error (.fieldOutOfRange index)

/-- A new struct of these fields. -/
def allocateRecord (heap : Heap) (fields : List BasicType) (values : List (Llvm.Value layout)) :
    Llvm.Value layout × Heap :=
  let (address, heap) := heap.alloc
  (Llvm.Value.pointer address, heap.storeFields address fields 0 values)

section Types

variable (layout) (generator : Sums.CodeGenerator)

def valueReprType (ty : Ty) : Except (Failure φ) BasicType :=
  match generator.valueReprType layout ty with
  | .ok type => .ok type
  | .error failure => .error (.lowering failure)

/-- The slots of a struct, in the order of the fields. -/
def recordStructType : List (String × Ty) → Except (Failure φ) (List BasicType)
  | [] => .ok []
  | (_, ty) :: rest => do
    let type ← valueReprType layout generator ty
    return type :: (← recordStructType rest)

end Types

section Generate

variable (generator : Sums.CodeGenerator) (oracle : Expression → Option Ty)
  (evaluate : Expression → Memory ρ → Except φ (Llvm.Value layout × Memory ρ))

/-- `generate_expression` of a part. -/
def generatePart (expression : Expression) (memory : Memory ρ) :
    Except (Failure φ) (Llvm.Value layout × Memory ρ) :=
  match evaluate expression memory with
  | .ok result => .ok result
  | .error failure => .error (.part failure)

/-- The loop over the parts: the spread sources, and for each name its latest provider. -/
def generateParts (sources : List (Source layout)) (provider : List (String × Provider layout))
    (memory : Memory ρ) : List (String × Expression) →
      Except (Failure φ) (List (Source layout) × List (String × Provider layout) × Memory ρ)
  | [] => .ok (sources, provider, memory)
  | (_, .spread source _) :: rest =>
    match (oracle source).bind recordFields with
    | none => .error .missingSourceType
    | some fields => do
      let structType ← recordStructType layout generator fields
      let (ptr, memory) ← generatePart evaluate source memory
      if ptr.type = Sums.ptr then
        generateParts (sources ++ [⟨ptr, fields, structType⟩])
          (overlay provider (fields.map fun field => (field.1, .spread sources.length))) memory rest
      else .error .notAPointer
  | (name, value) :: rest => do
    let (value, memory) ← generatePart evaluate value memory
    generateParts sources (overwrite provider name (.override value)) memory rest

/-- The value of one field of the result, which is stored at `type`. -/
def fieldValue (sources : List (Source layout)) (provider : List (String × Provider layout))
    (heap : Heap) (name : String) (type : BasicType) : Except (Failure φ) (Llvm.Value layout) :=
  match provider.lookup name with
  | none => .error (.fieldHasNoSource name)
  | some (.override value) => .ok value
  | some (.spread index) =>
    match sources[index]? with
    | none => .error (.fieldHasNoSource name)
    | some source =>
      match source.layout.findIdx? fun field => field.1 = name with
      | none => .error (.spreadSourceMissingField name)
      | some position => loadField heap source.ptr source.structType position type

def fieldValues (sources : List (Source layout)) (provider : List (String × Provider layout))
    (heap : Heap) :
    List (String × Ty) → List BasicType → Except (Failure φ) (List (Llvm.Value layout))
  | (name, _) :: fields, type :: types => do
    let value ← fieldValue sources provider heap name type
    return value :: (← fieldValues sources provider heap fields types)
  | _, _ => .ok []

def generateRecordUpdate (record : Expression) (fields : List (String × Expression))
    (memory : Memory ρ) : Except (Failure φ) (Llvm.Value layout × Memory ρ) :=
  match (oracle record).bind recordFields with
  | none => .error .missingRecordType
  | some resultFields => do
    let (sources, provider, memory) ← generateParts generator oracle evaluate [] [] memory fields
    let fieldTypes ← recordStructType layout generator resultFields
    let values ← fieldValues sources provider memory.heap resultFields fieldTypes
    let (pointer, heap) := allocateRecord memory.heap fieldTypes values
    return (pointer, ⟨heap, memory.rest⟩)

/-- One value after the other. -/
def generateValues (memory : Memory ρ) :
    List (String × Expression) → Except (Failure φ) (List (Llvm.Value layout) × Memory ρ)
  | [] => .ok ([], memory)
  | (_, expression) :: rest => do
    let (value, memory) ← generatePart evaluate expression memory
    let (values, memory) ← generateValues memory rest
    return (value :: values, memory)

/-- The slots are those of the values. -/
def generateRecord (fields : List (String × Expression)) (memory : Memory ρ) :
    Except (Failure φ) (Llvm.Value layout × Memory ρ) :=
  if fields.isEmpty then .ok (Llvm.Value.zero (.struct []), memory)
  else do
    let (values, memory) ← generateValues evaluate memory fields
    let (pointer, heap) := allocateRecord memory.heap (values.map (·.type)) values
    return (pointer, ⟨heap, memory.rest⟩)

def recordLiteralFieldsInCanonicalOrder (record : Expression)
    (fields : List (String × Expression)) : List (String × Expression) :=
  match oracle record with
  | some (.record canonical) =>
    canonical.filterMap fun (name, _) => fields.find? fun field => field.1 = name
  | _ => fields

def generateRecordExpression (record : Expression) (fields : List (String × Expression))
    (memory : Memory ρ) : Except (Failure φ) (Llvm.Value layout × Memory ρ) :=
  if fields.any (isSpread ·.2) then
    generateRecordUpdate generator oracle evaluate record fields memory
  else
    generateRecord evaluate (recordLiteralFieldsInCanonicalOrder oracle record fields) memory

end Generate

/-! ### Reading -/

section Read

variable (generator : Sums.CodeGenerator)

/-- The struct, the index and the type a field of a record of these fields is reached with. -/
def fieldSlot (layout : DataLayout) (fields : List (String × Ty)) (field : String) :
    Except (Failure φ) (Option (List BasicType × Nat × BasicType)) := do
  let structType ← recordStructType layout generator fields
  match fields.findIdx? fun entry => entry.1 = field with
  | none => return none
  | some index =>
    match structType[index]? with
    | none => .error (.fieldOutOfRange index)
    | some type => return some (structType, index, type)

/-- A field of the record `pointer` points to, as a reader of a record of these fields sees it. -/
def readField (fields : List (String × Ty)) (field : String) (pointer : Llvm.Value layout)
    (heap : Heap) : Except (Failure φ) (Option (Llvm.Value layout)) := do
  match ← fieldSlot generator layout fields field with
  | none => return none
  | some (structType, index, type) => return some (← loadField heap pointer structType index type)

variable (oracle : Expression → Option Ty) (recordTypes : String → Option (List String))

/-- What `record_field_pointer` goes by: the type of `base`, and where none is recorded the names
tracked for an identifier, all of them `f64`. -/
def readerSlot (layout : DataLayout) (base : Expression) (field : String) :
    Except (Failure φ) (Option (List BasicType × Nat × BasicType)) :=
  match (oracle base).bind recordFields with
  | some fields => fieldSlot generator layout fields field
  | none =>
    match base with
    | .identifier name _ =>
      match recordTypes name with
      | none => .ok none
      | some names =>
        match names.findIdx? (· = field) with
        | none => .ok none
        | some index =>
          .ok (some (List.replicate names.length Sums.double, index, Sums.double))
    | _ => .ok none

variable (evaluate : Expression → Memory ρ → Except φ (Llvm.Value layout × Memory ρ))

/-- A read of `base.field` through `record_field_pointer`. -/
def generateFieldRead (base : Expression) (field : String) (memory : Memory ρ) :
    Except (Failure φ) (Option (Llvm.Value layout) × Memory ρ) := do
  match ← readerSlot generator oracle recordTypes layout base field with
  | none => return (none, memory)
  | some (structType, index, type) =>
    let (pointer, memory) ← generatePart evaluate base memory
    if pointer.type = Sums.ptr then
      return (some (← loadField memory.heap pointer structType index type), memory)
    else .error .notAPointer

end Read

end Quilon.RecordUpdate
