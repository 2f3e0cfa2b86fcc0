import Quilon.Ast.Types
import Quilon.Library.Aggregates
import Mathlib.Logic.Function.Basic
import Mathlib.Algebra.Ring.Nat

/-!
# Sum values

`codegen/generator/sums.rs`, with the lowering of types of `oracle.rs`, `register_sum_variants` of
`generator.rs`, the pattern tests and payload bindings of `matching.rs` and `alloc_box` of
`closures.rs`.  What the generator emits is run on the spot: a definition here takes the values the
emitted instructions would get and gives the value they would produce.

`Failure` covers both times: an `Err` of the generator, and an access of memory that is not there.
Arguments are values already; the text comparison of a Text pattern and the debug records are left
out.
-/

namespace Quilon.Sums

open Llvm

/-! ### Types -/

def i1 : BasicType := .scalar (.int 1)
def i8 : BasicType := .scalar (.int 8)
def i64 : BasicType := .scalar (.int 64)
def double : BasicType := .scalar .double
def ptr : BasicType := .scalar .ptr

/-- What arrays and `Text` are: data and length. -/
def ptrLenStructType : BasicType := .struct [ptr, i64]

/-- The function and the environment of a closure. -/
def closureStructType : BasicType := .struct [ptr, ptr]

inductive Failure where
  /-- `value_repr_type` of a payload type variable -/
  | unresolvedPayload (name : String)
  | unsupportedType (ty : Ty)
  | unregisteredVariant (variant : String)
  | payloadSlotOutOfRange (slot : Nat)
  | payloadDoesNotFit (payload slot : BasicType)
  | resultPayloadDoesNotFit (payload : BasicType)
  | unknownConstructor (name : String)
  | needsSumValue (variant : String)
  /-- the instruction builder's refusal of an index -/
  | insertOutOfRange (index : Nat)
  | extractOutOfRange (index : Nat)
  /-- a Text pattern against a sum: the checker refuses it -/
  | textPattern
  /-- run time: no memory behind the address, or not enough of it -/
  | badAccess
deriving DecidableEq

/-- A sum's payload layout: one slot per position, or each variant's own struct inside the widest. -/
inductive SumLayout where
  | perPosition (slots : List BasicType)
  | union (variantBodies : List (String × BasicType)) (widest : BasicType)

/-- The tables of the generator that sums are lowered with. -/
structure CodeGenerator where
  sumVariants : String → Option (UInt8 × String)
  variantPayloads : String → Option (List Ty)
  sumLayouts : String → Option SumLayout

/-- Whether the field decides the slot of its position: neither `$` nor a type variable. -/
def isConcrete : Ty → Bool
  | .unit | .generic _ => false
  | _ => true

def isGeneric : Ty → Bool
  | .generic _ => true
  | _ => false

/-- The concrete fields of one position are equal. -/
def positionAgrees (concrete : Option Ty) : List (Option Ty) → Bool
  | [] => true
  | none :: rest => positionAgrees concrete rest
  | some field :: rest =>
    if isConcrete field then
      match concrete with
      | none => positionAgrees (some field) rest
      | some previous => decide (previous = field) && positionAgrees concrete rest
    else positionAgrees concrete rest

/-- The widest arity of the variants. -/
def arity {α : Type*} (variants : List (String × List α)) : Nat :=
  (variants.map (·.2.length)).foldl max 0

def positionsAgree (variants : List (String × List Ty)) : Bool :=
  (List.range (arity variants)).all fun position =>
    positionAgrees none (variants.map (·.2[position]?))

/-- A type with what `value_repr_type` says about it. -/
abbrev Lowered := Ty × Except Failure BasicType

/-- The slot of one position: the first concrete field's, `double` for a type variable, and else the
`i8` of `$`. -/
def payloadSlotType (fields : List Lowered) : Except Failure BasicType :=
  match fields.find? fun field => isConcrete field.1 with
  | some field => field.2
  | none => if fields.any fun field => isGeneric field.1 then .ok double else .ok i8

def payloadSlotTypes (variants : List (String × List Lowered)) :
    Except Failure (List BasicType) := do
  let slots ← (List.range (arity variants)).mapM fun position =>
    payloadSlotType (variants.filterMap (·.2[position]?))
  return if slots.isEmpty then [double] else slots

/-- The widest of the bodies, the last one of a tie. -/
def widestBody (layout : DataLayout) (bodies : List BasicType) : Option BasicType :=
  bodies.foldl (fun widest body =>
    match widest with
    | none => some body
    | some best =>
      if layout.abiSize best ≤ layout.abiSize body then some body else some best) none

def buildSumLayout (layout : DataLayout) (variants : List (String × List Lowered)) :
    Except Failure SumLayout :=
  if positionsAgree (variants.map fun variant => (variant.1, variant.2.map (·.1))) then do
    return .perPosition (← payloadSlotTypes variants)
  else do
    let bodies ← variants.mapM fun variant => do
      return (variant.1, BasicType.struct (← variant.2.mapM (·.2)))
    return .union bodies ((widestBody layout (bodies.map (·.2))).getD (.struct []))

namespace CodeGenerator

section Types

variable (layout : DataLayout) (generator : CodeGenerator)

/-- The struct of a sum's values: the tag and the registered payload. -/
def sumStructType (name : String) : BasicType :=
  match generator.sumLayouts name with
  | some (.perPosition slots) => .struct (i8 :: slots)
  | some (.union _ widest) => .struct [i8, widest]
  | none => .struct [i8, double]

/-- The struct of a sum's values when the sum need not be registered: laid out on the fly then. -/
def sumValueStructType (name : String) (variants : List (String × List Lowered)) :
    Except Failure BasicType :=
  if (generator.sumLayouts name).isSome || variants.isEmpty then .ok (generator.sumStructType name)
  else do
    match ← buildSumLayout layout variants with
    | .perPosition slots => return .struct (i8 :: slots)
    | .union _ widest => return .struct [i8, widest]

/-- Where the representation of a value differs from the lowering of its type. -/
def valueRepr (ty : Ty) (lowered : Except Failure BasicType) : Except Failure BasicType :=
  match ty with
  | .array _ => .ok ptrLenStructType
  | .record _ => .ok ptr
  | .generic name => .error (.unresolvedPayload name)
  | _ => lowered

mutual

def typeToLlvm : Ty → Except Failure BasicType
  | .num => .ok double
  | .bool => .ok i1
  | .unit => .ok i8
  | .text => .ok ptrLenStructType
  | .array element => do
    let _ ← typeToLlvm element
    return ptr
  | .map key value => do
    let _ ← typeToLlvm key
    let _ ← typeToLlvm value
    return ptr
  | .set element => do
    let _ ← typeToLlvm element
    return ptr
  | .record fields => do return .struct (← fieldsToLlvm fields)
  | .sum name variants => generator.sumValueStructType layout name (lowerVariants variants)
  | .named name [] _ =>
    if (generator.sumLayouts name).isSome then .ok (generator.sumStructType name) else .ok ptr
  | .named _ (_ :: _) _ => .ok ptr
  | .function parameters returnType => do
    let _ ← typesToLlvm parameters
    let _ ← typeToLlvm returnType
    return closureStructType
  | .generic name => .error (.unsupportedType (.generic name))

def typesToLlvm : List Ty → Except Failure (List BasicType)
  | [] => .ok []
  | ty :: rest => do return (← typeToLlvm ty) :: (← typesToLlvm rest)

def fieldsToLlvm : List (String × Ty) → Except Failure (List BasicType)
  | [] => .ok []
  | (_, ty) :: rest => do return (← typeToLlvm ty) :: (← fieldsToLlvm rest)

/-- The fields of a variant with their representations, which are asked for one by one. -/
def lowerFields : List Ty → List Lowered
  | [] => []
  | ty :: rest => (ty, valueRepr ty (typeToLlvm ty)) :: lowerFields rest

def lowerVariants : List (String × List Ty) → List (String × List Lowered)
  | [] => []
  | (name, fields) :: rest => (name, lowerFields fields) :: lowerVariants rest

end

/-- The type a value of `ty` is materialized at. -/
def valueReprType (ty : Ty) : Except Failure BasicType :=
  valueRepr ty (generator.typeToLlvm layout ty)

end Types

/-! ### Registration -/

/-- The tables before the first declaration: `Result` has one `{ptr, i64}` slot for any payload. -/
def new : CodeGenerator where
  sumVariants :=
    Function.update (Function.update (fun _ => none) "Ok" (some (0, "Result")))
      "NotOk" (some (1, "Result"))
  variantPayloads :=
    Function.update (Function.update (fun _ => none) "Ok" (some [.generic "T"]))
      "NotOk" (some [.generic "E"])
  sumLayouts := Function.update (fun _ => none) "Result" (some (.perPosition [ptrLenStructType]))

/-- Enter one variant of `typeName`, with the tag of its place. -/
def registerVariant (generator : CodeGenerator) (typeName : String) (tag : Nat) (variant : String)
    (fields : List Ty) : CodeGenerator :=
  { generator with
    sumVariants := Function.update generator.sumVariants variant (some (UInt8.ofNat tag, typeName))
    variantPayloads := Function.update generator.variantPayloads variant (some fields) }

/-- Enter the variants from the one with index `tag` on. -/
def registerVariants (generator : CodeGenerator) (typeName : String) (tag : Nat) :
    List (String × List Ty) → CodeGenerator
  | [] => generator
  | (variant, fields) :: rest =>
    (generator.registerVariant typeName tag variant fields).registerVariants typeName (tag + 1) rest

def registerSumVariants (layout : DataLayout) (generator : CodeGenerator) (typeName : String)
    (variants : List (String × List Ty)) : Except Failure CodeGenerator := do
  let generator := generator.registerVariants typeName 0 variants
  let sumLayout ← buildSumLayout layout (generator.lowerVariants layout variants)
  return { generator with
    sumLayouts := Function.update generator.sumLayouts typeName (some sumLayout) }

/-- The pre-pass of `generate` over the type declarations of a program. -/
def registerTypeDeclarations (layout : DataLayout) (generator : CodeGenerator) :
    List TypeDeclaration → Except Failure CodeGenerator
  | [] => .ok generator
  | declaration :: rest =>
    match declaration.typeDefinition with
    | .record _ _ => generator.registerTypeDeclarations layout rest
    | .sum variants _ => do
      let generator ← generator.registerSumVariants layout declaration.name variants
      generator.registerTypeDeclarations layout rest

end CodeGenerator

/-! ### Values -/

section Values

variable {layout : DataLayout}

/-- The fields of a struct type. -/
def structFields : BasicType → List BasicType
  | .struct fields => fields
  | .scalar _ => []

def tagValue (tag : UInt8) : Value layout :=
  Value.ofBits (.int 8) (tag.toNat.testBit ·)

/-- The one value of `$`. -/
def unitValue : Value layout := Value.zero i8

/-- The number in the first `width` bits, when all of them are plain. -/
def natOf? (bits : Nat → Bit) : Nat → Option Nat
  | 0 => some 0
  | width + 1 =>
    match natOf? bits width, bits width with
    | some value, .bit set => some (value + if set then 2 ^ width else 0)
    | _, _ => none

/-- The bits of a whole number as a double; it has at most 53 of its own. -/
def doubleOfNat (value position : Nat) : Bool :=
  if value = 0 then false
  else
    let exponent := Nat.log2 value
    ((1023 + exponent) <<< 52 ||| (value - 2 ^ exponent) <<< (52 - exponent)).testBit position

/-- `build_unsigned_int_to_float` -/
def unsignedIntToFloat (width : Nat) (value : Value layout) : Value layout :=
  match natOf? value.bits width with
  | some number => Value.ofBits .double (doubleOfNat number)
  | none => Value.undef double

def insertValue (struct field : Value layout) (index : Nat) : Except Failure (Value layout) :=
  match struct.insert field index with
  | some value => .ok value
  | none => .error (.insertOutOfRange index)

def extractValue (struct : Value layout) (index : Nat) : Except Failure (Value layout) :=
  match struct.extract index with
  | some value => .ok value
  | none => .error (.extractOutOfRange index)

/-- Insert the values one after the other, the first at `index`. -/
def insertValues (struct : Value layout) (index : Nat) :
    List (Value layout) → Except Failure (Value layout)
  | [] => .ok struct
  | field :: rest => do insertValues (← insertValue struct field index) (index + 1) rest

/-- `alloc_box` and the store into it. -/
def box (heap : Heap) (value : Value layout) : Value layout × Heap :=
  let (address, allocated) := heap.alloc
  (Value.pointer address, allocated.store address value)

/-- Load through a pointer. -/
def loadThrough (heap : Heap) (pointer : Value layout) (type : BasicType) :
    Except Failure (Value layout) :=
  match pointer.address? with
  | none => .error .badAccess
  | some address =>
    match heap.load address type with
    | none => .error .badAccess
    | some value => .ok value

/-- Store `value` in an alloca of `allocType` and load it back as `target`. -/
def reinterpretStruct (value : Value layout) (allocType target : BasicType) :
    Except Failure (Value layout) :=
  if layout.abiSize value.type ≤ layout.abiSize allocType ∧
      layout.abiSize target ≤ layout.abiSize allocType then
    .ok (Value.load target value.bits)
  else .error .badAccess

/-- Fit a payload into its slot. -/
def coercePayload (heap : Heap) (value : Value layout) (slot : BasicType) :
    Except Failure (Value layout × Heap) :=
  match value.type, slot with
  | .scalar (.int width), .scalar .double => .ok (unsignedIntToFloat width value, heap)
  | type, slot =>
    if type = slot then .ok (value, heap)
    else match type, slot with
      | .scalar (.int 8), slot => .ok (Value.zero slot, heap)
      | .struct _, .scalar .ptr => .ok (box heap value)
      | type, slot => .error (.payloadDoesNotFit type slot)

/-- The slot of a payload in a sum without a registered layout. -/
def payloadSlotTypeOf (value : Value layout) : BasicType :=
  match value.type with
  | .scalar (.int width) => if width = 1 then i1 else double
  | type => type

/-- `ptr` and `int` side by side in a Result's slot. -/
def resultSlot (ptrField intField : Value layout) : Except Failure (Value layout) := do
  insertValue (← insertValue (Value.undef ptrLenStructType) ptrField 0) intField 1

def packResultPayload (heap : Heap) (value : Value layout) :
    Except Failure (Value layout × Heap) :=
  if value.type = ptrLenStructType then .ok (value, heap)
  else match value.type with
    | .scalar .ptr => do return (← resultSlot value (Value.zero i64), heap)
    | .scalar .double => do
      return (← resultSlot (Value.zero ptr) (Value.load i64 value.bits), heap)
    | .scalar (.int 1) => do
      let extended := Value.load i64 fun position =>
        if position = 0 then value.bits 0 else .bit false
      return (← resultSlot (Value.zero ptr) extended, heap)
    | .scalar (.int 8) => do return (← resultSlot (Value.zero ptr) (Value.zero i64), heap)
    | .struct _ => do
      let (pointer, heap) := box heap value
      return (← resultSlot pointer (Value.zero i64), heap)
    | type => .error (.resultPayloadDoesNotFit type)

end Values

namespace CodeGenerator

variable {layout : DataLayout} (generator : CodeGenerator)

/-- Undo the box of `coerce_payload`: a pointer is loaded through when the target is none. -/
def unboxIfBoxed (heap : Heap) (raw : Value layout) (target : Option Ty) :
    Except Failure (Value layout) :=
  match raw.type, target with
  | .scalar .ptr, some targetType => do
    let repr ← generator.valueReprType layout targetType
    if repr = ptr then return raw else loadThrough heap raw repr
  | _, _ => .ok raw

def unpackResultPayload (heap : Heap) (slot : Value layout) (target : Option Ty) :
    Except Failure (Value layout) := do
  let repr ← match target with
    | some targetType => generator.valueReprType layout targetType
    | none => .ok double
  if repr = ptrLenStructType then return slot
  else match repr with
    | .scalar .ptr => extractValue slot 0
    | .scalar .double => do return Value.load double (← extractValue slot 1).bits
    | .scalar (.int 1) => do return Value.load i1 (← extractValue slot 1).bits
    | .scalar (.int _) => return unitValue
    | .struct fields => do loadThrough heap (← extractValue slot 0) (.struct fields)

/-! ### Construction -/

/-- The payloads in the slots of a `PerPosition` sum, from position `position` on. -/
def payloadValues (isResult : Bool) (registered : Option (List BasicType)) (position : Nat)
    (heap : Heap) : List (Value layout) → Except Failure (List (Value layout) × Heap)
  | [] => .ok ([], heap)
  | argument :: rest => do
    let (payload, heap) ←
      if isResult then packResultPayload heap argument
      else
        coercePayload heap argument
          ((registered.bind (·[position]?)).getD (payloadSlotTypeOf argument))
    let (payloads, heap) ← payloadValues isResult registered (position + 1) heap rest
    return (payload :: payloads, heap)

/-- The payloads in the fields of a variant's own struct. -/
def unionFieldValues (fields : List BasicType) (position : Nat) (heap : Heap) :
    List (Value layout) → Except Failure (List (Value layout) × Heap)
  | [] => .ok ([], heap)
  | argument :: rest =>
    match fields[position]? with
    | none => .error (.payloadSlotOutOfRange position)
    | some slot => do
      let (payload, heap) ← coercePayload heap argument slot
      let (payloads, heap) ← unionFieldValues fields (position + 1) heap rest
      return (payload :: payloads, heap)

def generateUnionSumValue (heap : Heap) (typeName : String) (tag : Value layout)
    (body widest : BasicType) (arguments : List (Value layout)) :
    Except Failure (Value layout × Heap) := do
  let (fields, heap) ← unionFieldValues (structFields body) 0 heap arguments
  let packed ← insertValues (Value.undef body) 0 fields
  let widened ← reinterpretStruct packed widest widest
  let aggregate ← insertValue (Value.undef (generator.sumStructType typeName)) tag 0
  return (← insertValue aggregate widened 1, heap)

def generateSumConstructor (heap : Heap) (tag : UInt8) (typeName variant : String)
    (arguments : List (Value layout)) : Except Failure (Value layout × Heap) :=
  match generator.sumLayouts typeName with
  | some (.union variantBodies widest) =>
    match variantBodies.reverse.lookup variant with
    | none => .error (.unregisteredVariant variant)
    | some body => generator.generateUnionSumValue heap typeName (tagValue tag) body widest arguments
  | registered => do
    let slots := match registered with
      | some (.perPosition slots) => some slots
      | _ => none
    let (payloads, heap) ←
      payloadValues (decide (typeName = "Result")) slots 0 heap arguments
    let fieldTypes := slots.getD (payloads.map (·.type))
    let aggregate ← insertValue (Value.undef (.struct (i8 :: fieldTypes))) (tagValue tag) 0
    return (← insertValues aggregate 1 payloads, heap)

/-! ### Matching -/

/-- Whether a sum value carries the variant. -/
def variantTagMatches (variant : String) (value : Value layout) : Except Failure Bool :=
  match generator.sumVariants variant with
  | none => .error (.unknownConstructor variant)
  | some (expected, _) =>
    if value.type.isStruct then do
      let tag ← extractValue value 0
      return decide (natOf? tag.bits 8 = some expected.toNat)
    else .error (.needsSumValue variant)

/-- The test of a pattern against a struct value. -/
def checkPattern (pattern : Pattern) (value : Value layout) : Except Failure Bool :=
  match pattern with
  | .wildcard _ | .identifier _ _ => .ok true
  | .number _ _ => .ok false
  | .text _ _ => .error .textPattern
  | .constructor name _ _ => generator.variantTagMatches name value

/-- The arm a match enters: the first whose pattern matches. -/
def selectArm (value : Value layout) : List Pattern → Except Failure (Option Nat)
  | [] => .ok none
  | pattern :: rest => do
    if ← generator.checkPattern pattern value then return some 0
    else return (← selectArm value rest).map (· + 1)

/-- The payloads of `variant` in a `Union` sum, `none` for a `PerPosition` one. -/
def unionPayloadValues (value : Value layout) (typeName variant : String) (count : Nat) :
    Except Failure (Option (List (Value layout))) :=
  match generator.sumLayouts typeName with
  | some (.union variantBodies _) =>
    match variantBodies.reverse.lookup variant with
    | none => .error (.unregisteredVariant variant)
    | some body => do
      let widened ← extractValue value 1
      let narrow ← reinterpretStruct widened widened.type body
      return some (← (List.range count).mapM (extractValue narrow ·))
  | _ => .ok none

/-- The payloads as they stand in the value. -/
def rawPayloads (value : Value layout) (typeName variant : String) (count : Nat) :
    Except Failure (List (Value layout)) := do
  match ← generator.unionPayloadValues value typeName variant count with
  | some values => return values
  | none => (List.range count).mapM fun index => extractValue value (index + 1)

/-- The sum a variant belongs to, as the variant table has it. -/
def owningType (variant : String) : String :=
  ((generator.sumVariants variant).map (·.2)).getD ""

/-- The type a payload is read at: the scrutinee's where it is known, else the declared one. -/
def payloadType (concrete : Option (List Ty)) (variant : String) (index : Nat) : Option Ty :=
  ([concrete, generator.variantPayloads variant].filterMap fun source => source.bind (·[index]?)).find?
    fun ty => !isGeneric ty

/-- A payload out of its slot. -/
def payloadOf (heap : Heap) (raw : Value layout) (variant : String) (target : Option Ty) :
    Except Failure (Value layout) :=
  if generator.owningType variant = "Result" then generator.unpackResultPayload heap raw target
  else generator.unboxIfBoxed heap raw target

/-- `receiver.payload`, the receiver known to be `variant`; `concrete` is the payload type the
checker recorded for it. -/
def generatePayloadAccess (heap : Heap) (receiver : Value layout) (variant : String)
    (concrete : Option (List Ty)) : Except Failure (Value layout) := do
  let raws ← generator.rawPayloads receiver (generator.owningType variant) variant 1
  match raws with
  | raw :: _ => generator.payloadOf heap raw variant (generator.payloadType concrete variant 0)
  | [] => .error (.extractOutOfRange 0)

/-- The bindings of a constructor pattern's arguments from position `index` on. -/
def bindArguments (heap : Heap) (variant : String) (concrete : Option (List Ty)) (index : Nat) :
    List Pattern → List (Value layout) → Except Failure (List (String × Value layout))
  | .identifier name _ :: patterns, raw :: raws => do
    let payload ←
      generator.payloadOf heap raw variant (generator.payloadType concrete variant index)
    return (name, payload) :: (← bindArguments heap variant concrete (index + 1) patterns raws)
  | _ :: patterns, _ :: raws => bindArguments heap variant concrete (index + 1) patterns raws
  | _, _ => .ok []

/-- What a pattern binds.  `concrete` is the payload list the checker recorded for the scrutinee. -/
def bindPattern (heap : Heap) (value : Value layout) (concrete : Option (List Ty)) :
    Pattern → Except Failure (List (String × Value layout))
  | .identifier name _ => .ok [(name, value)]
  | .constructor name arguments _ =>
    if value.type.isStruct then do
      let raws ←
        generator.rawPayloads value (generator.owningType name) name arguments.length
      generator.bindArguments heap name concrete 0 arguments raws
    else .ok []
  | _ => .ok []

end CodeGenerator

end Quilon.Sums
