import Mathlib.Data.Rat.Defs
import Mathlib.Algebra.Order.Ring.Rat
import Quilon.Ast.Nodes
import Quilon.Library.CountedLoop

/-!
# Ranges and the methods over them

The lowering of `lo <- hi` and of the array methods `map`, `filter`, `reduce` and `each`
(`codegen/generator/arrays.rs`), with `check_range_endpoint` and `__alloc_array`
(`quilon-rt/mem.rs`) and `literal_number` (`ast/nodes.rs`).  What is emitted is run on the spot, on 64-bit words.

Everything else that is emitted (expressions, calls of closures, bodies of lambdas) is the `Host`,
and may do anything to the rest of the program, its `world`.  The arrays allocated here are blocks
of their own: until the lowering hands one out, nothing else has its address.

Left out are the methods that always build the array (`find`, `at`, `join`).
-/

namespace Quilon.Ranges

/-! ### Numbers -/

/-- An `f64`. -/
inductive Num where
  | finite (value : Rat)
  | negativeZero
  | infinite (negative : Bool)
  | nan
deriving DecidableEq

namespace Num

def neg : Num → Num
  | .finite value => if value = 0 then .negativeZero else .finite (-value)
  | .negativeZero => .finite 0
  | .infinite negative => .infinite (!negative)
  | .nan => .nan

/-- `value.fract() != 0.0`, which holds of NaN; the fraction of an infinity is NaN. -/
def hasFraction : Num → Bool
  | .finite value => value.den ≠ 1
  | .negativeZero => false
  | .infinite _ => true
  | .nan => true

def isInfinite : Num → Bool
  | .infinite _ => true
  | _ => false

/-- `2^53` -/
def maxExact : Nat := 2 ^ 53

/-- `value.abs() > MAX_EXACT_NUM` -/
def exceedsExact : Num → Bool
  | .finite value => (maxExact : Rat) < |value|
  | .negativeZero => false
  | .infinite _ => true
  | .nan => false

/-- `value as i64`, which saturates. -/
def asI64 : Num → BitVec 64
  | .finite value => BitVec.ofInt 64 (max (-2 ^ 63) (min (2 ^ 63 - 1) (value.num.tdiv value.den)))
  | .negativeZero => 0#64
  | .infinite negative => if negative then BitVec.intMin 64 else BitVec.intMax 64
  | .nan => 0#64

/-- The magnitude of an integer as a double: to nearest, ties to even. -/
def roundMagnitude (magnitude : Nat) : Nat :=
  if magnitude ≤ maxExact then magnitude
  else
    let unit := 2 ^ (Nat.log2 magnitude - 52)
    let quotient := magnitude / unit
    let rest := magnitude % unit
    if 2 * rest < unit || (2 * rest = unit && quotient % 2 = 0) then quotient * unit
    else (quotient + 1) * unit

/-- `sitofp` -/
def ofI64 (word : BitVec 64) : Num :=
  .finite (word.toInt.sign * roundMagnitude word.toInt.natAbs)

end Num

/-! ### What a lowering is given -/

inductive Failure (φ : Type) where
  /-- `fail_at` with `RANGE_ENDPOINT_NOT_WHOLE` -/
  | rangeEndpoint (message : String) (site : Span)
  | invalidAllocation (count elemSize : Int)
  | allocationTooLarge (count elemSize : Int)
  /-- `into_float_value` of something else -/
  | notAFloat
  | badAccess
  | lambdaArity (parameters arguments : Nat)
  | notAFunction
  | part (failure : φ)

/-- The arrays allocated here, and the rest of the program. -/
structure Memory (V W : Type) where
  blocks : List (List (Option V))
  world : W

/-- The rest of the generator and of the program: values `V` of any kind, among them numbers, and
what is emitted elsewhere. -/
structure Host (V W φ : Type) where
  /-- the `f64` a number literal is read as -/
  nearest : Rat → Num
  formatNum : Num → String
  ofNum : Num → V
  floatValue : V → Option Num
  floatValue_ofNum : ∀ x, floatValue (ofNum x) = some x
  valueToBoolean : V → Bool
  evaluate : Expression → W → Except (φ × W) (V × W)
  /-- the body of a lambda with its parameters bound -/
  inlineBody : List Parameter → Expression → List V → W → Except (φ × W) (V × W)
  callClosure : V → List V → W → Except (φ × W) (V × W)
  isFunction : Expression → Bool
  isArray : Expression → Bool
  /-- the size of what a callback returns, where the oracle knows -/
  returnSize : Expression → Option Int

section Lowering

variable {V W φ α : Type} (host : Host V W φ)

/-- A failure keeps what has happened to the world. -/
abbrev Run (V W φ α : Type) := Except (Failure φ × W) (α × Memory V W)

/-- Something emitted elsewhere. -/
def onWorld (memory : Memory V W) (result : Except (φ × W) (α × W)) : Run V W φ α :=
  match result with
  | .ok (a, world) => .ok (a, { memory with world })
  | .error (failure, world) => .error (.part failure, world)

/-- `generate_expression`, as far as it is about literal numbers. -/
def generateExpression : Expression → Memory V W → Run V W φ V
  | .number value _, memory => .ok (host.ofNum (host.nearest value), memory)
  | .unaryOperator .neg expression _, memory =>
    (generateExpression expression memory).bind fun (value, memory) =>
      match host.floatValue value with
      | some x => .ok (host.ofNum x.neg, memory)
      | none => .error (.notAFloat, memory.world)
  | expression, memory => onWorld memory (host.evaluate expression memory.world)

/-! ### Endpoints -/

def checkRangeEndpoint (formatNum : Num → String) (value : Num) : Except String (BitVec 64) :=
  if value.hasFraction && !value.isInfinite then
    .error s!"a range endpoint must be a whole number (got {formatNum value})"
  else if value.exceedsExact then
    .error ("a range endpoint must be a whole number a Num holds exactly, at most " ++
      formatNum (.finite Num.maxExact) ++ s!" in magnitude (got {formatNum value})")
  else .ok value.asI64

def literalNumber : Expression → Option Num
  | .number value _ => some (host.nearest value)
  | .unaryOperator .neg (.number value _) _ => some (host.nearest value).neg
  | _ => none

/-- `__range_endpoint` -/
def checkedEndpoint (value : Num) (site : Span) (memory : Memory V W) :
    Run V W φ (BitVec 64) :=
  match checkRangeEndpoint host.formatNum value with
  | .ok endpoint => .ok (endpoint, memory)
  | .error message => .error (.rangeEndpoint message site, memory.world)

def evaluatedEndpoint (stop : Expression) (span : Span) (memory : Memory V W) :
    Run V W φ (BitVec 64) :=
  (generateExpression host stop memory).bind fun (value, memory) =>
    match host.floatValue value with
    | some value => checkedEndpoint host value span memory
    | none => .error (.notAFloat, memory.world)

/-- A literal end that passes the check is a constant; anything else is evaluated and checked. -/
def rangeEndpoint (stop : Expression) (span : Span) (memory : Memory V W) :
    Run V W φ (BitVec 64) :=
  match literalNumber host stop with
  | some value =>
    match checkRangeEndpoint host.formatNum value with
    | .ok endpoint => .ok (endpoint, memory)
    | .error _ => evaluatedEndpoint host stop span memory
  | none => evaluatedEndpoint host stop span memory

/-- Where a range begins, its step and how many elements it has. -/
structure Bounds where
  lo : BitVec 64
  step : BitVec 64
  count : BitVec 64

def boundsOf (lo hi : BitVec 64) : Bounds :=
  let ascending := lo.sle hi
  let delta := hi - lo
  let span := if ascending then delta else -delta
  { lo, step := if ascending then 1#64 else BitVec.allOnes 64, count := span + 1#64 }

def rangeBounds (start stop : Expression) (span : Span) (memory : Memory V W) :
    Run V W φ Bounds :=
  (rangeEndpoint host start span memory).bind fun (lo, memory) =>
    (rangeEndpoint host stop span memory).bind fun (hi, memory) => .ok (boundsOf lo hi, memory)

/-- Element `i` of a range. -/
def rangeElement (lo step i : BitVec 64) : V :=
  host.ofNum (Num.ofI64 (lo + i * step))

/-! ### Arrays -/

/-- `__alloc_array`: a new block of `count` elements that are not written yet. -/
def allocArrayData (elemSize : Int) (count : BitVec 64) (memory : Memory V W) : Run V W φ Nat :=
  if count.toInt < 0 || elemSize < 0 then
    .error (.invalidAllocation count.toInt elemSize, memory.world)
  else if 2 ^ 63 ≤ count.toInt * elemSize then
    .error (.allocationTooLarge count.toInt elemSize, memory.world)
  else .ok (memory.blocks.length,
    { memory with blocks := memory.blocks ++ [List.replicate count.toNat none] })

def loadElement (memory : Memory V W) (data : Nat) (i : BitVec 64) : Except (Failure φ × W) V :=
  match memory.blocks[data]?.bind (·[i.toNat]?) with
  | some (some value) => .ok value
  | _ => .error (.badAccess, memory.world)

def storeElement (memory : Memory V W) (data : Nat) (i : BitVec 64) (value : V) :
    Except (Failure φ × W) (Memory V W) :=
  match memory.blocks[data]? with
  | none => .error (.badAccess, memory.world)
  | some block =>
    if i.toNat < block.length then
      .ok { memory with blocks := memory.blocks.set data (block.set i.toNat (some value)) }
    else .error (.badAccess, memory.world)

/-- `{ ptr, i64 }` -/
structure ArrayStruct where
  data : Nat
  size : BitVec 64

def NUM_SIZE : Int := 8

/-- Build the array of a range. -/
def generateRange (start stop : Expression) (span : Span) (memory : Memory V W) :
    Run V W φ ArrayStruct :=
  (rangeBounds host start stop span memory).bind fun (bounds, memory) =>
    (allocArrayData NUM_SIZE bounds.count memory).bind fun (data, memory) =>
      (countedLoop bounds.count (fun i memory =>
        storeElement memory data i (rangeElement host bounds.lo bounds.step i)) 0#64 memory).bind
          fun memory => .ok (⟨data, bounds.count⟩, memory)

inductive ElementSource where
  | memory (data : Nat)
  | range (lo step : BitVec 64)

def sourceElement (source : ElementSource) (i : BitVec 64) (memory : Memory V W) :
    Except (Failure φ × W) V :=
  match source with
  | .memory data => loadElement memory data i
  | .range lo step => .ok (rangeElement host lo step i)

/-! ### Callbacks -/

inductive Callback (V : Type) where
  | lambda (parameters : List Parameter) (body : Expression)
  | closure (value : V)

/-- A lambda literal needs no preparation; anything else is evaluated once. -/
def prepareCallback (callback : Expression) (memory : Memory V W) : Run V W φ (Callback V) :=
  match callback with
  | .lambda parameters _ body _ => .ok (.lambda parameters body, memory)
  | callback =>
    if host.isFunction callback then
      (generateExpression host callback memory).bind fun (value, memory) =>
        .ok (.closure value, memory)
    else .error (.notAFunction, memory.world)

def applyCallback (callback : Callback V) (arguments : List V) (memory : Memory V W) :
    Run V W φ V :=
  match callback with
  | .lambda parameters body =>
    if parameters.length ≠ arguments.length then
      .error (.lambdaArity parameters.length arguments.length, memory.world)
    else onWorld memory (host.inlineBody parameters body arguments memory.world)
  | .closure value => onWorld memory (host.callClosure value arguments memory.world)

/-! ### Methods -/

def arrayMap (callback : Expression) (source : ElementSource) (size : BitVec 64)
    (memory : Memory V W) : Run V W φ ArrayStruct :=
  (prepareCallback host callback memory).bind fun (prepared, memory) =>
    (allocArrayData ((host.returnSize callback).getD NUM_SIZE) size memory).bind
      fun (out, memory) =>
        (countedLoop size (fun i memory =>
          (sourceElement host source i memory).bind fun element =>
            (applyCallback host prepared [element] memory).bind fun (mapped, memory) =>
              storeElement memory out i mapped) 0#64 memory).bind
                fun memory => .ok (⟨out, size⟩, memory)

/-- The kept elements so far are counted in a slot of their own. -/
def arrayFilter (callback : Expression) (source : ElementSource) (size : BitVec 64)
    (memory : Memory V W) : Run V W φ ArrayStruct :=
  (prepareCallback host callback memory).bind fun (prepared, memory) =>
    (allocArrayData NUM_SIZE size memory).bind fun (out, memory) =>
      (countedLoop size (fun i (count, memory) =>
        (sourceElement host source i memory).bind fun element =>
          (applyCallback host prepared [element] memory).bind fun (keep, memory) =>
            if host.valueToBoolean keep then
              (storeElement memory out count element).bind fun memory =>
                .ok (count + 1#64, memory)
            else .ok (count, memory)) 0#64 (0#64, memory)).bind
              fun (count, memory) => .ok (⟨out, count⟩, memory)

def arrayReduce (init callback : Expression) (source : ElementSource) (size : BitVec 64)
    (memory : Memory V W) : Run V W φ V :=
  (generateExpression host init memory).bind fun (initial, memory) =>
    (prepareCallback host callback memory).bind fun (prepared, memory) =>
      countedLoop size (fun i (acc, memory) =>
        (sourceElement host source i memory).bind fun element =>
          applyCallback host prepared [acc, element] memory) 0#64 (initial, memory)

def arrayEach (callback : Expression) (source : ElementSource) (size : BitVec 64)
    (memory : Memory V W) : Run V W φ Unit :=
  (prepareCallback host callback memory).bind fun (prepared, memory) =>
    (countedLoop size (fun i memory =>
      (sourceElement host source i memory).bind fun element =>
        (applyCallback host prepared [element] memory).bind fun (_, memory) =>
          .ok memory) 0#64 memory).bind fun memory => .ok ((), memory)

/-- A method and its arguments. -/
inductive Method where
  | map (callback : Expression)
  | filter (callback : Expression)
  | reduce (init callback : Expression)
  | each (callback : Expression)

/-- What a method call gives: an array, or any value. -/
inductive MethodValue (V : Type) where
  | array (value : ArrayStruct)
  | value (value : V)

/-- The method over an array that has been built. -/
def applyToArray (method : Method) (array : ArrayStruct) (memory : Memory V W) :
    Run V W φ (MethodValue V) :=
  match method with
  | .map callback =>
    (arrayMap host callback (.memory array.data) array.size memory).bind
      fun (result, memory) => .ok (.array result, memory)
  | .filter callback =>
    (arrayFilter host callback (.memory array.data) array.size memory).bind
      fun (result, memory) => .ok (.array result, memory)
  | .reduce init callback =>
    (arrayReduce host init callback (.memory array.data) array.size memory).bind
      fun (result, memory) => .ok (.value result, memory)
  | .each callback =>
    (arrayEach host callback (.memory array.data) array.size memory).bind
      fun (_, memory) => .ok (.array array, memory)

/-- `generate_array_method` with a range for its receiver: the bounds are iterated, except by
`each`, whose value is the array. -/
def generateArrayMethod (method : Method) (start stop : Expression) (span : Span)
    (memory : Memory V W) : Run V W φ (MethodValue V) :=
  match method with
  | .map callback =>
    (rangeBounds host start stop span memory).bind fun (bounds, memory) =>
      (arrayMap host callback (.range bounds.lo bounds.step) bounds.count memory).bind
        fun (result, memory) => .ok (.array result, memory)
  | .filter callback =>
    (rangeBounds host start stop span memory).bind fun (bounds, memory) =>
      (arrayFilter host callback (.range bounds.lo bounds.step) bounds.count memory).bind
        fun (result, memory) => .ok (.array result, memory)
  | .reduce init callback =>
    (rangeBounds host start stop span memory).bind fun (bounds, memory) =>
      (arrayReduce host init callback (.range bounds.lo bounds.step) bounds.count memory).bind
        fun (result, memory) => .ok (.value result, memory)
  | .each callback =>
    (generateRange host start stop span memory).bind fun (array, memory) =>
      applyToArray host (.each callback) array memory

/-- A statement `(lo <- hi).each(f)` whose value is not used; `none` for any other expression. -/
def lowerDiscardedRangeEach (expression : Expression) (memory : Memory V W) :
    Option (Run V W φ Unit) :=
  match expression with
  | .call (.identifier "each" _) [.range start stop span, callback] true _ =>
    if host.isArray (.range start stop span) then
      some ((rangeBounds host start stop span memory).bind fun (bounds, memory) =>
        arrayEach host callback (.range bounds.lo bounds.step) bounds.count memory)
    else none
  | _ => none

end Lowering

end Quilon.Ranges
