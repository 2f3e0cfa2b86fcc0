import Quilon.Ast.Nodes
import Quilon.Library.Traced
import Quilon.Library.Utf8
import Quilon.Runtime.Collections

/-!
# Rendering

`codegen/generator/interpolation.rs`, with `render_map`, `render_set` and `render_joined` of
`codegen/generator/collections.rs`: how the holes of a literal, and what `print` is handed, become
`Text`.  What the generator emits is run on the spot, and what it reads is noted in the order it is
read.

The code of a render member and of a hole's expression is the `Host`'s, and may do anything to the
memory.  A `Text` is its bytes, and a slot of the accumulated text the text in it.
-/

namespace Quilon.Rendering

open Collections

abbrev Text := List UInt8

/-- `text_literal` -/
def textLiteral (s : String) : Text := Utf8.encode s.toList

/-- A value as the code has it: a record, a map and a set are the addresses they are at, and an
array is its data and its size. -/
inductive Value where
  | num (bits : UInt64)
  | bool (b : Bool)
  | text (bytes : Text)
  | unit
  | record (address : Nat)
  | sum (tag : UInt8) (payload : List UInt64)
  | array (data size : Nat)
  | map (address : Nat)
  | set (address : Nat)
  | function (code environment : Nat)
deriving DecidableEq

/-- `key_from_words` -/
def keyFromWords : Key Value → Value
  | .num bits => .num bits
  | .text bytes => .text bytes
  | .bool b => .bool b
  | .user value => value

/-- What rendering reads of the memory, and the rest. -/
structure Memory (users : UserKeys Value) (finish : UInt8 → Written → UInt64) (State : Type) where
  tables : Heap users finish Value
  arrays : List (List Value)
  rest : State

inductive Event where
  | evaluated (e : Expression)
  | element (data i : Nat) (value : Value)
  | key (map i : Nat) (key : Key Value)
  | value (map i : Nat) (value : Value)
  | item (set i : Nat) (key : Key Value)

inductive Failure where
  /-- the oracle has no type for the expression -/
  | untyped
  /-- the type's render member has no function -/
  | undeclared (name : String)
  /-- the value is of another type -/
  | illTyped
  | noCollection
  /-- what stands behind the end of an array or of a snapshot -/
  | pastEnd
  /-- the code of a hole or of a render member does not return -/
  | stopped

/-- `sum_variants`: the tag and the type of each variant. -/
structure SumVariants where
  entries : List (String × UInt8 × String)
  /-- the module verifier refuses a switch with two cases of one value -/
  distinct (typeName : String) :
    ((entries.filter fun entry => entry.2.2 == typeName).map fun entry => entry.2.1).Nodup

structure Host (users : UserKeys Value) (finish : UInt8 → Written → UInt64) (State : Type) where
  oracleType : Expression → Option Ty
  /-- `generate_expression` -/
  generateExpression : Expression → Memory users finish State →
    Except Failure Value × Memory users finish State
  /-- `__num_to_text` -/
  numToText : UInt64 → Text
  renderOverrides : List String
  /-- the functions of the render members -/
  renderMember : String → Option (Value → Memory users finish State →
    Except Failure Text × Memory users finish State)
  sumVariants : SumVariants

variable {users : UserKeys Value} {finish : UInt8 → Written → UInt64} {State : Type}

abbrev Emitted (users : UserKeys Value) (finish : UInt8 → Written → UInt64) (State : Type) :=
  TracedM Event (Memory users finish State) Failure

open TracedM

/-! ### What is read -/

def Memory.mapHeader (memory : Memory users finish State) (address : Nat) :
    Option (Header users finish Value) :=
  memory.tables.maps[address]?

def Memory.setHeader (memory : Memory users finish State) (address : Nat) :
    Option (Header users finish Unit) :=
  memory.tables.sets[address]?

def Memory.element (memory : Memory users finish State) (data i : Nat) : Option Value := do
  let elements ← memory.arrays[data]?
  elements[i]?

/-- The key that stands at a place of the map's snapshot. -/
def Memory.key (memory : Memory users finish State) (address i : Nat) : Option (Key Value) := do
  let header ← memory.mapHeader address
  mapKey header i

def Memory.value (memory : Memory users finish State) (address i : Nat) : Option Value := do
  let header ← memory.mapHeader address
  mapVal header i

def Memory.item (memory : Memory users finish State) (address i : Nat) : Option (Key Value) := do
  let header ← memory.setHeader address
  setItem header i

/-- `load_element` -/
def loadElement (data i : Nat) : Emitted users finish State Value := do
  let memory ← world
  TracedM.visit (.element data i) .pastEnd (memory.element data i)

/-- `__map_key_a` and `__map_key_b` -/
def readKey (address i : Nat) : Emitted users finish State (Key Value) := do
  let memory ← world
  TracedM.visit (.key address i) .pastEnd (memory.key address i)

/-- `__map_val`, and the load of what it points to -/
def readValue (address i : Nat) : Emitted users finish State Value := do
  let memory ← world
  TracedM.visit (.value address i) .pastEnd (memory.value address i)

/-- `__set_item_a` and `__set_item_b` -/
def readItem (address i : Nat) : Emitted users finish State (Key Value) := do
  let memory ← world
  TracedM.visit (.item address i) .pastEnd (memory.item address i)

/-- `__map_len` and `__set_len`, of a collection that is there -/
def readLen (len : Option Nat) : Emitted users finish State Nat :=
  match len with
  | some n => return n
  | none => throw .noCollection

/-! ### Joining -/

/-- The loop over the places from `i` on: a separator before each but the first. -/
def appendItems (item : Nat → Emitted users finish State Text) (i : Nat) :
    Nat → Text → Emitted users finish State Text
  | 0, acc => return acc
  | left + 1, acc => do
    let acc := if i = 0 then acc else acc ++ textLiteral ", "
    let text ← item i
    appendItems item (i + 1) left (acc ++ text)

/-- The first and the last of `n` items, behind what opens them. -/
def appendEnds (item : Nat → Emitted users finish State Text) (n : Nat) (acc : Text) :
    Emitted users finish State Text := do
  let first ← item 0
  let last ← item (n - 1)
  return acc ++ first ++ textLiteral " <- " ++ last

/-- `render_joined` -/
def renderJoined (n : Nat) (emptyForm : String) (item : Nat → Emitted users finish State Text) :
    Emitted users finish State Text :=
  if n = 0 then return textLiteral emptyForm
  else if n ≤ 10 then do
    let acc ← appendItems item 0 n (textLiteral "[|")
    return acc ++ textLiteral "|]"
  else do
    let acc ← appendEnds item n (textLiteral "[|")
    return acc ++ textLiteral "|]"

/-- What `render_array` emits around the rendering of an element. -/
def renderElements (size : Nat) (item : Nat → Emitted users finish State Text) :
    Emitted users finish State Text :=
  if size ≤ 10 then do
    let acc ← appendItems item 0 size (textLiteral "[")
    return acc ++ textLiteral "]"
  else do
    let acc ← appendEnds item size (textLiteral "[")
    return acc ++ textLiteral "]"

/-! ### Values -/

section Values

variable (host : Host users finish State)

/-- `call_render_override` -/
def callRenderOverride (name : String) (value : Value) : Emitted users finish State Text :=
  match host.renderMember name with
  | none => throw (.undeclared name)
  | some member => lift (member value)

/-- The variants of a sum type in the order of their tags. -/
def variantsOf (sums : SumVariants) (typeName : String) : List (UInt8 × String) :=
  ((sums.entries.filter fun entry => entry.2.2 == typeName).map fun entry =>
    (entry.2.1, entry.1)).mergeSort fun a b => decide (a.1 ≤ b.1)

/-- `render_sum_variant` -/
def renderSumVariant (typeName : String) : Value → Emitted users finish State Text
  | .sum tag _ =>
    match (variantsOf host.sumVariants typeName).find? fun variant => variant.1 == tag with
    | some variant => return textLiteral (displayName variant.2)
    | none => return textLiteral "?"
  | _ => throw .illTyped

/-- `render_value` -/
def renderValue : Ty → Value → Emitted users finish State Text
  | .num, value | .generic _, value =>
    match value with
    | .num bits => return host.numToText bits
    | _ => throw .illTyped
  | .bool, value =>
    match value with
    | .bool b => return textLiteral (if b then "True" else "False")
    | _ => throw .illTyped
  | .text, value =>
    match value with
    | .text bytes => return bytes
    | _ => throw .illTyped
  | .unit, _ => return textLiteral "$"
  | .named name _ _, value =>
    if host.renderOverrides.contains name then callRenderOverride host name value
    else return textLiteral name
  | .record _, _ => return textLiteral "record"
  | .sum name _, value =>
    if host.renderOverrides.contains name then callRenderOverride host name value
    else renderSumVariant host name value
  | .array elem, value =>
    match value with
    | .array data size =>
      renderElements size fun i => do
        let element ← loadElement data i
        renderValue elem element
    | _ => throw .illTyped
  | .map key val, value =>
    match value with
    | .map address => do
      let memory ← world
      let n ← readLen ((memory.mapHeader address).map mapLen)
      renderJoined n "[|=>|]" fun i => do
        let words ← readKey address i
        let ktext ← renderValue key (keyFromWords words)
        let boxed ← readValue address i
        let vtext ← renderValue val boxed
        return ktext ++ textLiteral " => " ++ vtext
    | _ => throw .illTyped
  | .set elem, value =>
    match value with
    | .set address => do
      let memory ← world
      let n ← readLen ((memory.setHeader address).map setLen)
      renderJoined n "[||]" fun i => do
        let words ← readItem address i
        renderValue elem (keyFromWords words)
    | _ => throw .illTyped
  | .function _ _, _ => return textLiteral "<function>"

/-- `render_builtin_default` -/
def renderBuiltinDefault (ty : Ty) (value : Value) : Emitted users finish State Text :=
  match ty with
  | .named name _ _ => return textLiteral name
  | .sum name _ => renderSumVariant host name value
  | _ => renderValue host ty value

/-! ### Expressions -/

/-- The name of a declared type. -/
def declaredName : Ty → Option String
  | .named name _ _ | .sum name _ => some name
  | _ => none

def isReceiver : Expression → Bool
  | .identifier name _ => name == RECEIVER
  | _ => false

/-- The code of an expression. -/
def evaluate (e : Expression) : Emitted users finish State Value := do
  TracedM.note (.evaluated e)
  lift (host.generateExpression e)

variable (generatingBacktickFor : Option String)

/-- `render_expression`, in the render member of `generatingBacktickFor` -/
def renderExpression (e : Expression) : Emitted users finish State Text :=
  match host.oracleType e with
  | none => throw .untyped
  | some ty => do
    let value ← evaluate host e
    if isReceiver e && (declaredName ty).isSome && generatingBacktickFor == declaredName ty then
      renderBuiltinDefault host ty value
    else renderValue host ty value

def renderPart : InterpolationPart → Emitted users finish State Text
  | .literal s => return textLiteral s
  | .hole e => renderExpression host generatingBacktickFor e

/-- The loop of `generate_interpolation`. -/
def renderParts : Option Text → List InterpolationPart → Emitted users finish State Text
  | none, [] => return textLiteral ""
  | some acc, [] => return acc
  | acc, part :: rest => do
    let piece ← renderPart host generatingBacktickFor part
    renderParts (some (acc.getD [] ++ piece)) rest

/-- `generate_interpolation` -/
def generateInterpolation (parts : List InterpolationPart) : Emitted users finish State Text :=
  renderParts host generatingBacktickFor none parts

end Values

end Quilon.Rendering
