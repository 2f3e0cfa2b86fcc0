import Quilon.Typechecker.Overloads
import Mathlib.Logic.Function.Basic

/-!
# Registering and calling overload sets

`add_builtin_overloads`, `finish_overload_registration`, `overload_member_mut` and
`resolve_overload` (`typechecker/checker/overloads.rs`), on parameter types the checker has resolved.
`result_aliasing` is left out: nothing here reads it.
-/

namespace Quilon

/-- A member as the checker keeps it. -/
structure RegisteredOverload where
  parameters : List Ty
  ret : Option Ty
  isStatic : Bool
  isBuiltin : Bool

inductive OverloadError where
  | comparisonOverloadNotBool (operator : String) (got : Ty) (span : Span)
  | duplicateDefinition (name : String) (span : Span)
  | noMatchingOverload (name : String) (argTypes : List Ty) (argSpans : List Span)
      (candidates : List (List Ty)) (span : Span)
  | ambiguousOverload (name : String) (argTypes : List Ty) (candidates : List (List Ty))
      (span : Span)
  | unannotatedOverloadCall (name : String) (parameters : List Ty) (span : Span)

/-- The tables of `TypeChecker` that overload sets are kept in; a name without a set has an empty
one. -/
structure OverloadTables where
  overloads : String → List RegisteredOverload
  unannotatedOverloadMember : Option (String × List Ty × Span)
  overloadCallArgs : String → List (List Ty × List Span)

def OverloadTables.empty : OverloadTables := ⟨fun _ => [], none, fun _ => []⟩

def OverloadTables.addOverload (tables : OverloadTables) (name : String)
    (overload : RegisteredOverload) : OverloadTables :=
  { tables with
    overloads := Function.update tables.overloads name (tables.overloads name ++ [overload]) }

/-! ### The built-in members -/

def builtinMember (parameters : List Ty) (ret : Ty) : RegisteredOverload :=
  ⟨parameters, some ret, false, true⟩

/-- `BUILTIN_OVERLOADS` -/
def builtinOverloads : List (String × RegisteredOverload) :=
  [("core.time.now", builtinMember [] .num),
    ("__platform", builtinMember [] .text),
    ("__os", builtinMember [] .text),
    ("__quilon_version", builtinMember [] .text),
    ("__pointer_bits", builtinMember [] .num),
    ("__is_big_endian", builtinMember [] .bool),
    ("__is_aot", builtinMember [] .bool),
    ("__exit", builtinMember [.num] .unit),
    ("__color_enabled", builtinMember [.num] .bool),
    ("__test_suite_enter", builtinMember [.text, .text, .num] .num),
    ("__test_suite_selected", builtinMember [.text] .num),
    ("__test_case_selected", builtinMember [.text] .num),
    ("__test_case_failing", builtinMember [] .num),
    ("__test_case_finish", builtinMember [.text, .text, .num, .num] .num),
    ("__test_summary", builtinMember [.num, .num] .num)]

/-- What `add_builtin_overloads` adds, in order. -/
def addedBuiltins : List (String × RegisteredOverload) :=
  [BinaryOperator.add, .sub, .mul, .div, .mod].map
      (fun operator => (operator.symbol, builtinMember [.num, .num] .num)) ++
    [(BinaryOperator.add.symbol, builtinMember [.text, .text] .text)] ++
    [BinaryOperator.eq, .ne].flatMap
      (fun operator => [Ty.num, .text, .bool].map
        fun ty => (operator.symbol, builtinMember [ty, ty] .bool)) ++
    [BinaryOperator.lt, .le, .gt, .ge].flatMap
      (fun operator => [Ty.num, .text].map
        fun ty => (operator.symbol, builtinMember [ty, ty] .bool)) ++
    [BinaryOperator.and, .or].map
      (fun operator => (operator.symbol, builtinMember [.bool, .bool] .bool)) ++
    builtinOverloads

def OverloadTables.addBuiltinOverloads (tables : OverloadTables) : OverloadTables :=
  addedBuiltins.foldl (fun tables added => tables.addOverload added.1 added.2) tables

/-! ### Registration -/

def isComparisonOperator (name : String) : Bool :=
  name ∈ ["==", "!=", "<", "<=", ">", ">="]

def Ty.isBool : Ty → Bool
  | .bool => true
  | _ => false

/-- What one declaration hands to `finish_overload_registration`. -/
structure Registration where
  name : String
  span : Span
  parameters : List Ty
  ret : Option Ty
  isStatic : Bool

def OverloadTables.finishOverloadRegistration (tables : OverloadTables)
    (registration : Registration) : Except OverloadError OverloadTables :=
  match registration.ret.filter fun ret =>
      isComparisonOperator registration.name && !ret.isBool with
  | some ret => .error (.comparisonOverloadNotBool registration.name ret registration.span)
  | none =>
    if (tables.overloads registration.name).any fun o =>
        duplicateSignature o.parameters registration.parameters then
      .error (.duplicateDefinition registration.name registration.span)
    else
      let unannotated := tables.unannotatedOverloadMember
      let tables := { tables with
        unannotatedOverloadMember :=
          if registration.ret.isNone && unannotated.isNone then
            some (registration.name, registration.parameters, registration.span)
          else unannotated }
      .ok (tables.addOverload registration.name
        ⟨registration.parameters, registration.ret, registration.isStatic, false⟩)

/-- Registering a sequence of members behind the built-in ones. -/
def registerMembers (registrations : List Registration) : Except OverloadError OverloadTables :=
  registrations.foldlM OverloadTables.finishOverloadRegistration
    OverloadTables.empty.addBuiltinOverloads

/-- `overload_member_mut`: the first member with this signature. -/
def OverloadTables.overloadMember (tables : OverloadTables) (name : String)
    (parameterTypes : List Ty) : Option RegisteredOverload :=
  (tables.overloads name).find? fun o => duplicateSignature o.parameters parameterTypes

/-! ### Calls -/

/-- The members a call with these arguments fits. -/
def OverloadTables.matches (tables : OverloadTables) (name : String) (argTypes : List Ty) :
    List RegisteredOverload :=
  (tables.overloads name).filter fun o => parametersAccept o.parameters argTypes typesMatch

def OverloadTables.candidates (tables : OverloadTables) (name : String) : List (List Ty) :=
  (tables.overloads name).map (·.parameters)

/-- `resolve_overload`: the type of the call, and the tables with the member it resolved to. -/
def OverloadTables.resolveOverload (tables : OverloadTables) (types : TypeTable) (name : String)
    (argTypes : List Ty) (argSpans : List Span) (span : Span) :
    Except OverloadError Ty × OverloadTables :=
  match tables.matches name argTypes with
  | [] =>
    (.error (.noMatchingOverload name argTypes argSpans (tables.candidates name) span), tables)
  | [only] =>
    let calls := tables.overloadCallArgs name ++ [(only.parameters, argSpans)]
    let tables :=
      { tables with overloadCallArgs := Function.update tables.overloadCallArgs name calls }
    match only.ret with
    | some ret => (.ok (types.resolveType ret), tables)
    | none => (.error (.unannotatedOverloadCall name only.parameters span), tables)
  | _ => (.error (.ambiguousOverload name argTypes (tables.candidates name) span), tables)

end Quilon
