import Quilon.Ast.Nodes

/-!
# Overload sets in the type checker

`types_match` (`typechecker/checker.rs`), `resolve_type` (`checker/sums.rs`), `parameters_accept`
and the `Site` rule (`ast/nodes.rs`), and the registration and resolution of an overload set
(`checker/overloads.rs`).

A member is registered twice: the checker keeps its parameters resolved against the declared
types, the code generator keeps the annotations as they were written.  `Overload` holds the
written list; `Overload.parameters` is the checker's resolved one.
-/

namespace Quilon

/-! ### `types_match` -/

/-- What a `Generic` is for dispatch: `Num`, or another `Generic`. -/
def Ty.isNumOrGeneric : Ty → Bool
  | .num | .generic _ => true
  | _ => false

mutual

/-- Exact-type match for overload dispatch; user types are identified by name. -/
def typesMatch : Ty → Ty → Bool
  | .generic _, other => other.isNumOrGeneric
  | other, .generic _ => other.isNumOrGeneric
  | .num, .num | .text, .text | .bool, .bool | .unit, .unit => true
  | .array a, .array b => typesMatch a b
  | .map ka va, .map kb vb => typesMatch ka kb && typesMatch va vb
  | .set a, .set b => typesMatch a b
  | .named a _ _, .named b _ _ | .named a _ _, .sum b _
  | .sum a _, .named b _ _ | .sum a _, .sum b _ => a == b
  | .function pa ra, .function pb rb =>
    pa.length == pb.length && typesMatchAll pa pb && typesMatch ra rb
  | _, _ => false

/-- `zip(..).all(types_match)`. -/
def typesMatchAll : List Ty → List Ty → Bool
  | a :: as, b :: bs => typesMatch a b && typesMatchAll as bs
  | _, _ => true

end

/-! ### Resolving annotations -/

/-- The name a `Named` or `Sum` type carries. -/
def Ty.declaredName : Ty → Option String
  | .named name _ _ | .sum name _ => some name
  | _ => none

/-- The types a program declares, as the checker keeps them: each under its own name, a sum in
`sum_types`, a record in `env`.  `Site` is reserved, so no sum can take its name. -/
structure TypeTable where
  sumTypes : String → Option Ty
  recordTypes : String → Option Ty
  sum_name : ∀ name ty, sumTypes name = some ty → ∃ variants, ty = .sum name variants
  record_name : ∀ name ty, recordTypes name = some ty →
    ∃ fields methods, ty = .named name fields methods
  site_reserved : sumTypes "Site" = none

namespace TypeTable

variable (types : TypeTable)

mutual

/-- Fill in the definition of every written type name the checker knows. -/
def resolveType : Ty → Ty
  | .named name [] methods =>
    match types.sumTypes name with
    | some sum => sum
    | none => (types.recordTypes name).getD (.named name [] methods)
  | .named name (field :: fields) methods => .named name (field :: fields) methods
  | .function parameters returnType =>
    .function (resolveTypes parameters) (resolveType returnType)
  | .array element => .array (resolveType element)
  | .map key value => .map (resolveType key) (resolveType value)
  | .set element => .set (resolveType element)
  | .record fields => .record (resolveFields fields)
  | .num => .num
  | .text => .text
  | .bool => .bool
  | .unit => .unit
  | .generic name => .generic name
  | .sum name variants => .sum name variants

def resolveTypes : List Ty → List Ty
  | [] => []
  | ty :: rest => resolveType ty :: resolveTypes rest

def resolveFields : List (String × Ty) → List (String × Ty)
  | [] => []
  | (name, ty) :: rest => (name, resolveType ty) :: resolveFields rest

end

end TypeTable

/-! ### The call-site rule -/

def isSiteType : Ty → Bool
  | .named name _ _ => name == "Site"
  | _ => false

def takesCallSite (parameters : List Ty) : Bool :=
  parameters.getLast?.any isSiteType

/-- The callee's last parameter is a `Site` and the call left exactly that one argument off. -/
def fillsCallSite (parameters : List Ty) (argCount : Nat) : Bool :=
  parameters.length == argCount + 1 && takesCallSite parameters

def parametersAccept {α : Type*} (parameters : List Ty) (args : List α)
    (accepts : Ty → α → Bool) : Bool :=
  if parameters.length ≠ args.length && !fillsCallSite parameters args.length then false
  else (parameters.zip args).all fun (parameter, arg) => accepts parameter arg

/-! ### Registration and resolution -/

/-- One member of an overload set: its parameter types as they were written. -/
structure Overload where
  declared : List Ty

def Overload.parameters (types : TypeTable) (overload : Overload) : List Ty :=
  overload.declared.map types.resolveType

/-- The duplicate-signature test of `finish_overload_registration`. -/
def duplicateSignature (a b : List Ty) : Bool :=
  a.length == b.length && typesMatchAll a b

/-- Registering the members in order: an exact duplicate of an earlier one is an error. -/
def registerOverloads (types : TypeTable) : List Overload → List Overload → Option (List Overload)
  | registered, [] => some registered
  | registered, member :: rest =>
    if registered.any fun o => duplicateSignature (o.parameters types) (member.parameters types)
    then none
    else registerOverloads types (registered ++ [member]) rest

/-- The one member whose parameters match; no match and an ambiguity are both errors. -/
def resolveOverload (types : TypeTable) (members : List Overload) (argTypes : List Ty) :
    Option Overload :=
  match members.filter fun o => parametersAccept (o.parameters types) argTypes typesMatch with
  | [only] => some only
  | _ => none

end Quilon
