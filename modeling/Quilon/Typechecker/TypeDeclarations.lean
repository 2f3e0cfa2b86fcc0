import Quilon.Ast.Types
import Quilon.Typechecker.Overloads
import Mathlib.Logic.Function.Basic

/-!
# Checking type declarations

`check_type_declaration` and `acceptable_payload_type` (`typechecker/checker/declarations.rs`) with
`sum_variant_owner` and the built-in types (`checker/sums.rs`), `define` (`checker/env.rs`) and
`reserved_for` (`ast/nodes.rs`), over a list of declarations of one scope.  Names resolve from top to
bottom, so a declaration sees the ones before it and itself.

Left out are the spans of the errors and the members of a type (`check_type_methods`).
-/

namespace Quilon

/-- What a name is reserved for, or `none` when a program may bind it. -/
def reservedFor (name : String) : Option String :=
  if ["Num", "Bool", "Text", "Result", "Site", "Map", "Set"].contains name then
    some "a built-in type"
  else if ["Ok", "NotOk"].contains name then some "a constructor of `Result`"
  else if name = RECEIVER then some "the receiver"
  else if ["assert", "expect"].contains name then some "an assertion"
  else if ["equals", "contains", "not", "isOk", "isNotOk", "is", "aborts"].contains name then
    some "a matcher"
  else none

theorem ne_site_of_not_reserved {name : String} (h : reservedFor name = none) : name ≠ "Site" := by
  rintro rfl
  exact absurd h (by decide)

inductive DeclarationError where
  | reservedName (name purpose : String)
  | duplicateDefinition (name : String)
  | invalidPayloadType (variant : String) (got : Ty)
  | functionTypedField (name : String)

/-- The built-in record a call fills in with its own location. -/
def siteType : Ty :=
  .named "Site"
    [("file", .text), ("line", .num), ("column", .num), ("excerpt", .text), ("width", .num)] []

namespace TypeTable

def setSum (types : TypeTable) (name : String) (variants : List (String × List Ty))
    (h : name ≠ "Site") : TypeTable where
  sumTypes := Function.update types.sumTypes name (some (.sum name variants))
  recordTypes := types.recordTypes
  sum_name other ty hother := by
    by_cases heq : other = name
    · subst heq
      rw [Function.update_self] at hother
      exact ⟨variants, (Option.some.inj hother).symm⟩
    · rw [Function.update_of_ne heq] at hother
      exact types.sum_name other ty hother
  record_name := types.record_name
  site_reserved := by
    rw [Function.update_of_ne (Ne.symm h)]
    exact types.site_reserved

/-- The environment's entry of a type name, as far as it is a record's. -/
def setRecord (types : TypeTable) (name : String)
    (definition : Option (List (String × Ty) × List String)) : TypeTable where
  sumTypes := types.sumTypes
  recordTypes := Function.update types.recordTypes name
    (definition.map fun (fields, methods) => .named name fields methods)
  sum_name := types.sum_name
  record_name other ty hother := by
    by_cases heq : other = name
    · subst heq
      rw [Function.update_self, Option.map_eq_some_iff] at hother
      obtain ⟨⟨fields, methods⟩, -, rfl⟩ := hother
      exact ⟨fields, methods, rfl⟩
    · rw [Function.update_of_ne heq] at hother
      exact types.record_name other ty hother
  site_reserved := types.site_reserved

mutual

/-- A sum's accepted payload kinds. -/
def acceptablePayloadType (types : TypeTable) : Ty → Bool
  | .num | .text | .bool | .unit => true
  | .sum _ _ => true
  | .named name _ _ => (types.recordTypes name).isSome
  | .array element => acceptablePayloadType types element
  | .map key value => acceptablePayloadType types key && acceptablePayloadType types value
  | .record fields => acceptablePayloadFields types fields
  | _ => false

def acceptablePayloadFields (types : TypeTable) : List (String × Ty) → Bool
  | [] => true
  | (_, ty) :: rest => acceptablePayloadType types ty && acceptablePayloadFields types rest

end

end TypeTable

/-- The part of the checker a type declaration reads and writes: the names of the scope, and the
types behind them. -/
structure TypeChecker where
  scope : List String
  /-- the keys of `sum_types` -/
  sumNames : List String
  types : TypeTable

namespace TypeChecker

/-- The checker before the first declaration. -/
def builtins : TypeChecker where
  scope := ["Result", "Site"]
  sumNames := ["Result"]
  types :=
    { sumTypes := Function.update (fun _ => none) "Result" (some Ty.result)
      recordTypes := Function.update (fun _ => none) "Site" (some siteType)
      sum_name := by
        intro name ty h
        by_cases heq : name = "Result"
        · subst heq
          rw [Function.update_self] at h
          exact ⟨_, (Option.some.inj h).symm⟩
        · rw [Function.update_of_ne heq] at h
          exact absurd h (by simp)
      record_name := by
        intro name ty h
        by_cases heq : name = "Site"
        · subst heq
          rw [Function.update_self] at h
          exact ⟨_, _, (Option.some.inj h).symm⟩
        · rw [Function.update_of_ne heq] at h
          exact absurd h (by simp)
      site_reserved := by
        rw [Function.update_of_ne (by decide)] }

/-- `define`: a reserved name is refused, and so is a name the scope has. -/
def define (checker : TypeChecker) (name : String) : Except DeclarationError TypeChecker :=
  match reservedFor name with
  | some purpose => .error (.reservedName name purpose)
  | none =>
    if checker.scope.contains name then .error (.duplicateDefinition name)
    else .ok { checker with scope := name :: checker.scope }

/-- The sum type that has a variant of this name, if any. -/
def sumVariantOwner (checker : TypeChecker) (variant : String) : Option String :=
  checker.sumNames.find? fun name =>
    match checker.types.sumTypes name with
    | some (.sum _ variants) => variants.any fun v => v.1 == variant
    | _ => false

/-- The payload of a variant, resolved and checked: the parser lets at most one through. -/
def resolveVariant (checker : TypeChecker) (variant : String × List Ty) :
    Except DeclarationError (String × List Ty) :=
  match variant.2.head? with
  | none => .ok (variant.1, [])
  | some field =>
    let resolved := checker.types.resolveType field
    if checker.types.acceptablePayloadType resolved then .ok (variant.1, [resolved])
    else .error (.invalidPayloadType variant.1 resolved)

def resolveVariants (checker : TypeChecker) :
    List (String × List Ty) → Except DeclarationError (List (String × List Ty))
  | [] => .ok []
  | variant :: rest =>
    match checker.resolveVariant variant with
    | .error error => .error error
    | .ok resolved =>
      match checker.resolveVariants rest with
      | .error error => .error error
      | .ok others => .ok (resolved :: others)

/-- Variant names are unique within the declaration and against every registered variant. -/
def checkVariantNames (checker : TypeChecker) (seen : List String) :
    List (String × List Ty) → Except DeclarationError Unit
  | [] => .ok ()
  | (name, _) :: rest =>
    if seen.contains name || (checker.sumVariantOwner name).isSome then
      .error (.duplicateDefinition name)
    else checker.checkVariantNames (name :: seen) rest

/-- Each nullary variant becomes a value of the scope. -/
def defineConstants (checker : TypeChecker) :
    List (String × List Ty) → Except DeclarationError TypeChecker
  | [] => .ok checker
  | (name, []) :: rest =>
    match checker.define name with
    | .error error => .error error
    | .ok checker => checker.defineConstants rest
  | (_, _ :: _) :: rest => checker.defineConstants rest

/-- A record's fields have different names, and none of them holds a function. -/
def checkFields (seen : List String) : List (String × Ty) → Except DeclarationError Unit
  | [] => .ok ()
  | (name, ty) :: rest =>
    if seen.contains name then .error (.duplicateDefinition name)
    else match ty with
      | .function _ _ => .error (.functionTypedField name)
      | _ => checkFields (name :: seen) rest

/-- A sum type under declaration: the placeholder first, so that a payload may name the type. -/
def checkSum (checker : TypeChecker) (name : String) (h : name ≠ "Site")
    (variants : List (String × List Ty)) : Except DeclarationError TypeChecker :=
  let placeholder := { checker with
    sumNames := name :: checker.sumNames
    types := (checker.types.setRecord name (some ([], []))).setSum name [] h }
  match placeholder.resolveVariants variants with
  | .error error => .error error
  | .ok resolved =>
    match placeholder.checkVariantNames [] resolved with
    | .error error => .error error
    | .ok () =>
      let registered := { placeholder with types := placeholder.types.setSum name resolved h }
      match registered.defineConstants variants with
      | .error error => .error error
      | .ok checker => .ok { checker with types := checker.types.setRecord name none }

def checkRecord (checker : TypeChecker) (name : String) (fields : List (String × Ty))
    (methods : List String) : Except DeclarationError TypeChecker :=
  let placeholder := { checker with types := checker.types.setRecord name (some ([], [])) }
  match checkFields [] fields with
  | .error error => .error error
  | .ok () =>
    let resolved := placeholder.types.resolveFields fields
    .ok { placeholder with types := placeholder.types.setRecord name (some (resolved, methods)) }

def checkTypeDeclaration (checker : TypeChecker) (declaration : TypeDeclaration) :
    Except DeclarationError TypeChecker :=
  match hreserved : reservedFor declaration.name with
  | some purpose => .error (.reservedName declaration.name purpose)
  | none =>
    match checker.define declaration.name with
    | .error error => .error error
    | .ok checker =>
      match declaration.typeDefinition with
      | .sum variants _ =>
        checker.checkSum declaration.name (ne_site_of_not_reserved hreserved) variants
      | .record fields methods =>
        checker.checkRecord declaration.name fields (methods.map (·.name))

def checkTypeDeclarations (checker : TypeChecker) :
    List TypeDeclaration → Except DeclarationError TypeChecker
  | [] => .ok checker
  | declaration :: rest =>
    match checker.checkTypeDeclaration declaration with
    | .error error => .error error
    | .ok checker => checker.checkTypeDeclarations rest

end TypeChecker

/-- What the parser promises of a declaration: a variant carries at most one payload, and payload types
are annotations. -/
def TypeDeclaration.parsed (declaration : TypeDeclaration) : Bool :=
  match declaration.typeDefinition with
  | .sum variants _ =>
    variants.all fun variant => decide (variant.2.length ≤ 1) && variant.2.all Ty.isWritten
  | .record _ _ => true

end Quilon
