import Quilon.Ast.Types
import Quilon.Library.Overlay
import Quilon.Runtime.Http
import Mathlib.Data.Finset.Card
import Mathlib.Data.List.Sort
import Mathlib.Data.Char
import Mathlib.Data.List.Lex

/-!
# Types of record literals

`infer_record` (`typechecker/checker/exprs.rs`) with `types_compatible` (`checker.rs`) and the order
of the fields of an anonymous record (`ast/nodes.rs`).  The inference of the parts is a parameter:
it changes the checker and may fail.
-/

namespace Quilon.RecordUpdate

/-! ### Positional fields and the order of fields -/

/-- The bytes of a digit are ASCII, so this is about characters. -/
def isPositionalField (field : String) : Bool :=
  !field.toList.isEmpty && field.toList.all Char.isDigit

/-- The first field speaks for the rest. -/
def recordFieldsArePositional (fields : List (String × Ty)) : Bool :=
  match fields.head? with
  | some (name, _) => isPositionalField name
  | none => false

/-- `name.parse::<usize>().unwrap_or(usize::MAX)` -/
def positionOf (name : String) : Nat :=
  (Http.fromStrRadix 10 name.toList).getD Http.usizeMax

/-- Both sorts of the source are stable, as is `insertionSort`. -/
def canonicalRecordFieldOrder (fields : List (String × Ty)) : List (String × Ty) :=
  if recordFieldsArePositional fields then
    fields.insertionSort fun a b => positionOf a.1 ≤ positionOf b.1
  else fields.insertionSort fun a b => a.1.toList ≤ b.1.toList

/-- The fields of a record type. -/
def recordFields : Ty → Option (List (String × Ty))
  | .named _ fields _ => some fields
  | .record fields => some fields
  | _ => none

/-! ### Compatible types -/

mutual

def typesCompatible : Ty → Ty → Bool
  | .generic _, _ => true
  | _, .generic _ => true
  | .sum n₁ v₁, .sum n₂ v₂ => decide (n₁ = n₂) && variantsCompatible v₁ v₂
  | .array e₁, .array e₂ => typesCompatible e₁ e₂
  | .map k₁ v₁, .map k₂ v₂ => typesCompatible k₁ k₂ && typesCompatible v₁ v₂
  | .set e₁, .set e₂ => typesCompatible e₁ e₂
  | a, b => Ty.same a b

/-- Pairwise compatible, and as many. -/
def allCompatible : List Ty → List Ty → Bool
  | [], [] => true
  | a :: as, b :: bs => typesCompatible a b && allCompatible as bs
  | _, _ => false

def variantsCompatible : List (String × List Ty) → List (String × List Ty) → Bool
  | [], [] => true
  | (m, as) :: vs, (n, bs) :: ws =>
    decide (m = n) && allCompatible as bs && variantsCompatible vs ws
  | _, _ => false

end

/-! ### The literal -/

inductive RecordError (ε : Type*) where
  /-- the source of a spread is no record -/
  | typeMismatch (expected got : Ty) (span : Span)
  | multiplePositionalSpreads (span : Span)
  | duplicateDefinition (name : String) (span : Span)
  | positionalAccessOnNamedRecord (field : String) (span : Span)
  | recordUpdatePositionOutOfRange (position : String) (size : Nat) (span : Span)
  /-- of a part -/
  | part (error : ε)

/-- The local variables of `infer_record`. -/
structure Merge where
  merged : List (String × Ty)
  namedIdentity : Option Ty
  literalFieldNames : Finset String
  spreadPositions : Finset String
  spreadIsNamed : Bool
  spreadCount : Nat
  anyPositionalSpread : Bool
  numberedOverrides : List (String × Span)

def isSpread : Expression → Bool
  | .spread _ _ => true
  | _ => false

namespace Merge

def new : Merge where
  merged := []
  namedIdentity := none
  literalFieldNames := ∅
  spreadPositions := ∅
  spreadIsNamed := false
  spreadCount := 0
  anyPositionalSpread := false
  numberedOverrides := []

/-- The fields of a spread source of this type, and what is noted of it. -/
def enterSource (merge : Merge) (ty : Ty) : Option (Merge × List (String × Ty)) :=
  match ty with
  | .record fields =>
    if recordFieldsArePositional fields then
      some ({ merge with
        anyPositionalSpread := true
        spreadPositions := merge.spreadPositions ∪ (fields.map (·.1)).toFinset }, fields)
    else some ({ merge with spreadIsNamed := true }, fields)
  | .named name fields methods =>
    some ({ merge with
      spreadIsNamed := true
      namedIdentity := merge.namedIdentity.or (some (.named name fields methods)) }, fields)
  | _ => none

/-- A spread of `source`, written at `span`, whose type is `ty`. -/
def addSpread {ε : Type*} (merge : Merge) (source : Expression) (span : Span) (ty : Ty) :
    Except (RecordError ε) Merge :=
  match merge.enterSource ty with
  | none => .error (.typeMismatch (.record []) ty source.span)
  | some (merge, fields) =>
    let spreadCount := merge.spreadCount + 1
    if 1 < spreadCount && merge.anyPositionalSpread then .error (.multiplePositionalSpreads span)
    else .ok { merge with spreadCount, merged := overlay merge.merged fields }

/-- The checks of an explicit field, before its value is looked at. -/
def enterLiteral {ε : Type*} (merge : Merge) (hasSpread : Bool) (name : String) (span : Span) :
    Except (RecordError ε) Merge :=
  if name ∈ merge.literalFieldNames then .error (.duplicateDefinition name span)
  else
    let merge := { merge with literalFieldNames := insert name merge.literalFieldNames }
    if hasSpread && isPositionalField name then
      .ok { merge with numberedOverrides := merge.numberedOverrides ++ [(name, span)] }
    else .ok merge

def addLiteral (merge : Merge) (name : String) (ty : Ty) : Merge :=
  { merge with merged := overwrite merge.merged name ty }

def checkOverrides {ε : Type*} (merge : Merge) : List (String × Span) → Except (RecordError ε) Unit
  | [] => .ok ()
  | (position, span) :: rest =>
    if merge.spreadIsNamed then .error (.positionalAccessOnNamedRecord position span)
    else if position ∉ merge.spreadPositions then
      .error (.recordUpdatePositionOutOfRange position merge.spreadPositions.card span)
    else merge.checkOverrides rest

end Merge

/-- The merged fields are the declared ones, each of a compatible type. -/
def reproducesNamed (merged declared : List (String × Ty)) : Bool :=
  decide (merged.length = declared.length) &&
    declared.all fun (name, declaredType) =>
      match merged.lookup name with
      | some mergedType => typesCompatible declaredType mergedType
      | none => false

/-- The type of the literal: the named one where the fields reproduce it. -/
def resultType (merged : List (String × Ty)) (namedIdentity : Option Ty) : Ty :=
  match namedIdentity with
  | some (.named name declared methods) =>
    if reproducesNamed merged declared then .named name declared methods
    else .record (canonicalRecordFieldOrder merged)
  | _ => .record (canonicalRecordFieldOrder merged)

section Infer

variable {σ ε : Type} (infer : Expression → σ → Except ε (Ty × σ))

def inferPart (state : σ) (expression : Expression) : Except (RecordError ε) (Ty × σ) :=
  match infer expression state with
  | .ok result => .ok result
  | .error error => .error (.part error)

/-- The loop over the fields. -/
def inferParts (hasSpread : Bool) (merge : Merge) (state : σ) :
    List (String × Expression) → Except (RecordError ε) (Merge × σ)
  | [] => .ok (merge, state)
  | (_, .spread source span) :: rest => do
    let (ty, state) ← inferPart infer state (.spread source span)
    let merge ← merge.addSpread source span ty
    inferParts hasSpread merge state rest
  | (name, value) :: rest => do
    let merge ← merge.enterLiteral hasSpread name value.span
    let (ty, state) ← inferPart infer state value
    inferParts hasSpread (merge.addLiteral name ty) state rest

def inferRecord (fields : List (String × Expression)) (state : σ) :
    Except (RecordError ε) (Ty × σ) := do
  let hasSpread := fields.any (isSpread ·.2)
  let (merge, state) ← inferParts infer hasSpread .new state fields
  merge.checkOverrides merge.numberedOverrides
  return (resultType merge.merged merge.namedIdentity, state)

end Infer

end Quilon.RecordUpdate
