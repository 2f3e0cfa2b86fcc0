import Quilon.Typechecker.Equiv.TypeDeclarations
import Quilon.Codegen.Sums

/-!
# The layouts of declared sums

What the tables of the generator hold once the type declarations of a program have been entered
(`registered_declarations`): every declaration list the checker accepts is registered without an
error, and each sum has the layout of its own variants, with a pointer where a payload names the sum
itself and with the representation values finally have everywhere else.
-/

namespace Quilon.Sums

open Llvm

namespace CodeGenerator

variable {layout : DataLayout} {generator later : CodeGenerator}

/-! ### Representations -/

/-- What `value_repr_type` answers for a type it can lower. -/
def reprOf (generator : CodeGenerator) : Ty → BasicType
  | .num | .generic _ => double
  | .bool => i1
  | .unit => i8
  | .text | .array _ => ptrLenStructType
  | .map _ _ | .set _ | .record _ => ptr
  | .function _ _ => closureStructType
  | .sum name _ => generator.sumStructType name
  | .named name [] _ =>
    if (generator.sumLayouts name).isSome then generator.sumStructType name else ptr
  | .named _ (_ :: _) _ => ptr

mutual

/-- No type variable is in the type, and every sum in it is registered. -/
def lowerable (generator : CodeGenerator) : Ty → Bool
  | .generic _ => false
  | .sum name _ => (generator.sumLayouts name).isSome
  | .array element | .set element => lowerable generator element
  | .map key value => lowerable generator key && lowerable generator value
  | .record fields => fieldsLowerable generator fields
  | .function parameters returnType =>
    allLowerable generator parameters && lowerable generator returnType
  | .num | .text | .bool | .unit | .named _ _ _ => true

def allLowerable (generator : CodeGenerator) : List Ty → Bool
  | [] => true
  | ty :: rest => lowerable generator ty && allLowerable generator rest

def fieldsLowerable (generator : CodeGenerator) : List (String × Ty) → Bool
  | [] => true
  | (_, ty) :: rest => lowerable generator ty && fieldsLowerable generator rest

end

mutual

theorem exists_typeToLlvm (layout : DataLayout) : ∀ {ty : Ty}, generator.lowerable ty = true →
    ∃ lowered, generator.typeToLlvm layout ty = .ok lowered
  | .num, _ | .bool, _ | .unit, _ | .text, _ => by
    rw [typeToLlvm]
    exact ⟨_, rfl⟩
  | .array element, h => by
    obtain ⟨lowered, hlowered⟩ := exists_typeToLlvm layout
      (show generator.lowerable element = true by simpa [lowerable] using h)
    rw [typeToLlvm, hlowered]
    exact ⟨_, rfl⟩
  | .set element, h => by
    obtain ⟨lowered, hlowered⟩ := exists_typeToLlvm layout
      (show generator.lowerable element = true by simpa [lowerable] using h)
    rw [typeToLlvm, hlowered]
    exact ⟨_, rfl⟩
  | .map key value, h => by
    simp only [lowerable, Bool.and_eq_true] at h
    obtain ⟨k, hk⟩ := exists_typeToLlvm layout h.1
    obtain ⟨v, hv⟩ := exists_typeToLlvm layout h.2
    rw [typeToLlvm, hk, hv]
    exact ⟨_, rfl⟩
  | .record fields, h => by
    obtain ⟨lowered, hlowered⟩ := exists_fieldsToLlvm layout
      (show generator.fieldsLowerable fields = true by simpa [lowerable] using h)
    rw [typeToLlvm, hlowered]
    exact ⟨_, rfl⟩
  | .sum name variants, h => by
    have hregistered : (generator.sumLayouts name).isSome = true := by simpa [lowerable] using h
    rw [typeToLlvm, sumValueStructType, hregistered, Bool.true_or]
    exact ⟨_, rfl⟩
  | .named name [] methods, _ => by
    rw [typeToLlvm]
    split
    · exact ⟨_, rfl⟩
    · exact ⟨_, rfl⟩
  | .named name (field :: fields) methods, _ => by
    rw [typeToLlvm]
    exact ⟨_, rfl⟩
  | .function parameters returnType, h => by
    simp only [lowerable, Bool.and_eq_true] at h
    obtain ⟨ps, hps⟩ := exists_typesToLlvm layout h.1
    obtain ⟨r, hr⟩ := exists_typeToLlvm layout h.2
    rw [typeToLlvm, hps, hr]
    exact ⟨_, rfl⟩
  | .generic name, h => by simp [lowerable] at h

theorem exists_typesToLlvm (layout : DataLayout) : ∀ {tys : List Ty}, generator.allLowerable tys = true →
    ∃ lowered, generator.typesToLlvm layout tys = .ok lowered
  | [], _ => ⟨[], by rw [typesToLlvm]⟩
  | ty :: rest, h => by
    simp only [allLowerable, Bool.and_eq_true] at h
    obtain ⟨first, hfirst⟩ := exists_typeToLlvm layout h.1
    obtain ⟨others, hothers⟩ := exists_typesToLlvm layout h.2
    rw [typesToLlvm, hfirst, hothers]
    exact ⟨_, rfl⟩

theorem exists_fieldsToLlvm (layout : DataLayout) : ∀ {fields : List (String × Ty)},
    generator.fieldsLowerable fields = true →
      ∃ lowered, generator.fieldsToLlvm layout fields = .ok lowered
  | [], _ => ⟨[], by rw [fieldsToLlvm]⟩
  | (name, ty) :: rest, h => by
    simp only [fieldsLowerable, Bool.and_eq_true] at h
    obtain ⟨first, hfirst⟩ := exists_typeToLlvm layout h.1
    obtain ⟨others, hothers⟩ := exists_fieldsToLlvm layout h.2
    rw [fieldsToLlvm, hfirst, hothers]
    exact ⟨_, rfl⟩

end

/-- The representation of a type that can be lowered. -/
theorem valueReprType_eq {ty : Ty} (h : generator.lowerable ty = true) :
    generator.valueReprType layout ty = .ok (generator.reprOf ty) := by
  obtain ⟨lowered, hlowered⟩ := exists_typeToLlvm layout h
  rw [valueReprType]
  cases ty with
  | num | bool | unit | text => rw [typeToLlvm]; rfl
  | array element => rfl
  | record fields => rfl
  | map key value =>
    simp only [lowerable, Bool.and_eq_true] at h
    obtain ⟨k, hk⟩ := exists_typeToLlvm layout h.1
    obtain ⟨v, hv⟩ := exists_typeToLlvm layout h.2
    rw [typeToLlvm, hk, hv]
    rfl
  | set element =>
    obtain ⟨e, he⟩ := exists_typeToLlvm layout
      (show generator.lowerable element = true by simpa [lowerable] using h)
    rw [typeToLlvm, he]
    rfl
  | sum name variants =>
    have hregistered : (generator.sumLayouts name).isSome = true := by simpa [lowerable] using h
    rw [typeToLlvm, sumValueStructType, hregistered, Bool.true_or]
    rfl
  | named name fields methods =>
    cases fields with
    | nil =>
      rw [typeToLlvm, reprOf]
      show (if (generator.sumLayouts name).isSome = true
        then Except.ok (generator.sumStructType name) else .ok ptr) = .ok _
      split
      · rfl
      · rfl
    | cons field fields => rw [typeToLlvm]; rfl
  | function parameters returnType =>
    simp only [lowerable, Bool.and_eq_true] at h
    obtain ⟨ps, hps⟩ := exists_typesToLlvm layout h.1
    obtain ⟨r, hr⟩ := exists_typeToLlvm layout h.2
    rw [typeToLlvm, hps, hr]
    rfl
  | generic name => simp [lowerable] at h

/-- A representation depends on the layout of the type's own name and on no other. -/
theorem reprOf_congr {ty : Ty}
    (h : ∀ name, ty.declaredName = some name → later.sumLayouts name = generator.sumLayouts name) :
    later.reprOf ty = generator.reprOf ty := by
  cases ty with
  | sum name variants => rw [reprOf, reprOf, sumStructType, sumStructType, h name rfl]
  | named name fields methods =>
    cases fields with
    | nil => rw [reprOf, reprOf, sumStructType, sumStructType, h name rfl]
    | cons field fields => rfl
  | _ => rfl

mutual

/-- What the parser gives can be lowered. -/
theorem lowerable_of_written (hresult : (generator.sumLayouts "Result").isSome = true) :
    ∀ {ty : Ty}, ty.isWritten = true → generator.lowerable ty = true
  | .num, _ | .bool, _ | .unit, _ | .text, _ | .named _ _ _, _ => by rw [lowerable]
  | .array element, h => by
    rw [lowerable]
    exact lowerable_of_written hresult (by simpa [Ty.isWritten] using h)
  | .set element, h => by
    rw [lowerable]
    exact lowerable_of_written hresult (by simpa [Ty.isWritten] using h)
  | .map key value, h => by
    simp only [Ty.isWritten, Bool.and_eq_true] at h
    rw [lowerable, lowerable_of_written hresult h.1, lowerable_of_written hresult h.2,
      Bool.and_self]
  | .record fields, h => by
    rw [lowerable]
    exact fieldsLowerable_of_written hresult (by simpa [Ty.isWritten] using h)
  | .sum name variants, h => by
    have hname : Ty.sum name variants = .result := by simpa [Ty.isWritten] using h
    cases hname
    rw [lowerable, hresult]
  | .function parameters returnType, h => by
    simp only [Ty.isWritten, Bool.and_eq_true] at h
    rw [lowerable, allLowerable_of_written hresult h.1, lowerable_of_written hresult h.2,
      Bool.and_self]
  | .generic name, h => by simp [Ty.isWritten] at h

theorem allLowerable_of_written (hresult : (generator.sumLayouts "Result").isSome = true) :
    ∀ {tys : List Ty}, Ty.areWritten tys = true → generator.allLowerable tys = true
  | [], _ => by rw [allLowerable]
  | ty :: rest, h => by
    simp only [Ty.areWritten, Bool.and_eq_true] at h
    rw [allLowerable, lowerable_of_written hresult h.1, allLowerable_of_written hresult h.2,
      Bool.and_self]

theorem fieldsLowerable_of_written (hresult : (generator.sumLayouts "Result").isSome = true) :
    ∀ {fields : List (String × Ty)}, Ty.fieldsAreWritten fields = true →
      generator.fieldsLowerable fields = true
  | [], _ => by rw [fieldsLowerable]
  | (name, ty) :: rest, h => by
    simp only [Ty.fieldsAreWritten, Bool.and_eq_true] at h
    rw [fieldsLowerable, lowerable_of_written hresult h.1,
      fieldsLowerable_of_written hresult h.2, Bool.and_self]

end

/-! ### What the checker filled in -/

/-- The checker's types at some moment, as far as the final layouts go: its sums are registered, its
other records are not. -/
structure Snapshot (generator : CodeGenerator) (types : TypeTable) : Prop where
  result : (generator.sumLayouts "Result").isSome = true
  sums : ∀ name, (types.sumTypes name).isSome = true → (generator.sumLayouts name).isSome = true
  records : ∀ name, types.sumTypes name = none → (types.recordTypes name).isSome = true →
    generator.sumLayouts name = none

variable {types : TypeTable}

mutual

theorem lowerable_resolveType (h : Snapshot generator types) :
    ∀ {ty : Ty}, ty.isWritten = true → generator.lowerable (types.resolveType ty) = true
  | .num, _ | .bool, _ | .unit, _ | .text, _ => by rw [TypeTable.resolveType, lowerable]
  | .named name [] methods, _ => by
    rw [TypeTable.resolveType]
    cases hsum : types.sumTypes name with
    | some sum =>
      obtain ⟨variants, rfl⟩ := types.sum_name name sum hsum
      rw [lowerable]
      exact h.sums name (by rw [hsum]; rfl)
    | none =>
      cases hrecord : types.recordTypes name with
      | none => simp only [Option.getD_none]; rw [lowerable]
      | some record =>
        obtain ⟨fields, methods, rfl⟩ := types.record_name name record hrecord
        simp only [Option.getD_some]
        rw [lowerable]
  | .named name (field :: fields) methods, _ => by rw [TypeTable.resolveType, lowerable]
  | .array element, hty => by
    rw [TypeTable.resolveType, lowerable]
    exact lowerable_resolveType h (by simpa [Ty.isWritten] using hty)
  | .set element, hty => by
    rw [TypeTable.resolveType, lowerable]
    exact lowerable_resolveType h (by simpa [Ty.isWritten] using hty)
  | .map key value, hty => by
    simp only [Ty.isWritten, Bool.and_eq_true] at hty
    rw [TypeTable.resolveType, lowerable, lowerable_resolveType h hty.1,
      lowerable_resolveType h hty.2, Bool.and_self]
  | .record fields, hty => by
    rw [TypeTable.resolveType, lowerable]
    exact fieldsLowerable_resolveFields h (by simpa [Ty.isWritten] using hty)
  | .sum name variants, hty => by
    rw [TypeTable.resolveType]
    exact lowerable_of_written h.result hty
  | .function parameters returnType, hty => by
    simp only [Ty.isWritten, Bool.and_eq_true] at hty
    rw [TypeTable.resolveType, lowerable, allLowerable_resolveTypes h hty.1,
      lowerable_resolveType h hty.2, Bool.and_self]
  | .generic name, hty => by simp [Ty.isWritten] at hty

theorem allLowerable_resolveTypes (h : Snapshot generator types) :
    ∀ {tys : List Ty}, Ty.areWritten tys = true →
      generator.allLowerable (types.resolveTypes tys) = true
  | [], _ => by rw [TypeTable.resolveTypes, allLowerable]
  | ty :: rest, hty => by
    simp only [Ty.areWritten, Bool.and_eq_true] at hty
    rw [TypeTable.resolveTypes, allLowerable, lowerable_resolveType h hty.1,
      allLowerable_resolveTypes h hty.2, Bool.and_self]

theorem fieldsLowerable_resolveFields (h : Snapshot generator types) :
    ∀ {fields : List (String × Ty)}, Ty.fieldsAreWritten fields = true →
      generator.fieldsLowerable (types.resolveFields fields) = true
  | [], _ => by rw [TypeTable.resolveFields, fieldsLowerable]
  | (name, ty) :: rest, hty => by
    simp only [Ty.fieldsAreWritten, Bool.and_eq_true] at hty
    rw [TypeTable.resolveFields, fieldsLowerable, lowerable_resolveType h hty.1,
      fieldsLowerable_resolveFields h hty.2, Bool.and_self]

end

/-- Filling in definitions leaves the representation as it is. -/
theorem reprOf_resolveType (h : Snapshot generator types) {ty : Ty} (hty : ty.isWritten = true) :
    generator.reprOf (types.resolveType ty) = generator.reprOf ty := by
  cases ty with
  | named name fields methods =>
    obtain ⟨rfl, rfl⟩ : fields = [] ∧ methods = [] := by simpa [Ty.isWritten] using hty
    rw [TypeTable.resolveType]
    cases hsum : types.sumTypes name with
    | some sum =>
      obtain ⟨variants, rfl⟩ := types.sum_name name sum hsum
      rw [reprOf, reprOf, if_pos (h.sums name (by rw [hsum]; rfl))]
    | none =>
      cases hrecord : types.recordTypes name with
      | none => rfl
      | some record =>
        obtain ⟨fields, methods, rfl⟩ := types.record_name name record hrecord
        have hunregistered := h.records name hsum (by rw [hrecord]; rfl)
        simp only [Option.getD_some]
        cases fields with
        | nil => rfl
        | cons field fields =>
          rw [reprOf, reprOf, hunregistered]
          rfl
  | num | bool | unit | text | sum _ _ | generic _ => rw [TypeTable.resolveType]
  | array _ | map _ _ | set _ | record _ | function _ _ => rw [TypeTable.resolveType]; rfl

end CodeGenerator

/-! ### Layouts -/

section Layouts

variable (layout : DataLayout) (slot : Ty → BasicType)

/-- The slot of a position with these fields. -/
def slotAt (fields : List Ty) : BasicType :=
  match fields.find? isConcrete with
  | some field => slot field
  | none => if fields.any isGeneric then double else i8

def slotTypes (variants : List (String × List Ty)) : List BasicType :=
  let slots := (List.range (arity variants)).map fun position =>
    slotAt slot (variants.filterMap (·.2[position]?))
  if slots.isEmpty then [double] else slots

def variantBodies (variants : List (String × List Ty)) : List (String × BasicType) :=
  variants.map fun variant => (variant.1, .struct (variant.2.map slot))

/-- `build_sum_layout` where every field has a representation. -/
def layoutOf (variants : List (String × List Ty)) : SumLayout :=
  if positionsAgree variants then .perPosition (slotTypes slot variants)
  else
    .union (variantBodies slot variants)
      ((widestBody layout ((variantBodies slot variants).map (·.2))).getD (.struct []))

/-- A field with its representation. -/
def lowered (ty : Ty) : Lowered := (ty, .ok (slot ty))

variable {slot}

theorem payloadSlotType_lowered (fields : List Ty) :
    payloadSlotType (fields.map (lowered slot)) = .ok (slotAt slot fields) := by
  rw [payloadSlotType, slotAt, List.find?_map]
  cases hfind : fields.find? isConcrete with
  | some field =>
    have hcomp : ((fun field : Lowered => isConcrete field.1) ∘ lowered slot) = isConcrete := rfl
    rw [hcomp, hfind]
    rfl
  | none =>
    have hcomp : ((fun field : Lowered => isConcrete field.1) ∘ lowered slot) = isConcrete := rfl
    rw [hcomp, hfind, List.any_map]
    show (if fields.any isGeneric = true then Except.ok double else .ok i8) = _
    split
    · rfl
    · rfl

theorem arity_lowered (variants : List (String × List Ty)) :
    arity (variants.map fun variant => (variant.1, variant.2.map (lowered slot))) =
      arity variants := by
  rw [arity, arity, List.map_map]
  congr 2
  funext variant
  exact List.length_map _

theorem payloadSlotTypes_lowered (variants : List (String × List Ty)) :
    payloadSlotTypes (variants.map fun variant => (variant.1, variant.2.map (lowered slot))) =
      .ok (slotTypes slot variants) := by
  have hposition : ∀ position : Nat, payloadSlotType
      ((variants.map fun variant => (variant.1, variant.2.map (lowered slot))).filterMap
        (·.2[position]?)) =
      pure (slotAt slot (variants.filterMap (·.2[position]?))) := by
    intro position
    have hfields : (variants.map fun variant => (variant.1, variant.2.map (lowered slot))).filterMap
        (·.2[position]?) = (variants.filterMap (·.2[position]?)).map (lowered slot) := by
      rw [List.filterMap_map, List.map_filterMap]
      congr 1
      funext variant
      exact List.getElem?_map
    rw [hfields]
    exact payloadSlotType_lowered _
  rw [payloadSlotTypes, arity_lowered]
  simp only [hposition]
  rw [List.mapM_pure]
  rfl

/-- Where every field has a representation, a layout is built. -/
theorem buildSumLayout_lowered (variants : List (String × List Ty)) :
    buildSumLayout layout (variants.map fun variant => (variant.1, variant.2.map (lowered slot))) =
      .ok (layoutOf layout slot variants) := by
  have hplain : ((variants.map fun variant => (variant.1, variant.2.map (lowered slot))).map
      fun variant => (variant.1, variant.2.map (·.1))) = variants := by
    rw [List.map_map]
    refine (List.map_congr_left fun variant _ => ?_).trans (List.map_id _)
    show (variant.1, (variant.2.map (lowered slot)).map (·.1)) = variant
    rw [List.map_map]
    exact Prod.ext rfl (List.map_id _)
  rw [buildSumLayout, layoutOf, hplain]
  by_cases h : positionsAgree variants = true
  · rw [if_pos h, if_pos h, payloadSlotTypes_lowered]
    rfl
  · rw [if_neg h, if_neg h, List.mapM_map]
    have hbody : ∀ variant : String × List Ty,
        (do return (variant.1, BasicType.struct (← (variant.2.map (lowered slot)).mapM (·.2))) :
          Except Failure (String × BasicType)) =
        pure (variant.1, .struct (variant.2.map slot)) := by
      intro variant
      rw [List.mapM_map]
      have hfield : (variant.2.mapM ((·.2) ∘ lowered slot) : Except Failure (List BasicType)) =
          pure (variant.2.map slot) := List.mapM_pure
      rw [hfield]
      rfl
    have hbodies : (variants.mapM ((fun variant => do
        return (variant.1, BasicType.struct (← variant.2.mapM (·.2)))) ∘
          fun variant => (variant.1, variant.2.map (lowered slot))) :
        Except Failure (List (String × BasicType))) = pure (variantBodies slot variants) := by
      rw [variantBodies, ← List.mapM_pure]
      congr 1
      funext variant
      exact hbody variant
    rw [hbodies]
    rfl

/-- A layout depends on the representations of the payloads alone. -/
theorem layoutOf_congr {slot' : Ty → BasicType} {variants : List (String × List Ty)}
    (h : ∀ variant ∈ variants, ∀ ty ∈ variant.2, slot ty = slot' ty) :
    layoutOf layout slot variants = layoutOf layout slot' variants := by
  have hbodies : variantBodies slot variants = variantBodies slot' variants := by
    refine List.map_congr_left fun variant hvariant => ?_
    rw [List.map_congr_left (h variant hvariant)]
  have hslots : slotTypes slot variants = slotTypes slot' variants := by
    have hat : ∀ position : Nat, slotAt slot (variants.filterMap (·.2[position]?)) =
        slotAt slot' (variants.filterMap (·.2[position]?)) := by
      intro position
      rw [slotAt, slotAt]
      cases hfind : (variants.filterMap (·.2[position]?)).find? isConcrete with
      | none => rfl
      | some field =>
        obtain ⟨variant, hvariant, hfield⟩ :=
          List.mem_filterMap.mp (List.mem_of_find?_eq_some hfind)
        exact h variant hvariant field (List.mem_of_getElem? hfield)
    rw [slotTypes, slotTypes]
    simp only [hat]
  rw [layoutOf, layoutOf, hbodies, hslots]

end Layouts

/-! ### Entering the variants of one sum -/

namespace CodeGenerator

variable {generator : CodeGenerator} {typeName name : String} {variants : List (String × List Ty)}
  {first : Nat}

@[simp]
theorem registerVariants_sumLayouts :
    (generator.registerVariants typeName first variants).sumLayouts = generator.sumLayouts := by
  induction variants generalizing generator first with
  | nil => rfl
  | cons variant rest ih =>
    obtain ⟨v, fields⟩ := variant
    rw [registerVariants, ih]
    rfl

/-- The variants of other sums stay. -/
theorem registerVariants_of_notMem (generator : CodeGenerator) (typeName : String) (first : Nat)
    (h : name ∉ variants.map (·.1)) :
    (generator.registerVariants typeName first variants).sumVariants name =
        generator.sumVariants name ∧
      (generator.registerVariants typeName first variants).variantPayloads name =
        generator.variantPayloads name := by
  induction variants generalizing generator first with
  | nil => exact ⟨rfl, rfl⟩
  | cons variant rest ih =>
    obtain ⟨v, fields⟩ := variant
    simp only [List.map_cons, List.mem_cons, not_or] at h
    rw [registerVariants]
    obtain ⟨htag, hpayload⟩ :=
      ih (generator.registerVariant typeName first v fields) (first + 1) h.2
    exact ⟨htag.trans (Function.update_of_ne h.1 _ _), hpayload.trans (Function.update_of_ne h.1 _ _)⟩

/-- A variant gets its place in the declaration as its tag. -/
theorem registerVariants_of_getElem (generator : CodeGenerator) (typeName : String) (first : Nat)
    {index : Nat} {fields : List Ty}
    (hnames : (variants.map (·.1)).Nodup) (h : variants[index]? = some (name, fields)) :
    (generator.registerVariants typeName first variants).sumVariants name =
        some (UInt8.ofNat (first + index), typeName) ∧
      (generator.registerVariants typeName first variants).variantPayloads name = some fields := by
  induction variants generalizing generator first index with
  | nil => simp at h
  | cons variant rest ih =>
    obtain ⟨v, payload⟩ := variant
    simp only [List.map_cons, List.nodup_cons] at hnames
    rw [registerVariants]
    cases index with
    | zero =>
      obtain ⟨rfl, rfl⟩ : v = name ∧ payload = fields := by simpa using h
      obtain ⟨htag, hpayload⟩ := registerVariants_of_notMem
        (generator.registerVariant typeName first v payload) typeName (first + 1) hnames.1
      exact ⟨htag.trans (Function.update_self _ _ _), hpayload.trans (Function.update_self _ _ _)⟩
    | succ index =>
      have hrest := ih (generator.registerVariant typeName first v payload) (first + 1) hnames.2
        (by simpa using h)
      rw [Nat.add_right_comm first 1 index, Nat.add_assoc] at hrest
      exact hrest

theorem lowerFields_eq (layout : DataLayout) (fields : List Ty) :
    generator.lowerFields layout fields =
      fields.map fun ty => (ty, generator.valueReprType layout ty) := by
  induction fields with
  | nil => rw [lowerFields, List.map_nil]
  | cons ty rest ih =>
    rw [lowerFields, ih, List.map_cons]
    rfl

theorem lowerVariants_eq (layout : DataLayout) (variants : List (String × List Ty)) :
    generator.lowerVariants layout variants =
      variants.map fun variant => (variant.1, generator.lowerFields layout variant.2) := by
  induction variants with
  | nil => rw [lowerVariants, List.map_nil]
  | cons variant rest ih =>
    obtain ⟨v, fields⟩ := variant
    rw [lowerVariants, ih, List.map_cons]

/-- The slot of a payload in the sum `name`: a pointer where the payload is that sum. -/
def slotOf (generator : CodeGenerator) (name : String) (ty : Ty) : BasicType :=
  if ty.declaredName = some name then ptr else generator.reprOf ty

/-- Registering a sum under a name no layout has yet. -/
theorem registerSumVariants_eq (layout : DataLayout) (hfresh : generator.sumLayouts name = none)
    (hresult : (generator.sumLayouts "Result").isSome = true)
    (hfields : ∀ variant ∈ variants, ∀ ty ∈ variant.2, ty.isWritten = true) :
    ∃ later, generator.registerSumVariants layout name variants = .ok later ∧
      later.sumVariants = (generator.registerVariants name 0 variants).sumVariants ∧
      later.variantPayloads = (generator.registerVariants name 0 variants).variantPayloads ∧
      later.sumLayouts name = some (layoutOf layout (later.slotOf name) variants) ∧
      ∀ other, other ≠ name → later.sumLayouts other = generator.sumLayouts other := by
  let entered := generator.registerVariants name 0 variants
  have hlayouts : entered.sumLayouts = generator.sumLayouts := registerVariants_sumLayouts
  let later : CodeGenerator :=
    { entered with
      sumLayouts := Function.update entered.sumLayouts name
        (some (layoutOf layout entered.reprOf variants)) }
  have hother : ∀ other, other ≠ name → later.sumLayouts other = generator.sumLayouts other := by
    intro other hne
    rw [← hlayouts]
    exact Function.update_of_ne hne _ _
  have hslot : ∀ variant ∈ variants, ∀ ty ∈ variant.2,
      entered.reprOf ty = later.slotOf name ty := by
    intro variant hvariant ty hty
    rw [slotOf]
    by_cases hself : ty.declaredName = some name
    · -- the sum's own name, which has no layout yet
      rw [if_pos hself]
      have hann := hfields variant hvariant ty hty
      cases ty with
      | named other fields methods =>
        obtain ⟨rfl, rfl⟩ : fields = [] ∧ methods = [] := by simpa [Ty.isWritten] using hann
        obtain rfl : other = name := Option.some.inj hself
        rw [reprOf, hlayouts, hfresh]
        rfl
      | sum other fields =>
        have hname : Ty.sum other fields = .result := by simpa [Ty.isWritten] using hann
        cases hname
        obtain rfl : "Result" = name := Option.some.inj hself
        rw [hfresh] at hresult
        exact absurd hresult (by simp)
      | _ => exact absurd hself (by simp [Ty.declaredName])
    · rw [if_neg hself]
      refine (reprOf_congr fun other hhead => ?_).symm
      rw [hother other fun heq => hself (heq ▸ hhead), hlayouts]
  refine ⟨later, ?_, rfl, rfl, ?_, hother⟩
  · have hlowered : entered.lowerVariants layout variants =
        variants.map fun variant => (variant.1, variant.2.map (lowered entered.reprOf)) := by
      rw [lowerVariants_eq]
      refine List.map_congr_left fun variant hvariant => ?_
      rw [lowerFields_eq]
      refine Prod.ext rfl (List.map_congr_left fun ty hty => ?_)
      have hresult' : (entered.sumLayouts "Result").isSome = true := by rw [hlayouts, hresult]
      rw [lowered,
        valueReprType_eq (lowerable_of_written hresult' (hfields variant hvariant ty hty))]
    show (do
      let sumLayout ← buildSumLayout layout (entered.lowerVariants layout variants)
      return { entered with
        sumLayouts := Function.update entered.sumLayouts name (some sumLayout) }) = _
    rw [hlowered, buildSumLayout_lowered]
    rfl
  · rw [← layoutOf_congr layout hslot]
    exact Function.update_self _ _ _

end CodeGenerator

/-! ### The tables after a list of declarations -/

/-- The sums among the declarations. -/
def declaredSums : List TypeDeclaration → List (String × List (String × List Ty))
  | [] => []
  | declaration :: rest =>
    match declaration.typeDefinition with
    | .sum variants _ => (declaration.name, variants) :: declaredSums rest
    | .record _ _ => declaredSums rest

/-- What the tables hold of one declared sum. -/
structure Registered (layout : DataLayout) (checker : TypeChecker) (generator : CodeGenerator)
    (name : String) (variants : List (String × List Ty)) : Prop where
  fresh : name ≠ "Result"
  sumLayout : generator.sumLayouts name =
    some (layoutOf layout (generator.slotOf name) variants)
  tag : ∀ {index variant fields}, variants[index]? = some (variant, fields) →
    generator.sumVariants variant = some (UInt8.ofNat index, name)
  payloads : ∀ {variant fields}, (variant, fields) ∈ variants →
    generator.variantPayloads variant = some fields
  names : (variants.map (·.1)).Nodup
  arity : ∀ v ∈ variants, v.2.length ≤ 1
  written : ∀ v ∈ variants, ∀ ty ∈ v.2, ty.isWritten = true
  known : ∀ v ∈ variants, ∀ ty ∈ v.2, ∀ other, ty.declaredName = some other → other ∈ checker.scope
  recorded : ∃ seen, CodeGenerator.Snapshot generator seen ∧
    (∀ other, (seen.recordTypes other).isSome = true → other ∈ checker.scope) ∧
    checker.types.sumTypes name =
      some (.sum name (variants.map fun v => (v.1, v.2.map seen.resolveType)))

/-- How the tables of the checker and of the generator fit together. -/
structure Tables (layout : DataLayout) (checker : TypeChecker) (generator : CodeGenerator)
    (sums : List (String × List (String × List Ty))) : Prop where
  registered : ∀ name, name ∈ checker.sumNames ↔ (generator.sumLayouts name).isSome = true
  inScope : ∀ name ∈ checker.sumNames, name ∈ checker.scope
  sumTypes : ∀ name, (checker.types.sumTypes name).isSome = true → name ∈ checker.sumNames
  records : ∀ name, (checker.types.recordTypes name).isSome = true →
    name ∈ checker.scope ∧ name ∉ checker.sumNames
  result : generator.sumLayouts "Result" = some (.perPosition [ptrLenStructType])
  resultVariants : generator.sumVariants "Ok" = some (0, "Result") ∧
    generator.sumVariants "NotOk" = some (1, "Result")
  owned : ∀ variant tag owner, generator.sumVariants variant = some (tag, owner) →
    owner ∈ checker.sumNames ∧ ∃ variants,
      checker.types.sumTypes owner = some (.sum owner variants) ∧ variant ∈ variants.map (·.1)
  listed : ∀ variant tag owner, generator.sumVariants variant = some (tag, owner) →
    owner = "Result" ∧ (∃ parameter, generator.variantPayloads variant = some [.generic parameter]) ∨
      ∃ variants fields, (owner, variants) ∈ sums ∧ (variant, fields) ∈ variants
  declared : ∀ sum ∈ sums, Registered layout checker generator sum.1 sum.2

variable {layout : DataLayout} {checker : TypeChecker} {generator : CodeGenerator}
  {sums : List (String × List (String × List Ty))}

theorem tables_builtins : Tables layout TypeChecker.builtins CodeGenerator.new [] where
  registered name := by
    by_cases h : name = "Result"
    · subst h
      simp [TypeChecker.builtins, CodeGenerator.new]
    · simp [TypeChecker.builtins, CodeGenerator.new, h]
  inScope name h := by
    rw [TypeChecker.builtins] at h
    rw [TypeChecker.builtins]
    obtain rfl : name = "Result" := by simpa using h
    exact List.mem_cons_self ..
  sumTypes name h := by
    by_contra hne
    have hname : name ≠ "Result" := fun heq => hne (heq ▸ List.mem_cons_self ..)
    have hnone : TypeChecker.builtins.types.sumTypes name = none := by
      simp [TypeChecker.builtins, hname]
    rw [hnone] at h
    exact absurd h (by simp)
  records name h := by
    have hname : name = "Site" := by
      by_contra hne
      have hnone : TypeChecker.builtins.types.recordTypes name = none := by
        simp [TypeChecker.builtins, hne]
      rw [hnone] at h
      exact absurd h (by simp)
    subst hname
    exact ⟨by decide, by decide⟩
  result := by simp [CodeGenerator.new]
  resultVariants := by simp [CodeGenerator.new]
  owned variant tag owner h := by
    have howner : owner = "Result" ∧ (variant = "Ok" ∨ variant = "NotOk") := by
      rw [CodeGenerator.new] at h
      by_cases hno : variant = "NotOk"
      · subst hno
        simp at h
        exact ⟨h.2.symm, Or.inr rfl⟩
      · by_cases hok : variant = "Ok"
        · subst hok
          simp at h
          exact ⟨h.2.symm, Or.inl rfl⟩
        · simp [hno, hok] at h
    obtain ⟨rfl, hvariant⟩ := howner
    refine ⟨by decide, [("Ok", [.generic "T"]), ("NotOk", [.generic "E"])],
      by simp [TypeChecker.builtins, Ty.result], ?_⟩
    cases hvariant with
    | inl h => subst h; decide
    | inr h => subst h; decide
  listed variant tag owner h := by
    rw [CodeGenerator.new] at h
    left
    by_cases hno : variant = "NotOk"
    · subst hno
      simp at h
      exact ⟨h.2.symm, "E", by simp [CodeGenerator.new]⟩
    · by_cases hok : variant = "Ok"
      · subst hok
        simp at h
        exact ⟨h.2.symm, "T", by simp [CodeGenerator.new]⟩
      · simp [hno, hok] at h
  declared _ h := nomatch h

/-- A registered sum stays registered while other names get a layout. -/
theorem Registered.mono {later : TypeChecker} {laterGenerator : CodeGenerator} {name : String}
    {variants : List (String × List Ty)} (h : Registered layout checker generator name variants)
    (hscope : ∀ n ∈ checker.scope, n ∈ later.scope)
    (hname : name ∈ checker.scope)
    (hlayouts : ∀ n ∈ checker.scope, laterGenerator.sumLayouts n = generator.sumLayouts n)
    (hsnapshot : ∀ seen, CodeGenerator.Snapshot generator seen →
      (∀ other, (seen.recordTypes other).isSome = true → other ∈ checker.scope) →
        CodeGenerator.Snapshot laterGenerator seen)
    (htypes : later.types.sumTypes name = checker.types.sumTypes name)
    (hvariants : ∀ v ∈ variants.map (·.1),
      laterGenerator.sumVariants v = generator.sumVariants v ∧
        laterGenerator.variantPayloads v = generator.variantPayloads v) :
    Registered layout later laterGenerator name variants where
  fresh := h.fresh
  sumLayout := by
    rw [hlayouts name hname, h.sumLayout]
    refine congrArg some (layoutOf_congr layout fun variant hvariant ty hty => ?_)
    rw [CodeGenerator.slotOf, CodeGenerator.slotOf]
    by_cases hself : ty.declaredName = some name
    · rw [if_pos hself, if_pos hself]
    · rw [if_neg hself, if_neg hself]
      refine (CodeGenerator.reprOf_congr fun other hother => ?_).symm
      exact hlayouts other (h.known variant hvariant ty hty other hother)
  tag hindex := by
    rw [(hvariants _ (List.mem_map_of_mem (List.mem_of_getElem? hindex))).1]
    exact h.tag hindex
  payloads hmem := by
    rw [(hvariants _ (List.mem_map_of_mem hmem)).2]
    exact h.payloads hmem
  names := h.names
  arity := h.arity
  written := h.written
  known v hv ty hty other hother := hscope other (h.known v hv ty hty other hother)
  recorded := by
    obtain ⟨seen, hseen, hrecords, htype⟩ := h.recorded
    exact ⟨seen, hsnapshot seen hseen hrecords,
      fun other hother => hscope other (hrecords other hother), by rw [htypes, htype]⟩

/-- A snapshot stays one while names it does not have get a layout. -/
theorem CodeGenerator.Snapshot.mono {later : CodeGenerator} {seen : TypeTable} {name : String}
    (h : Snapshot generator seen) (hname : generator.sumLayouts name = none)
    (hrecord : seen.recordTypes name = none)
    (hlayouts : ∀ other, other ≠ name → later.sumLayouts other = generator.sumLayouts other) :
    Snapshot later seen where
  result := by
    have hresult := h.result
    rw [hlayouts "Result" ?_]
    · exact hresult
    · rintro rfl
      rw [hname] at hresult
      exact absurd hresult (by simp)
  sums other hother := by
    have hregistered := h.sums other hother
    rw [hlayouts other ?_]
    · exact hregistered
    · rintro rfl
      rw [hname] at hregistered
      exact absurd hregistered (by simp)
  records other hsum hother := by
    rw [hlayouts other ?_]
    · exact h.records other hsum hother
    · rintro rfl
      rw [hrecord] at hother
      exact absurd hother (by simp)

/-- A record under a new name changes nothing the generator reads. -/
theorem tables_checkRecord {later : TypeChecker} {name : String} {fields : List (String × Ty)}
    {methods : List String} (h : Tables layout checker generator sums)
    (hname : name ∉ checker.scope)
    (hok : ({ checker with scope := name :: checker.scope } : TypeChecker).checkRecord
      name fields methods = .ok later) :
    Tables layout later generator sums := by
  obtain ⟨hnames, hscope, hsums, hrecords⟩ := TypeChecker.checkRecord_ok hok
  have hgrows : ∀ n ∈ checker.scope, n ∈ later.scope := by
    intro n hn
    rw [hscope]
    exact List.mem_cons_of_mem _ hn
  exact {
    registered := fun n => by rw [hnames]; exact h.registered n
    inScope := fun n hn => hgrows n (h.inScope n (by rw [hnames] at hn; exact hn))
    sumTypes := fun n hn => by
      rw [hsums] at hn
      rw [hnames]
      exact h.sumTypes n hn
    records := fun n hn => by
      rw [hnames]
      by_cases heq : n = name
      · subst heq
        exact ⟨by rw [hscope]; exact List.mem_cons_self .., fun hmem => hname (h.inScope n hmem)⟩
      · rw [hrecords n heq] at hn
        exact ⟨hgrows n (h.records n hn).1, (h.records n hn).2⟩
    result := h.result
    resultVariants := h.resultVariants
    owned := fun variant tag owner hvariant => by
      rw [hnames, hsums]
      exact h.owned variant tag owner hvariant
    listed := h.listed
    declared := fun sum hsum => by
      have hregistered := h.declared sum hsum
      have hinScope : sum.1 ∈ checker.scope :=
        h.inScope _ ((h.registered _).mpr (by rw [hregistered.sumLayout]; rfl))
      exact hregistered.mono hgrows hinScope (fun _ _ => rfl) (fun _ hseen _ => hseen)
        (by rw [hsums]) fun _ _ => ⟨rfl, rfl⟩ }

/-- A sum under a new name is registered with the layout of its variants. -/
theorem tables_checkSum {later : TypeChecker} {name : String}
    {variants : List (String × List Ty)} {seen : TypeTable}
    (h : Tables layout checker generator sums) (hname : name ∉ checker.scope)
    (harity : ∀ v ∈ variants, v.2.length ≤ 1)
    (hann : ∀ v ∈ variants, ∀ ty ∈ v.2, ty.isWritten = true)
    (hok : TypeChecker.SumAccepted { checker with scope := name :: checker.scope } name variants
      later seen) :
    ∃ laterGenerator, generator.registerSumVariants layout name variants = .ok laterGenerator ∧
      Tables layout later laterGenerator (sums ++ [(name, variants)]) := by
  have hnotSum : name ∉ checker.sumNames := fun hmem => hname (h.inScope name hmem)
  have hfresh : generator.sumLayouts name = none := by
    by_contra hsome
    exact hnotSum ((h.registered name).mpr (Option.isSome_iff_ne_none.mpr hsome))
  have hresult : (generator.sumLayouts "Result").isSome = true := by rw [h.result]; rfl
  have hneResult : name ≠ "Result" := by
    rintro rfl
    rw [hfresh] at hresult
    exact absurd hresult (by simp)
  obtain ⟨laterGenerator, hregister, hvariants, hpayloads, hlayout, hother⟩ :=
    CodeGenerator.registerSumVariants_eq layout hfresh hresult hann
  refine ⟨laterGenerator, hregister, ?_⟩
  have hgrows : ∀ n ∈ checker.scope, n ∈ later.scope :=
    fun n hn => hok.scope n (List.mem_cons_of_mem _ hn)
  have hself : name ∈ later.scope := hok.scope name (List.mem_cons_self ..)
  have hin : ∀ n ∈ checker.scope, n ≠ name := by
    rintro n hn rfl
    exact hname hn
  -- the variants of the other sums are none of the new ones
  have hkept : ∀ v owner vs, owner ∈ checker.sumNames →
      checker.types.sumTypes owner = some (.sum owner vs) → v ∈ vs.map (·.1) →
        laterGenerator.sumVariants v = generator.sumVariants v ∧
          laterGenerator.variantPayloads v = generator.variantPayloads v := by
    intro v owner vs howner htype hv
    have hnew : v ∉ variants.map (·.1) := fun hmem =>
      hok.fresh v hmem owner howner (hin owner (h.inScope owner howner)) owner vs htype hv
    rw [hvariants, hpayloads]
    exact CodeGenerator.registerVariants_of_notMem generator name 0 hnew
  have hnewTag : ∀ {index variant fields}, variants[index]? = some (variant, fields) →
      laterGenerator.sumVariants variant = some (UInt8.ofNat index, name) ∧
        laterGenerator.variantPayloads variant = some fields := by
    intro index variant fields hindex
    have hentered := CodeGenerator.registerVariants_of_getElem generator name 0 hok.names hindex
    rw [Nat.zero_add] at hentered
    rw [hvariants, hpayloads]
    exact hentered
  have hcases : ∀ variant tag owner, laterGenerator.sumVariants variant = some (tag, owner) →
      (owner = name ∧ variant ∈ variants.map (·.1)) ∨
        (variant ∉ variants.map (·.1) ∧ generator.sumVariants variant = some (tag, owner)) := by
    intro variant tag owner hvariant
    by_cases hmem : variant ∈ variants.map (·.1)
    · obtain ⟨⟨v, fields⟩, hpair, rfl⟩ := List.mem_map.mp hmem
      obtain ⟨index, hindex⟩ := List.getElem?_of_mem hpair
      rw [(hnewTag hindex).1] at hvariant
      have howner : name = owner := congrArg Prod.snd (Option.some.inj hvariant)
      exact Or.inl ⟨howner.symm, hmem⟩
    · rw [hvariants, (CodeGenerator.registerVariants_of_notMem generator name 0 hmem).1] at hvariant
      exact Or.inr ⟨hmem, hvariant⟩
  have hseenRecords : ∀ other, (seen.recordTypes other).isSome = true → other ∈ later.scope := by
    intro other hsome
    rw [hok.seenRecords] at hsome
    by_cases heq : other = name
    · exact heq ▸ hself
    · rw [Function.update_of_ne heq] at hsome
      exact hgrows other (h.records other hsome).1
  have hseen : CodeGenerator.Snapshot laterGenerator seen :=
    { result := by rw [hother _ (Ne.symm hneResult)]; exact hresult
      sums := fun other hsome => by
        by_cases heq : other = name
        · rw [heq, hlayout]
          rfl
        · rw [hok.seenSums, Function.update_of_ne heq] at hsome
          rw [hother other heq]
          exact (h.registered other).mp (h.sumTypes other hsome)
      records := fun other hnone hsome => by
        have heq : other ≠ name := by
          rintro rfl
          rw [hok.seenSums, Function.update_self] at hnone
          exact absurd hnone (by simp)
        rw [hok.seenRecords, Function.update_of_ne heq] at hsome
        rw [hother other heq]
        by_contra hne
        exact (h.records other hsome).2
          ((h.registered other).mpr (Option.isSome_iff_ne_none.mpr hne)) }
  have hnewRegistered : Registered layout later laterGenerator name variants :=
    { fresh := hneResult
      sumLayout := hlayout
      tag := fun hindex => (hnewTag hindex).1
      payloads := fun hmem => by
        obtain ⟨index, hindex⟩ := List.getElem?_of_mem hmem
        exact (hnewTag hindex).2
      names := hok.names
      arity := harity
      written := hann
      known := fun v hv ty hty other hhead => by
        rcases TypeTable.known_of_acceptable (hann v hv ty hty) (hok.acceptable v hv ty hty) hhead
          with hsum | hrecord | heq
        · rw [hok.seenSums] at hsum
          by_cases heq : other = name
          · exact heq ▸ hself
          · rw [Function.update_of_ne heq] at hsum
            exact hgrows other (h.inScope other (h.sumTypes other hsum))
        · exact hseenRecords other hrecord
        · subst heq
          exact hgrows _ (h.inScope _ ((h.registered _).mpr hresult))
      recorded := ⟨seen, hseen, hseenRecords, by rw [hok.sumTypes]; exact Function.update_self _ _ _⟩ }
  exact {
    registered := fun n => by
      rw [hok.sumNames, List.mem_cons]
      by_cases heq : n = name
      · rw [heq, hlayout]
        simp
      · rw [hother n heq, ← h.registered n]
        simp [heq]
    inScope := fun n hn => by
      rw [hok.sumNames] at hn
      cases hn with
      | head => exact hself
      | tail _ hn => exact hgrows n (h.inScope n hn)
    sumTypes := fun n hn => by
      rw [hok.sumNames, List.mem_cons]
      by_cases heq : n = name
      · exact Or.inl heq
      · rw [hok.sumTypes, Function.update_of_ne heq] at hn
        exact Or.inr (h.sumTypes n hn)
    records := fun n hn => by
      by_cases heq : n = name
      · rw [heq, hok.recordTypes, Function.update_self] at hn
        exact absurd hn (by simp)
      · rw [hok.recordTypes, Function.update_of_ne heq] at hn
        refine ⟨hgrows n (h.records n hn).1, ?_⟩
        rw [hok.sumNames, List.mem_cons]
        exact not_or.mpr ⟨heq, (h.records n hn).2⟩
    result := by rw [hother _ (Ne.symm hneResult)]; exact h.result
    resultVariants := by
      obtain ⟨hok', hnotOk⟩ := h.resultVariants
      obtain ⟨howner, vs, htype, hv⟩ := h.owned _ _ _ hok'
      obtain ⟨howner', vs', htype', hv'⟩ := h.owned _ _ _ hnotOk
      rw [(hkept _ _ vs howner htype hv).1, (hkept _ _ vs' howner' htype' hv').1]
      exact ⟨hok', hnotOk⟩
    owned := fun variant tag owner hvariant => by
      rw [hok.sumNames, hok.sumTypes]
      rcases hcases variant tag owner hvariant with ⟨rfl, hmem⟩ | ⟨-, hold⟩
      · refine ⟨List.mem_cons_self .., _, Function.update_self _ _ _, ?_⟩
        rw [List.map_map]
        exact hmem
      · obtain ⟨howner, vs, htype, hv⟩ := h.owned variant tag owner hold
        refine ⟨List.mem_cons_of_mem _ howner, vs, ?_, hv⟩
        rw [Function.update_of_ne (hin owner (h.inScope owner howner))]
        exact htype
    listed := fun variant tag owner hvariant => by
      rcases hcases variant tag owner hvariant with ⟨rfl, hmem⟩ | ⟨-, hold⟩
      · obtain ⟨⟨v, fields⟩, hpair, rfl⟩ := List.mem_map.mp hmem
        exact Or.inr ⟨variants, fields, List.mem_append_right _ (List.mem_singleton_self _), hpair⟩
      · obtain ⟨howner, vs, htype, hv⟩ := h.owned variant tag owner hold
        rcases h.listed variant tag owner hold with ⟨heq, parameter, hparameter⟩ |
          ⟨vs, fields, hsum, hpair⟩
        · rw [(hkept variant owner vs howner htype hv).2]
          exact Or.inl ⟨heq, parameter, hparameter⟩
        · exact Or.inr ⟨vs, fields, List.mem_append_left _ hsum, hpair⟩
    declared := fun sum hsum => by
      rcases List.mem_append.mp hsum with hold | hnew
      · have hregistered := h.declared sum hold
        have hsumName : sum.1 ∈ checker.sumNames :=
          (h.registered _).mpr (by rw [hregistered.sumLayout]; rfl)
        have hinScope := h.inScope _ hsumName
        have htype : later.types.sumTypes sum.1 = checker.types.sumTypes sum.1 := by
          rw [hok.sumTypes]
          exact Function.update_of_ne (hin _ hinScope) _ _
        obtain ⟨old, -, -, holdType⟩ := hregistered.recorded
        refine hregistered.mono hgrows hinScope (fun n hn => hother n (hin n hn)) ?_ htype
          fun v hv => hkept v sum.1 _ hsumName holdType (by rw [List.map_map]; exact hv)
        intro seen' hseen' hrecords'
        refine hseen'.mono hfresh ?_ hother
        by_contra hne
        exact hname (hrecords' name (Option.isSome_iff_ne_none.mpr hne))
      · obtain rfl : sum = (name, variants) := List.mem_singleton.mp hnew
        exact hnewRegistered }

/-- Every accepted list of declarations is registered without an error. -/
theorem tables_checkTypeDeclarations {declarations : List TypeDeclaration} {later : TypeChecker}
    (h : Tables layout checker generator sums)
    (hparsed : ∀ declaration ∈ declarations, declaration.parsed = true)
    (hok : checker.checkTypeDeclarations declarations = .ok later) :
    ∃ laterGenerator,
      generator.registerTypeDeclarations layout declarations = .ok laterGenerator ∧
        Tables layout later laterGenerator (sums ++ declaredSums declarations) := by
  induction declarations generalizing checker generator sums with
  | nil =>
    obtain rfl : checker = later := Except.ok.inj hok
    refine ⟨generator, rfl, ?_⟩
    rw [declaredSums, List.append_nil]
    exact h
  | cons declaration rest ih =>
    have hrest : ∀ declaration ∈ rest, declaration.parsed = true :=
      fun d hd => hparsed d (List.mem_cons_of_mem _ hd)
    have hfirst := hparsed declaration (List.mem_cons_self ..)
    rw [TypeChecker.checkTypeDeclarations] at hok
    cases hchecked : checker.checkTypeDeclaration declaration with
    | error error => rw [hchecked] at hok; exact absurd hok (by simp)
    | ok next =>
      rw [hchecked] at hok
      simp only at hok
      rw [TypeChecker.checkTypeDeclaration] at hchecked
      split at hchecked
      · exact absurd hchecked (by simp)
      · next hreserved =>
        cases hdefine : checker.define declaration.name with
        | error error => rw [hdefine] at hchecked; exact absurd hchecked (by simp)
        | ok defined =>
          rw [hdefine] at hchecked
          simp only at hchecked
          obtain ⟨-, hname, rfl⟩ := TypeChecker.define_ok hdefine
          rw [CodeGenerator.registerTypeDeclarations, declaredSums]
          cases hdefinition : declaration.typeDefinition with
          | record fields methods =>
            simp only [hdefinition] at hchecked ⊢
            exact ih (tables_checkRecord h hname hchecked) hrest hok
          | sum variants methods =>
            simp only [hdefinition] at hchecked ⊢
            rw [TypeDeclaration.parsed, hdefinition] at hfirst
            have hvariants : ∀ v ∈ variants, v.2.length ≤ 1 ∧ ∀ ty ∈ v.2, ty.isWritten = true := by
              intro v hv
              have := List.all_eq_true.mp hfirst v hv
              simpa using this
            obtain ⟨seen, haccepted⟩ :=
              TypeChecker.checkSum_ok (fun v hv => (hvariants v hv).1) hchecked
            obtain ⟨nextGenerator, hregister, htables⟩ := tables_checkSum h hname
              (fun v hv => (hvariants v hv).1) (fun v hv => (hvariants v hv).2) haccepted
            obtain ⟨laterGenerator, hregisters, hlater⟩ := ih htables hrest hok
            refine ⟨laterGenerator, ?_, ?_⟩
            · rw [hregister]
              exact hregisters
            · rw [List.append_assoc] at hlater
              exact hlater

/-- The tables of an accepted program. -/
theorem registered_declarations (layout : DataLayout) {declarations : List TypeDeclaration} {checker : TypeChecker}
    (hparsed : ∀ declaration ∈ declarations, declaration.parsed = true)
    (hok : TypeChecker.builtins.checkTypeDeclarations declarations = .ok checker) :
    ∃ generator, CodeGenerator.new.registerTypeDeclarations layout declarations = .ok generator ∧
      Tables layout checker generator (declaredSums declarations) :=
  tables_checkTypeDeclarations tables_builtins hparsed hok

end Quilon.Sums
