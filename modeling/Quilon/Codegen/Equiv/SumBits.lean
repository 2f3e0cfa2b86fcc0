import Quilon.Codegen.Equiv.ResultPayloads

/-!
# The bits the values of a type use

`ValueOf` are the values a program can have of a type, `Carries` the bits that are defined in some of
them (`valueOf_carries`, `exists_valueOf`).  A bit no value carries may be lost in a layout without
anybody noticing.
-/

namespace Quilon.Sums

open Llvm

variable {layout : DataLayout}

/-! ### The values of a type -/

/-- Whether the type is a registered sum. -/
def CodeGenerator.isSum (generator : CodeGenerator) (ty : Ty) : Bool :=
  match ty.declaredName with
  | some name => (generator.sumLayouts name).isSome
  | none => false

/-- Every bit of the value is defined. -/
def Defined (value : Llvm.Value layout) : Prop :=
  ∀ position, layout.holds value.type position = true → value.bits position ≠ .undefined

/-- The values a type has in some state of the heap: any bits of its representation, the one value of
`$`, and of a sum what its constructors give. -/
inductive ValueOf (generator : CodeGenerator) : Heap → Ty → Llvm.Value layout → Prop
  | unit {heap : Heap} : ValueOf generator heap .unit unitValue
  | basic {heap : Heap} {ty : Ty} {value : Llvm.Value layout} :
      ty.isWritten = true → generator.isSum ty = false → ty ≠ .unit →
      value.type = generator.reprOf ty → Defined value → ValueOf generator heap ty value
  | sum {heap before after : Heap} {name variant : String} {tag : UInt8} {fields : List Ty}
      {arguments : List (Llvm.Value layout)} {value : Llvm.Value layout} :
      generator.sumVariants variant = some (tag, name) →
      generator.variantPayloads variant = some fields →
      arguments.length = fields.length →
      (∀ (index : Nat) ty argument, fields[index]? = some ty → arguments[index]? = some argument →
        ValueOf generator before ty argument) →
      generator.generateSumConstructor before tag name variant arguments = .ok (value, after) →
      after <+: heap → ValueOf generator heap (.named name [] []) value
  | result {heap before after : Heap} {variant : String} {tag : UInt8} {ty : Ty}
      {payload value : Llvm.Value layout} :
      generator.sumVariants variant = some (tag, "Result") → ValueOf generator before ty payload →
      generator.generateSumConstructor before tag "Result" variant [payload] = .ok (value, after) →
      after <+: heap → ValueOf generator heap .result value

/-- The bits the values of a type use. -/
inductive Carries (layout : DataLayout) (generator : CodeGenerator) : Ty → Nat → Prop
  | basic {ty : Ty} {position : Nat} : ty.isWritten = true → generator.isSum ty = false →
      layout.holds (generator.reprOf ty) position = true → Carries layout generator ty position
  | nullary {name variant : String} {tag : UInt8} {position : Nat} :
      generator.sumVariants variant = some (tag, name) →
      generator.variantPayloads variant = some [] → position < 8 →
      Carries layout generator (.named name [] []) position
  | tag {name variant : String} {tag : UInt8} {ty : Ty} {position : Nat} :
      generator.sumVariants variant = some (tag, name) →
      generator.variantPayloads variant = some [ty] → Carries layout generator ty 0 → position < 8 →
      Carries layout generator (.named name [] []) position
  /-- a payload at its own representation -/
  | payload {name variant : String} {tag : UInt8} {ty : Ty} {sumLayout : SumLayout}
      {slot : BasicType} {position : Nat} :
      generator.sumVariants variant = some (tag, name) →
      generator.variantPayloads variant = some [ty] →
      generator.sumLayouts name = some sumLayout → sumLayout.payloadSlot variant = some slot →
      slot = generator.reprOf ty → Carries layout generator ty position →
      sumLayout.keeps layout position = true →
      Carries layout generator (.named name [] []) (sumLayout.payloadStart layout + position)
  /-- a pointer to a box, or the zero that stands for `$` -/
  | standIn {name variant : String} {tag : UInt8} {ty : Ty} {sumLayout : SumLayout}
      {slot : BasicType} {position : Nat} :
      generator.sumVariants variant = some (tag, name) →
      generator.variantPayloads variant = some [ty] →
      generator.sumLayouts name = some sumLayout → sumLayout.payloadSlot variant = some slot →
      slot ≠ generator.reprOf ty → Carries layout generator ty 0 →
      layout.holds slot position = true → sumLayout.keeps layout position = true →
      Carries layout generator (.named name [] []) (sumLayout.payloadStart layout + position)
  | result {position : Nat} : layout.holds (generator.sumStructType "Result") position = true →
      Carries layout generator .result position

/-- The bits the payloads of type `ty` use in a slot. -/
def CarriesIn (layout : DataLayout) (generator : CodeGenerator) (slot : BasicType) (ty : Ty)
    (position : Nat) : Prop :=
  slot = generator.reprOf ty ∧ Carries layout generator ty position ∨
    slot ≠ generator.reprOf ty ∧ Carries layout generator ty 0 ∧ layout.holds slot position = true

section

variable {checker : TypeChecker} {generator : CodeGenerator} {heap later : Heap} {ty : Ty}
  {value argument payload : Llvm.Value layout} {slot : BasicType} {position : Nat}
  {name variant : String} {tag : UInt8}

/-- A value stays one while more is allocated. -/
theorem ValueOf.mono (h : ValueOf generator heap ty value) (hheap : heap <+: later) :
    ValueOf generator later ty value := by
  cases h with
  | unit => exact .unit
  | basic hty hsum hunit htype hdefined => exact .basic hty hsum hunit htype hdefined
  | sum hvariant hfields hlength harguments hbuilt hafter =>
    exact .sum hvariant hfields hlength harguments hbuilt (hafter.trans hheap)
  | result hvariant hpayload hbuilt hafter => exact .result hvariant hpayload hbuilt (hafter.trans hheap)

/-- Only types as they are written have values. -/
theorem ValueOf.isWritten (h : ValueOf generator heap ty value) : ty.isWritten = true := by
  cases h with
  | unit => rfl
  | basic hty _ _ _ _ => exact hty
  | sum _ _ _ _ _ _ => rfl
  | result _ _ _ _ => exact decide_eq_true rfl

theorem Carries.isWritten (h : Carries layout generator ty position) : ty.isWritten = true := by
  cases h with
  | basic hty _ _ => exact hty
  | nullary _ _ _ => rfl
  | tag _ _ _ _ => rfl
  | payload _ _ _ _ _ _ _ => rfl
  | standIn _ _ _ _ _ _ _ _ => rfl
  | result _ => exact decide_eq_true rfl

theorem holds_first {fields : List BasicType} {field : BasicType}
    (h : layout.holds field position = true) : layout.holds (.struct (field :: fields)) position = true := by
  have hfield := layout.holdsInFields_of_field 0 (show (field :: fields)[0]? = some field from rfl) h
  rw [DataLayout.fieldOffset_zero, Nat.mul_zero, Nat.zero_add] at hfield
  exact hfield

/-- The struct of a sum begins with its tag. -/
theorem sumStructType_eq_cons (generator : CodeGenerator) (name : String) :
    ∃ fields, generator.sumStructType name = .struct (i8 :: fields) := by
  rw [CodeGenerator.sumStructType]
  split
  · exact ⟨_, rfl⟩
  · exact ⟨_, rfl⟩
  · exact ⟨_, rfl⟩

theorem sumStructType_eq {sumLayout : SumLayout} (h : generator.sumLayouts name = some sumLayout) :
    generator.sumStructType name = .struct (i8 :: sumLayout.body) := by
  rw [CodeGenerator.sumStructType, h]
  cases sumLayout with
  | perPosition slots => rfl
  | union variantBodies widest => rfl

/-- Every representation has a first bit. -/
theorem holds_reprOf_zero (generator : CodeGenerator) (ty : Ty) :
    layout.holds (generator.reprOf ty) 0 = true := by
  have hptr : layout.holds ptr 0 = true := decide_eq_true layout.pointerBits_pos
  have hsum : ∀ name, layout.holds (generator.sumStructType name) 0 = true := by
    intro name
    obtain ⟨fields, hfields⟩ := sumStructType_eq_cons generator name
    rw [hfields]
    exact holds_first (holds_i8.mpr (by decide))
  cases ty with
  | num | bool | unit | generic _ => rfl
  | text | array _ => exact holds_first hptr
  | map _ _ | set _ | record _ => exact hptr
  | function _ _ => exact holds_first hptr
  | sum name variants => exact hsum name
  | named name fields methods =>
    cases fields with
    | nil =>
      rw [CodeGenerator.reprOf]
      split
      · exact hsum name
      · exact hptr
    | cons field fields => exact hptr

/-- A defined bit is one the type holds. -/
theorem holds_of_defined (h : value.bits position ≠ .undefined) :
    layout.holds value.type position = true := by
  by_contra hnot
  exact h (value.blank position (by simpa using hnot))

theorem zero_defined {type : BasicType} (h : layout.holds type position = true) :
    (Llvm.Value.zero type : Llvm.Value layout).bits position ≠ .undefined := by
  rw [Llvm.Value.zero, Llvm.Value.load_bits, if_pos h]
  simp

theorem pointer_defined {address : Nat} (h : layout.holds ptr position = true) :
    (Llvm.Value.pointer address : Llvm.Value layout).bits position ≠ .undefined := by
  have hheld : layout.holds (.scalar .ptr) position = true := h
  rw [Llvm.Value.pointer, Llvm.Value.load_bits, if_pos hheld]
  simp

/-- A statement about one payload and its type, for lists of one. -/
theorem forall_singleton {P : Ty → Llvm.Value layout → Prop} (h : P ty argument) :
    ∀ (index : Nat) field value, [ty][index]? = some field → [argument][index]? = some value →
      P field value := by
  intro index field value hfield hvalue
  cases index with
  | zero =>
    obtain rfl : ty = field := by simpa using hfield
    obtain rfl : argument = value := by simpa using hvalue
    exact h
  | succ index => exact absurd hfield (by simp)

/-- What stands in a slot has the bits the payload has, or all of the slot's when something else stands
in for it. -/
theorem Coerced.defined (h : Coerced heap ty argument slot payload later)
    (hfits : generator.Fits ty argument)
    (hsame : slot = generator.reprOf ty → argument.bits position ≠ .undefined)
    (hother : slot ≠ generator.reprOf ty → layout.holds slot position = true) :
    payload.bits position ≠ .undefined := by
  cases h with
  | same => exact hsame hfits.1
  | boxed hstruct =>
    refine pointer_defined (hother fun heq => ?_)
    rw [← hfits.1] at heq
    rw [← heq] at hstruct
    exact absurd hstruct (by decide)
  | zeroed _ hunit hne =>
    subst hunit
    exact zero_defined (hother hne)

/-- What stands in a slot uses the bits the payload's type carries there. -/
theorem Coerced.carriesIn (h : Coerced heap ty argument slot payload later)
    (hfits : generator.Fits ty argument)
    (hcarries : ∀ position, argument.bits position ≠ .undefined → Carries layout generator ty position)
    (hzero : argument.bits 0 ≠ .undefined) (hdefined : payload.bits position ≠ .undefined) :
    CarriesIn layout generator slot ty position := by
  have hheld := holds_of_defined hdefined
  rw [h.type_eq] at hheld
  by_cases hsame : slot = generator.reprOf ty
  · refine Or.inl ⟨hsame, hcarries position ?_⟩
    cases h with
    | same => exact hdefined
    | boxed hstruct =>
      rw [hfits.1, ← hsame] at hstruct
      exact absurd hstruct (by decide)
    | zeroed _ hunit hne =>
      subst hunit
      exact absurd hsame hne
  · exact Or.inr ⟨hsame, hcarries 0 hzero, hheld⟩

end

/-! ### The values of the declared sums -/

section Tables

variable {checker : TypeChecker} {generator : CodeGenerator}
  {sums : List (String × List (String × List Ty))} {heap later : Heap} {ty : Ty}
  {value argument payload : Llvm.Value layout} {slot : BasicType} {position : Nat}
  {name variant : String} {tag : UInt8} {fields : List Ty}

variable (htables : Tables layout checker generator sums)
include htables

/-- Where a variant comes from. -/
theorem Tables.variant_cases (hvariant : generator.sumVariants variant = some (tag, name))
    (hfields : generator.variantPayloads variant = some fields) :
    name = "Result" ∧ (∃ parameter, fields = [.generic parameter]) ∨
      ∃ variants, (name, variants) ∈ sums ∧ (variant, fields) ∈ variants := by
  rcases htables.listed variant tag name hvariant with
    ⟨hresult, parameter, hparameter⟩ | ⟨variants, declared, hsum, hmem⟩
  · rw [hfields] at hparameter
    exact Or.inl ⟨hresult, parameter, Option.some.inj hparameter⟩
  · have hdeclared := (htables.declared _ hsum).payloads hmem
    rw [hfields] at hdeclared
    obtain rfl := Option.some.inj hdeclared
    exact Or.inr ⟨variants, hsum, hmem⟩

/-- A constructor that was given values is one of a declared sum. -/
theorem Tables.declared_of_values {arguments : List (Llvm.Value layout)}
    (hvariant : generator.sumVariants variant = some (tag, name))
    (hfields : generator.variantPayloads variant = some fields)
    (hlength : arguments.length = fields.length)
    (hvalues : ∀ (index : Nat) ty argument, fields[index]? = some ty →
      arguments[index]? = some argument → ValueOf generator heap ty argument) :
    ∃ variants, (name, variants) ∈ sums ∧ (variant, fields) ∈ variants := by
  rcases htables.variant_cases hvariant hfields with ⟨-, parameter, rfl⟩ | hdeclared
  · -- no value has a type variable for its type
    obtain ⟨argument, rfl⟩ := List.length_eq_one_iff.mp hlength
    have hnone := (hvalues 0 _ argument rfl rfl).isWritten
    exact absurd hnone (by simp [Ty.isWritten])
  · exact hdeclared

/-- What a constructor of a declared sum was given, and what it did with it. -/
theorem Tables.constructed {variants : List (String × List Ty)} {arguments : List (Llvm.Value layout)}
    (hsum : (name, variants) ∈ sums) (hmem : (variant, fields) ∈ variants)
    (hlength : arguments.length = fields.length)
    (hfits : ∀ (index : Nat) ty argument, fields[index]? = some ty →
      arguments[index]? = some argument → generator.Fits ty argument)
    (hbuilt : generator.generateSumConstructor heap tag name variant arguments = .ok (value, later)) :
    fields = [] ∧ arguments = [] ∧ later = heap ∧ BuiltNullary heap generator
        (layoutOf layout (generator.slotOf name) variants) name variant tag value ∨
      ∃ ty argument slot payload raw, fields = [ty] ∧ arguments = [argument] ∧
        Built heap generator (layoutOf layout (generator.slotOf name) variants) name variant tag ty
          argument slot payload value raw later ∧
        (slot = generator.slotOf name ty ∨ positionsAgree variants = true ∧ ty = .unit) := by
  have hregistered := htables.declared _ hsum
  have harity := hregistered.arity _ hmem
  match fields, arguments with
  | [], [] =>
    obtain ⟨built, hnullary⟩ := hregistered.construct_nullary heap tag hmem
    have heq := hbuilt.symm.trans hnullary.built
    simp only [Except.ok.injEq, Prod.mk.injEq] at heq
    obtain ⟨rfl, rfl⟩ := heq
    exact Or.inl ⟨rfl, rfl, rfl, hnullary⟩
  | [ty], [argument] =>
    obtain ⟨slot, payload, built, raw, after, hpayload, hslot⟩ :=
      hregistered.construct_payload heap tag hmem (hfits 0 ty argument rfl rfl)
    have heq := hbuilt.symm.trans hpayload.built
    simp only [Except.ok.injEq, Prod.mk.injEq] at heq
    obtain ⟨rfl, rfl⟩ := heq
    exact Or.inr ⟨ty, argument, slot, payload, raw, rfl, rfl, hpayload, hslot⟩
  | [], _ :: _ => simp at hlength
  | [_], [] => simp at hlength
  | [_], _ :: _ :: _ => simp at hlength
  | _ :: _ :: _, _ => simp at harity

/-- The representation of a declared sum. -/
theorem Tables.reprOf_named {variants : List (String × List Ty)} (hsum : (name, variants) ∈ sums) :
    generator.reprOf (.named name [] []) =
      .struct (i8 :: (layoutOf layout (generator.slotOf name) variants).body) := by
  have hlayout := (htables.declared _ hsum).sumLayout
  rw [CodeGenerator.reprOf, if_pos (by rw [hlayout]; rfl)]
  exact sumStructType_eq hlayout

/-- A value has the representation of its type. -/
theorem Tables.fits (h : ValueOf generator heap ty value) : generator.Fits ty value := by
  induction h with
  | unit => exact ⟨rfl, fun _ => rfl⟩
  | basic _ _ hunit htype _ => exact ⟨htype, fun heq => absurd heq hunit⟩
  | sum hvariant hfields hlength harguments hbuilt _ ih =>
    obtain ⟨variants, hsum, hmem⟩ :=
      htables.declared_of_values hvariant hfields hlength harguments
    refine ⟨?_, fun heq => absurd heq (by simp)⟩
    rw [htables.reprOf_named hsum]
    rcases htables.constructed hsum hmem hlength ih hbuilt with
      ⟨-, -, -, hnullary⟩ | ⟨ty, argument, slot, payload, raw, -, -, hpayload, -⟩
    · obtain ⟨stored, htagged⟩ := hnullary.tagged
      exact htagged.type
    · obtain ⟨stored, htagged, -⟩ := hpayload.tagged
      exact htagged.type
  | result hvariant _ hbuilt _ ih =>
    obtain ⟨slot, built, later, -, hconstructed, htagged⟩ := construct_result _ _ _ htables.result ih
    have heq := hbuilt.symm.trans hconstructed
    simp only [Except.ok.injEq, Prod.mk.injEq] at heq
    obtain ⟨rfl, -⟩ := heq
    refine ⟨?_, fun heq => absurd heq (by simp [Ty.result])⟩
    rw [htagged.type]
    exact (sumStructType_eq htables.result).symm

/-- The first bit of a value is defined. -/
theorem Tables.defined_zero (h : ValueOf generator heap ty value) : value.bits 0 ≠ .undefined := by
  cases h with
  | unit => exact zero_defined (holds_i8.mpr (by decide))
  | basic _ _ _ htype hdefined =>
    refine hdefined 0 ?_
    rw [htype]
    exact holds_reprOf_zero generator ty
  | sum hvariant hfields hlength harguments hbuilt _ =>
    obtain ⟨variants, hsum, hmem⟩ :=
      htables.declared_of_values hvariant hfields hlength harguments
    have hfits := fun index ty argument hty hargument =>
      htables.fits (harguments index ty argument hty hargument)
    rcases htables.constructed hsum hmem hlength hfits hbuilt with
      ⟨-, -, -, hnullary⟩ | ⟨ty, argument, slot, payload, raw, -, -, hpayload, -⟩
    · exact (hnullary.bits 0).mpr (by decide)
    · exact (hpayload.bits 0).mpr (Or.inl (by decide))
  | result hvariant hpayload hbuilt _ =>
    obtain ⟨slot, built, later, -, hconstructed, htagged⟩ :=
      construct_result _ _ _ htables.result (htables.fits hpayload)
    have heq := hbuilt.symm.trans hconstructed
    simp only [Except.ok.injEq, Prod.mk.injEq] at heq
    obtain ⟨rfl, -⟩ := heq
    exact (htagged.bits 0).mpr (Or.inl (by decide))

/-- The defined bits of a value are bits its type carries. -/
theorem Tables.carries (h : ValueOf generator heap ty value) :
    ∀ position, value.bits position ≠ .undefined → Carries layout generator ty position := by
  induction h with
  | unit => exact fun position hdefined => .basic rfl rfl (holds_of_defined hdefined)
  | basic hty hsum _ htype _ =>
    intro position hdefined
    have hheld := holds_of_defined hdefined
    rw [htype] at hheld
    exact .basic hty hsum hheld
  | sum hvariant hfields hlength harguments hbuilt _ ih =>
    intro position hdefined
    obtain ⟨variants, hsum, hmem⟩ :=
      htables.declared_of_values hvariant hfields hlength harguments
    have hfits := fun index ty argument hty hargument =>
      htables.fits (harguments index ty argument hty hargument)
    rcases htables.constructed hsum hmem hlength hfits hbuilt with
      ⟨rfl, -, -, hnullary⟩ | ⟨ty, argument, slot, payload, raw, rfl, rfl, hpayload, -⟩
    · exact .nullary hvariant hfields ((hnullary.bits position).mp hdefined)
    · have hargument := harguments 0 ty argument rfl rfl
      have hcarries := ih 0 ty argument rfl rfl
      have hzero := htables.defined_zero hargument
      rcases (hpayload.bits position).mp hdefined with hlt | ⟨inner, rfl, hkeeps, hinner⟩
      · exact .tag hvariant hfields (hcarries 0 hzero) hlt
      · have hlayout := (htables.declared _ hsum).sumLayout
        rcases hpayload.coerced.carriesIn (hfits 0 ty argument rfl rfl) hcarries hzero hinner with ⟨hsame, hcarried⟩ | ⟨hother, hinhabited, hheld⟩
        · exact .payload hvariant hfields hlayout hpayload.slotEq hsame hcarried hkeeps
        · exact .standIn hvariant hfields hlayout hpayload.slotEq hother hinhabited hheld hkeeps
  | result hvariant hpayload hbuilt _ _ =>
    intro position hdefined
    have hheld := holds_of_defined hdefined
    rw [(htables.fits (.result hvariant hpayload hbuilt List.prefix_rfl)).1] at hheld
    exact .result hheld

/-- A payload makes a value of its sum. -/
theorem Tables.exists_built (hvariant : generator.sumVariants variant = some (tag, name))
    (hfields : generator.variantPayloads variant = some [ty])
    (hargument : ValueOf generator heap ty argument) :
    ∃ sumLayout slot payload value raw later, generator.sumLayouts name = some sumLayout ∧
      Built heap generator sumLayout name variant tag ty argument slot payload value raw later ∧
      ValueOf generator later (.named name [] []) value := by
  have harguments := forall_singleton (P := ValueOf generator heap) hargument
  obtain ⟨variants, hsum, hmem⟩ := htables.declared_of_values hvariant hfields rfl harguments
  have hregistered := htables.declared _ hsum
  obtain ⟨slot, payload, value, raw, later, hbuilt, -⟩ :=
    hregistered.construct_payload heap tag hmem (htables.fits hargument)
  exact ⟨_, slot, payload, value, raw, later, hregistered.sumLayout, hbuilt,
    .sum hvariant hfields rfl harguments hbuilt.built List.prefix_rfl⟩

/-- A bit a type carries is defined in one of its values. -/
theorem Tables.exists_valueOf (h : Carries layout generator ty position) :
    ∃ (heap : Heap) (value : Llvm.Value layout), ValueOf generator heap ty value ∧
      value.bits position ≠ .undefined := by
  induction h with
  | @basic ty position hty hsum hheld =>
    by_cases hunit : ty = .unit
    · subst hunit
      exact ⟨[], unitValue, .unit, zero_defined hheld⟩
    · exact ⟨[], Llvm.Value.zero (generator.reprOf ty),
        .basic hty hsum hunit rfl (fun _ => zero_defined), zero_defined hheld⟩
  | @nullary name variant tag position hvariant hfields hlt =>
    rcases htables.variant_cases hvariant hfields with ⟨-, parameter, hnone⟩ | ⟨variants, hsum, hmem⟩
    · exact absurd hnone (by simp)
    · obtain ⟨value, hbuilt⟩ :=
        (htables.declared _ hsum).construct_nullary [] tag hmem
      exact ⟨[], value, .sum hvariant hfields rfl (fun _ _ _ hnone => absurd hnone (by simp))
        hbuilt.built List.prefix_rfl, (hbuilt.bits position).mpr hlt⟩
  | tag hvariant hfields _ hlt ih =>
    obtain ⟨heap, argument, hargument, -⟩ := ih
    obtain ⟨sumLayout, slot, payload, value, raw, later, -, hbuilt, hvalue⟩ :=
      htables.exists_built hvariant hfields hargument
    exact ⟨later, value, hvalue, (hbuilt.bits _).mpr (Or.inl hlt)⟩
  | payload hvariant hfields hlayout hslot hsame _ hkeeps ih =>
    obtain ⟨heap, argument, hargument, hdefined⟩ := ih
    obtain ⟨sumLayout, slot, payload, value, raw, later, hlayout', hbuilt, hvalue⟩ :=
      htables.exists_built hvariant hfields hargument
    obtain rfl := Option.some.inj (hlayout.symm.trans hlayout')
    obtain rfl := Option.some.inj (hslot.symm.trans hbuilt.slotEq)
    have hpayload := hbuilt.coerced.defined (htables.fits hargument) (fun _ => hdefined)
      fun hother => absurd hsame hother
    exact ⟨later, value, hvalue, (hbuilt.bits _).mpr (Or.inr ⟨_, rfl, hkeeps, hpayload⟩)⟩
  | standIn hvariant hfields hlayout hslot hother _ hheld hkeeps ih =>
    obtain ⟨heap, argument, hargument, -⟩ := ih
    obtain ⟨sumLayout, slot, payload, value, raw, later, hlayout', hbuilt, hvalue⟩ :=
      htables.exists_built hvariant hfields hargument
    obtain rfl := Option.some.inj (hlayout.symm.trans hlayout')
    obtain rfl := Option.some.inj (hslot.symm.trans hbuilt.slotEq)
    have hpayload := hbuilt.coerced.defined (htables.fits hargument)
      (fun hsame => absurd hsame hother) fun _ => hheld
    exact ⟨later, value, hvalue, (hbuilt.bits _).mpr (Or.inr ⟨_, rfl, hkeeps, hpayload⟩)⟩
  | @result position hheld =>
    -- `Ok("")` defines every bit of a Result
    have hpayload : ValueOf generator [] .text (Llvm.Value.zero ptrLenStructType : Llvm.Value layout) :=
      .basic rfl rfl (by simp) rfl fun _ => zero_defined
    obtain ⟨slot, value, later, hpack, hbuilt, htagged⟩ :=
      construct_result [] "Ok" 0 htables.result (htables.fits hpayload)
    obtain rfl : Llvm.Value.zero ptrLenStructType = slot := by
      have heq : (.ok (Llvm.Value.zero ptrLenStructType, []) : Except Failure (Llvm.Value layout × Heap)) =
        .ok (slot, later) := hpack
      simp only [Except.ok.injEq, Prod.mk.injEq] at heq
      exact heq.1
    refine ⟨later, value, .result htables.resultVariants.1 hpayload hbuilt List.prefix_rfl,
      (htagged.bits position).mpr ?_⟩
    rw [sumStructType_eq htables.result] at hheld
    obtain ⟨index, field, inner, hfield, hinner, hposition⟩ :=
      layout.exists_field_of_holdsInFields hheld
    match index with
    | 0 =>
      obtain rfl : i8 = field := by simpa using hfield
      rw [DataLayout.fieldOffset_zero, Nat.mul_zero, Nat.zero_add] at hposition
      exact Or.inl (hposition ▸ holds_i8.mp hinner)
    | 1 =>
      obtain rfl : ptrLenStructType = field := by simpa [SumLayout.body] using hfield
      exact Or.inr ⟨_, inner, rfl, hposition, zero_defined hinner⟩
    | index + 2 => exact absurd hfield (by simp [SumLayout.body])

end Tables

end Quilon.Sums
