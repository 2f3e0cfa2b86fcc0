import Quilon.Codegen.Equiv.SumValues

/-!
# Packing the payload of a Result

`unpack_result_payload` undoes `pack_result_payload` at every type a value can have
(`unpack_pack_result`), and what `Ok` and `NotOk` build out of a packed payload (`construct_result`).
-/

namespace Quilon.Sums

open Llvm

variable {layout : DataLayout} {generator : CodeGenerator} {heap now : Heap} {ty target : Ty}
  {payload ptrField intField : Llvm.Value layout}

theorem isStruct_sumStructType (generator : CodeGenerator) (name : String) : (generator.sumStructType name).isStruct = true := by
  rw [CodeGenerator.sumStructType]
  split
  · rfl
  · rfl
  · rfl

/-- Integers represent Bools and `$`. -/
theorem width_of_reprOf {width : Nat} (h : generator.reprOf ty = .scalar (.int width)) :
    width = 1 ∨ width = 8 ∧ ty = .unit := by
  have hsum : ∀ name, generator.sumStructType name ≠ .scalar (.int width) := by
    intro name heq
    have hstruct := isStruct_sumStructType generator name
    rw [heq] at hstruct
    exact absurd hstruct (by simp [BasicType.isStruct])
  cases ty with
  | bool => exact Or.inl (by simpa [CodeGenerator.reprOf, i1] using h.symm)
  | unit => exact Or.inr ⟨by simpa [CodeGenerator.reprOf, i8] using h.symm, rfl⟩
  | sum name variants => exact absurd h (hsum name)
  | named name fields methods =>
    cases fields with
    | nil =>
      rw [CodeGenerator.reprOf] at h
      split at h
      · exact absurd h (hsum name)
      · exact absurd h (by simp [ptr])
    | cons field fields => exact absurd h (by simp [CodeGenerator.reprOf, ptr])
  | num | generic _ => exact absurd h (by simp [CodeGenerator.reprOf, double])
  | text | array _ => exact absurd h (by simp [CodeGenerator.reprOf, ptrLenStructType])
  | map _ _ | set _ | record _ => exact absurd h (by simp [CodeGenerator.reprOf, ptr])
  | function _ _ => exact absurd h (by simp [CodeGenerator.reprOf, closureStructType])

/-- Only `$` is an `i8`. -/
theorem eq_unit_of_reprOf (h : generator.reprOf ty = i8) : ty = .unit := by
  rcases width_of_reprOf h with hone | ⟨-, hunit⟩
  · exact absurd hone (by decide)
  · exact hunit

/-- A slot with its two fields set. -/
theorem resultSlot_ok (ptrField intField : Llvm.Value layout) (hptr : ptrField.type = ptr)
    (hint : intField.type = i64) :
    ∃ slot : Llvm.Value layout, resultSlot ptrField intField = .ok slot ∧ slot.type = ptrLenStructType ∧
      extractValue slot 0 = .ok ptrField ∧ extractValue slot 1 = .ok intField := by
  have hundef : (Llvm.Value.undef ptrLenStructType : Llvm.Value layout).type = .struct [ptr, i64] := rfl
  have hfirst : [ptr, i64][0]? = some ptrField.type := by rw [hptr]; rfl
  have hsecond : [ptr, i64][1]? = some intField.type := by rw [hint]; rfl
  obtain ⟨half, hhalf, hhalfType⟩ :=
    Llvm.Value.insert_eq_some (i := 0) ptrField hundef (Nat.succ_pos _)
  obtain ⟨slot, hslot, hslotType⟩ :=
    Llvm.Value.insert_eq_some (i := 1) intField hhalfType (Nat.lt_succ_self _)
  refine ⟨slot, ?_, hslotType, ?_, ?_⟩
  · show (do
      let half ← insertValue (Llvm.Value.undef ptrLenStructType) ptrField 0
      insertValue half intField 1) = _
    rw [insertValue, hhalf]
    show insertValue half intField 1 = _
    rw [insertValue, hslot]
  · have hextract : slot.extract 0 = some ptrField := by
      rw [Llvm.Value.extract_insert_of_ne hhalfType hsecond hslot (by decide)]
      exact Llvm.Value.extract_insert_self hundef hfirst hhalf
    rw [extractValue, hextract]
  · rw [extractValue, Llvm.Value.extract_insert_self hhalfType hsecond hslot]

/-- A double's bits are those of the integer of its width. -/
theorem load_double_i64 (h : payload.type = double) :
    Llvm.Value.load double (Llvm.Value.load i64 payload.bits : Llvm.Value layout).bits = payload := by
  rw [← h]
  refine (Llvm.Value.load_load_eq_iff payload i64).mpr fun position hdefined => ?_
  by_contra hout
  refine hdefined (payload.blank position ?_)
  rw [h]
  exact decide_eq_false fun hlt => hout (decide_eq_true hlt)

/-- Truncation undoes the extension of a Bool. -/
theorem load_i1_extended (h : payload.type = i1) :
    Llvm.Value.load i1 (Llvm.Value.load i64 fun position =>
      if position = 0 then payload.bits 0 else .bit false : Llvm.Value layout).bits = payload := by
  refine Llvm.Value.ext h.symm (funext fun position => ?_)
  rw [Llvm.Value.load_bits, Llvm.Value.load_bits]
  by_cases hzero : position = 0
  · subst hzero
    rfl
  · have hout : layout.holds i1 position = false :=
      decide_eq_false (by simpa [DataLayout.bits] using hzero)
    rw [if_neg (by rw [hout]; exact Bool.false_ne_true), payload.blank position (by rw [h]; exact hout)]

theorem unpackResultPayload_eq (slot : Llvm.Value layout)
    (htarget : generator.valueReprType layout target = .ok (generator.reprOf ty))
    (hfits : generator.Fits ty payload) :
    generator.unpackResultPayload now slot (some target) =
      if payload.type = ptrLenStructType then .ok slot
      else match payload.type with
        | .scalar .ptr => extractValue slot 0
        | .scalar .double => do return Llvm.Value.load double (← extractValue slot 1).bits
        | .scalar (.int 1) => do return Llvm.Value.load i1 (← extractValue slot 1).bits
        | .scalar (.int _) => return unitValue
        | .struct fields => (do loadThrough now (← extractValue slot 0) (.struct fields)) := by
  rw [hfits.1]
  show (do
    let repr ← generator.valueReprType layout target
    _) = _
  rw [htarget]
  rfl

/-- Unpacking at the payload's type undoes packing. -/
theorem unpack_pack_result (heap : Heap) (hfits : generator.Fits ty payload) :
    ∃ slot later, packResultPayload heap payload = .ok (slot, later) ∧
      slot.type = ptrLenStructType ∧ heap <+: later ∧ ∀ now target, later <+: now →
        generator.valueReprType layout target = .ok (generator.reprOf ty) →
          generator.unpackResultPayload now slot (some target) = .ok payload := by
  by_cases hwhole : payload.type = ptrLenStructType
  · refine ⟨payload, heap, if_pos hwhole, hwhole, List.prefix_rfl, fun now target _ htarget => ?_⟩
    rw [unpackResultPayload_eq payload htarget hfits, if_pos hwhole]
  have hpack : packResultPayload heap payload = _ := if_neg hwhole
  cases htype : payload.type with
  | struct fields =>
    have hpointer : (box heap payload).1.type = ptr := rfl
    obtain ⟨slot, hslot, hslotType, hfirst, -⟩ :=
      resultSlot_ok _ (Llvm.Value.zero i64) hpointer rfl
    refine ⟨slot, (box heap payload).2, ?_, hslotType, box_heap, fun now target hnow htarget => ?_⟩
    · rw [hpack, htype]
      show (do
        let slot ← resultSlot (box heap payload).1 (Llvm.Value.zero i64)
        return (slot, (box heap payload).2)) = _
      rw [hslot]
      rfl
    · rw [unpackResultPayload_eq slot htarget hfits, if_neg hwhole, htype]
      show (do
        let pointer ← extractValue slot 0
        loadThrough now pointer (.struct fields)) = _
      rw [hfirst, ← htype]
      exact loadThrough_box hnow
  | scalar scalar =>
    cases scalar with
    | ptr =>
      obtain ⟨slot, hslot, hslotType, hfirst, -⟩ :=
        resultSlot_ok _ (Llvm.Value.zero i64) htype rfl
      refine ⟨slot, heap, ?_, hslotType, List.prefix_rfl, fun now target _ htarget => ?_⟩
      · rw [hpack, htype]
        show (do return (← resultSlot payload (Llvm.Value.zero i64), heap)) = _
        rw [hslot]
        rfl
      · rw [unpackResultPayload_eq slot htarget hfits, if_neg hwhole, htype]
        exact hfirst
    | double =>
      obtain ⟨slot, hslot, hslotType, -, hsecond⟩ := 
        resultSlot_ok (Llvm.Value.zero ptr : Llvm.Value layout) (Llvm.Value.load i64 payload.bits) rfl rfl
      refine ⟨slot, heap, ?_, hslotType, List.prefix_rfl, fun now target _ htarget => ?_⟩
      · rw [hpack, htype]
        show (do return (← resultSlot (Llvm.Value.zero ptr) (Llvm.Value.load i64 payload.bits), heap)) = _
        rw [hslot]
        rfl
      · rw [unpackResultPayload_eq slot htarget hfits, if_neg hwhole, htype]
        show (do return Llvm.Value.load double (← extractValue slot 1).bits) = _
        rw [hsecond]
        exact congrArg Except.ok (load_double_i64 htype)
    | int width =>
      have hwidth : width = 1 ∨ width = 8 :=
        (width_of_reprOf (hfits.1.symm.trans htype)).imp_right And.left
      rcases hwidth with rfl | rfl
      · let extended : Llvm.Value layout := Llvm.Value.load i64 fun position =>
          if position = 0 then payload.bits 0 else .bit false
        obtain ⟨slot, hslot, hslotType, -, hsecond⟩ := 
          resultSlot_ok (Llvm.Value.zero ptr) extended rfl rfl
        refine ⟨slot, heap, ?_, hslotType, List.prefix_rfl, fun now target _ htarget => ?_⟩
        · rw [hpack, htype]
          show (do return (← resultSlot (Llvm.Value.zero ptr) extended, heap)) = _
          rw [hslot]
          rfl
        · rw [unpackResultPayload_eq slot htarget hfits, if_neg hwhole, htype]
          show (do return Llvm.Value.load i1 (← extractValue slot 1).bits) = _
          rw [hsecond]
          exact congrArg Except.ok (load_i1_extended htype)
      · -- an `i8` is the one value of `$`
        have hunit := hfits.2 (eq_unit_of_reprOf (hfits.1.symm.trans htype))
        obtain ⟨slot, hslot, hslotType, -, -⟩ := 
          resultSlot_ok (Llvm.Value.zero ptr : Llvm.Value layout) (Llvm.Value.zero i64) rfl rfl
        refine ⟨slot, heap, ?_, hslotType, List.prefix_rfl, fun now target _ htarget => ?_⟩
        · rw [hpack, htype]
          show (do return (← resultSlot (Llvm.Value.zero ptr) (Llvm.Value.zero i64), heap)) = _
          rw [hslot]
          rfl
        · rw [unpackResultPayload_eq slot htarget hfits, if_neg hwhole, htype, hunit]
          rfl

theorem payloadValues_result {heap later : Heap} {payload slot : Llvm.Value layout}
    (registered : Option (List BasicType)) (h : packResultPayload heap payload = .ok (slot, later)) :
    CodeGenerator.payloadValues true registered 0 heap [payload] = .ok ([slot], later) := by
  rw [CodeGenerator.payloadValues]
  show (packResultPayload heap payload >>= _) = _
  rw [h]
  rfl

/-- What `Ok` and `NotOk` build. -/
theorem construct_result (heap : Heap) (variant : String) (tag : UInt8)
    (hlayout : generator.sumLayouts "Result" = some (.perPosition [ptrLenStructType]))
    (hfits : generator.Fits ty payload) :
    ∃ slot value later, packResultPayload heap payload = .ok (slot, later) ∧
      generator.generateSumConstructor heap tag "Result" variant [payload] = .ok (value, later) ∧
      Tagged (.perPosition [ptrLenStructType]) tag (some slot) value := by
  obtain ⟨slot, later, hpack, hslotType, -, -⟩ := unpack_pack_result heap hfits
  obtain ⟨tagged, hinsert, htagged⟩ :=
    exists_tagged layout (.perPosition [ptrLenStructType]) tag
  obtain ⟨value, hvalue, hwhole⟩ :=
    htagged.insert_payload slot (by rw [hslotType]; rfl)
  refine ⟨slot, value, later, hpack, ?_, hwhole⟩
  have hinsert' : insertValue (Llvm.Value.undef (.struct (i8 :: [ptrLenStructType])) : Llvm.Value layout)
      (tagValue tag) 0 = .ok tagged := hinsert
  rw [CodeGenerator.generateSumConstructor, hlayout]
  show (CodeGenerator.payloadValues true (some [ptrLenStructType]) 0 heap [payload] >>= _) = _
  rw [payloadValues_result (some [ptrLenStructType]) hpack]
  show (do
    let aggregate ← insertValue (Llvm.Value.undef (.struct (i8 :: [ptrLenStructType]))) (tagValue tag) 0
    return (← insertValues aggregate 1 [slot], later)) = _
  rw [hinsert']
  have hinserted : insertValues tagged 1 [slot] = .ok value := by
    rw [insertValues, hvalue]
    rfl
  show (do return (← insertValues tagged 1 [slot], later)) = _
  rw [hinserted]
  rfl

end Quilon.Sums
