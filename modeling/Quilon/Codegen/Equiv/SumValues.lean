import Quilon.Codegen.Equiv.SumLayouts
import Quilon.Library.Lookup
import Mathlib.Data.List.Nodup

/-!
# Building a sum value and taking it apart

The value the constructor of a declared sum gives, bit by bit, and what is read out of it
(`construct_nullary`, `construct_payload`): the tag, and of the payload in its slot the bits the
layout keeps.  A `PerPosition` layout keeps them all, a `Union` one those its widest body holds.
-/

namespace Quilon.Sums

open Llvm

variable {layout : DataLayout}

/-! ### The shape of a layout -/

/-- The fields behind the tag. -/
def SumLayout.body : SumLayout → List BasicType
  | .perPosition slots => slots
  | .union _ widest => [widest]

/-- The slot the payload of a variant is put in. -/
def SumLayout.payloadSlot (sumLayout : SumLayout) (variant : String) : Option BasicType :=
  match sumLayout with
  | .perPosition slots => slots[0]?
  | .union variantBodies _ =>
    (variantBodies.reverse.lookup variant).bind fun body => (structFields body)[0]?

/-- Whether a bit of the payload survives the layout. -/
def SumLayout.keeps (layout : DataLayout) (sumLayout : SumLayout) (position : Nat) : Bool :=
  match sumLayout with
  | .perPosition _ => true
  | .union _ widest => layout.holds widest position

/-- Where the payload begins, in bits. -/
def SumLayout.payloadStart (layout : DataLayout) (sumLayout : SumLayout) : Nat :=
  8 * layout.fieldOffset 0 (i8 :: sumLayout.body) 1

theorem positionAgrees_some {concrete field : Ty} {fields : List (Option Ty)}
    (h : positionAgrees (some concrete) fields = true) (hmem : some field ∈ fields)
    (hfield : isConcrete field = true) : concrete = field := by
  induction fields with
  | nil => exact absurd hmem (by simp)
  | cons first rest ih =>
    cases first with
    | none => exact ih h (by simpa using hmem)
    | some other =>
      rw [positionAgrees] at h
      by_cases hother : isConcrete other = true
      · simp only [if_pos hother, Bool.and_eq_true, decide_eq_true_eq] at h
        rcases List.mem_cons.mp hmem with heq | hrest
        · exact h.1.trans (Option.some.inj heq).symm
        · exact ih h.2 hrest
      · rw [if_neg hother] at h
        rcases List.mem_cons.mp hmem with heq | hrest
        · exact absurd (Option.some.inj heq ▸ hfield) hother
        · exact ih h hrest

/-- Where the concrete fields of a position agree, each of them is the first. -/
theorem find?_of_positionAgrees {α : Type*} {fieldOf : α → Option Ty} {entries : List α} {field : Ty}
    (h : positionAgrees none (entries.map fieldOf) = true)
    (hmem : some field ∈ entries.map fieldOf) (hfield : isConcrete field = true) :
    (entries.filterMap fieldOf).find? isConcrete = some field := by
  induction entries with
  | nil => exact absurd hmem (by simp)
  | cons entry rest ih =>
    rw [List.map_cons] at h hmem
    cases hentry : fieldOf entry with
    | none =>
      rw [hentry] at h hmem
      rw [List.filterMap_cons_none hentry]
      exact ih h (by simpa using hmem)
    | some other =>
      rw [hentry, positionAgrees] at h
      rw [hentry] at hmem
      rw [List.filterMap_cons_some hentry]
      by_cases hother : isConcrete other = true
      · rw [if_pos hother] at h
        rw [List.find?_cons_of_pos hother]
        rcases List.mem_cons.mp hmem with heq | hrest
        · exact heq.symm
        · exact congrArg some (positionAgrees_some h hrest hfield)
      · rw [if_neg hother] at h
        rw [List.find?_cons_of_neg hother]
        rcases List.mem_cons.mp hmem with heq | hrest
        · exact absurd (Option.some.inj heq ▸ hfield) hother
        · exact ih h hrest

theorem arity_le {α : Type*} {variants : List (String × List α)} {bound : Nat}
    (h : ∀ v ∈ variants, v.2.length ≤ bound) : arity variants ≤ bound := by
  have hfold : ∀ (lengths : List Nat) (start : Nat), start ≤ bound → (∀ n ∈ lengths, n ≤ bound) →
      lengths.foldl max start ≤ bound := by
    intro lengths
    induction lengths with
    | nil => exact fun _ hstart _ => hstart
    | cons n rest ih =>
      intro start hstart hlengths
      rw [List.foldl_cons]
      exact ih _ (Nat.max_le.mpr ⟨hstart, hlengths n (List.mem_cons_self ..)⟩)
        fun m hm => hlengths m (List.mem_cons_of_mem _ hm)
  refine hfold _ 0 (Nat.zero_le _) fun n hn => ?_
  obtain ⟨v, hv, rfl⟩ := List.mem_map.mp hn
  exact h v hv

theorem length_le_arity {α : Type*} {variants : List (String × List α)} {v : String × List α}
    (h : v ∈ variants) : v.2.length ≤ arity variants := by
  have hfold : ∀ (lengths : List Nat) (start : Nat), start ≤ lengths.foldl max start ∧
      ∀ n ∈ lengths, n ≤ lengths.foldl max start := by
    intro lengths
    induction lengths with
    | nil => exact fun start => ⟨Nat.le_refl _, nofun⟩
    | cons n rest ih =>
      intro start
      obtain ⟨hstart, hrest⟩ := ih (max start n)
      rw [List.foldl_cons]
      refine ⟨Nat.le_trans (Nat.le_max_left _ _) hstart, fun m hm => ?_⟩
      rcases List.mem_cons.mp hm with rfl | hm
      · exact Nat.le_trans (Nat.le_max_right _ _) hstart
      · exact hrest m hm
  exact (hfold (variants.map (·.2.length)) 0).2 _ (List.mem_map_of_mem h)

/-- A `PerPosition` sum has one slot. -/
theorem slotTypes_eq (slot : Ty → BasicType) {variants : List (String × List Ty)}
    (harity : ∀ v ∈ variants, v.2.length ≤ 1) :
    slotTypes slot variants = [double] ∧ (∀ v ∈ variants, v.2 = []) ∨
      slotTypes slot variants = [slotAt slot (variants.filterMap (·.2[0]?))] := by
  have hle : arity variants ≤ 1 := arity_le harity
  rcases Nat.le_one_iff_eq_zero_or_eq_one.mp hle with hzero | hone
  · left
    refine ⟨by rw [slotTypes, hzero]; rfl, fun v hv => List.length_eq_zero_iff.mp ?_⟩
    have := length_le_arity hv
    omega
  · right
    rw [slotTypes, hone]
    rfl

/-- The slot of a payload that is neither `$` nor a type variable. -/
theorem perPosition_slot (slot : Ty → BasicType) {variants : List (String × List Ty)}
    (harity : ∀ v ∈ variants, v.2.length ≤ 1) (hagree : positionsAgree variants = true)
    {variant : String} {ty : Ty} (hmem : (variant, [ty]) ∈ variants) (hty : isConcrete ty = true) :
    slotTypes slot variants = [slot ty] := by
  rcases slotTypes_eq slot harity with ⟨-, hnullary⟩ | hslots
  · exact absurd (hnullary _ hmem) (by simp)
  · have hlength : 1 ≤ arity variants := length_le_arity hmem
    have hposition : positionAgrees none (variants.map (·.2[0]?)) = true :=
      List.all_eq_true.mp hagree 0 (List.mem_range.mpr hlength)
    have hfirst : (variants.filterMap (·.2[0]?)).find? isConcrete = some ty :=
      find?_of_positionAgrees hposition (List.mem_map.mpr ⟨_, hmem, rfl⟩) hty
    rw [hslots, slotAt, hfirst]

/-- The slot of a sum that carries nothing but `$`. -/
theorem perPosition_slot_unit (slot : Ty → BasicType) {variants : List (String × List Ty)}
    (harity : ∀ v ∈ variants, v.2.length ≤ 1) {variant : String} (hmem : (variant, [.unit]) ∈ variants)
    (hunit : ∀ v ty, (v, [ty]) ∈ variants → ty = .unit) : slotTypes slot variants = [i8] := by
  rcases slotTypes_eq slot harity with ⟨-, hnullary⟩ | hslots
  · exact absurd (hnullary _ hmem) (by simp)
  · have hall : ∀ field ∈ variants.filterMap (·.2[0]?), field = .unit := by
      intro field hfield
      obtain ⟨⟨v, fields⟩, hv, hget⟩ := List.mem_filterMap.mp hfield
      cases fields with
      | nil => exact absurd hget (by simp)
      | cons first rest =>
        obtain rfl : rest = [] := List.length_eq_zero_iff.mp (by simpa using harity _ hv)
        obtain rfl : first = field := by simpa using hget
        exact hunit v first hv
    have hnone : (variants.filterMap (·.2[0]?)).find? isConcrete = none :=
      List.find?_eq_none.mpr fun field hfield => by rw [hall field hfield]; decide
    have hgeneric : (variants.filterMap (·.2[0]?)).any isGeneric = false :=
      List.any_eq_false.mpr fun field hfield => by rw [hall field hfield]; decide
    rw [hslots, slotAt, hnone]
    simp only [hgeneric, Bool.false_eq_true, if_false]

/-- The wider of two bodies, the later one of a tie. -/
def wider (layout : DataLayout) (widest : Option BasicType) (body : BasicType) : Option BasicType :=
  match widest with
  | none => some body
  | some best => if layout.abiSize best ≤ layout.abiSize body then some body else some best

/-- No body is wider than the widest. -/
theorem abiSize_le_widestBody {bodies : List BasicType} {body : BasicType} (h : body ∈ bodies) :
    layout.abiSize body ≤ layout.abiSize ((widestBody layout bodies).getD (.struct [])) := by
  have hfold : ∀ (bodies : List BasicType) (start : Option BasicType),
      (∀ best, start = some best → layout.abiSize best ≤
        layout.abiSize ((bodies.foldl (wider layout) start).getD (.struct []))) ∧
      ∀ body ∈ bodies, layout.abiSize body ≤
        layout.abiSize ((bodies.foldl (wider layout) start).getD (.struct [])) := by
    intro bodies
    induction bodies with
    | nil =>
      refine fun start => ⟨fun best hbest => ?_, fun _ h => absurd h List.not_mem_nil⟩
      rw [hbest]
      exact Nat.le_refl _
    | cons first rest ih =>
      intro start
      rw [List.foldl_cons]
      obtain ⟨hstart, hrest⟩ := ih (wider layout start first)
      have hpick : ∃ next, wider layout start first = some next ∧
          layout.abiSize first ≤ layout.abiSize next ∧
          ∀ best, start = some best → layout.abiSize best ≤ layout.abiSize next := by
        cases start with
        | none =>
          refine ⟨first, rfl, Nat.le_refl _, ?_⟩
          intro best hbest
          cases hbest
        | some best =>
          by_cases hle : layout.abiSize best ≤ layout.abiSize first
          · refine ⟨first, if_pos hle, Nat.le_refl _, fun other hother => ?_⟩
            rw [← Option.some.inj hother]
            exact hle
          · refine ⟨best, if_neg hle, by omega, fun other hother => ?_⟩
            rw [← Option.some.inj hother]
      obtain ⟨next, hnext, hfirst, hbefore⟩ := hpick
      have hbound := hstart next hnext
      refine ⟨fun best hbest => Nat.le_trans (hbefore best hbest) hbound, fun body hbody => ?_⟩
      rcases List.mem_cons.mp hbody with rfl | hbody
      · exact Nat.le_trans hfirst hbound
      · exact hrest body hbody
  exact (hfold bodies none).2 body h

/-- The body a variant is registered with. -/
theorem lookup_variantBodies (slot : Ty → BasicType) {variants : List (String × List Ty)}
    (hnames : (variants.map (·.1)).Nodup) {variant : String} {fields : List Ty}
    (hmem : (variant, fields) ∈ variants) :
    (variantBodies slot variants).reverse.lookup variant = some (.struct (fields.map slot)) := by
  have hfst : (variantBodies slot variants).map (·.1) = variants.map (·.1) := by
    rw [variantBodies, List.map_map]
    rfl
  have hnodup : ((variantBodies slot variants).reverse.map (·.1)).Nodup := by
    rw [List.map_reverse, List.nodup_reverse, hfst]
    exact hnames
  have hentry : (variant, BasicType.struct (fields.map slot)) ∈ (variantBodies slot variants).reverse :=
    List.mem_reverse.mpr (List.mem_map.mpr ⟨_, hmem, rfl⟩)
  exact lookup_eq_some_of_mem hnodup hentry

/-! ### Payloads in their slots -/

/-- A value of the payload type's representation; `$` has one value. -/
def CodeGenerator.Fits (generator : CodeGenerator) (ty : Ty) (argument : Llvm.Value layout) : Prop :=
  argument.type = generator.reprOf ty ∧ (ty = .unit → argument = unitValue)

/-- What `coerce_payload` does: the slot, what is put into it and the heap behind. -/
inductive Coerced (heap : Heap) (ty : Ty) (argument : Llvm.Value layout) :
    BasicType → Llvm.Value layout → Heap → Prop
  | same : Coerced heap ty argument argument.type argument heap
  | boxed : argument.type.isStruct = true →
      Coerced heap ty argument ptr (box heap argument).1 (box heap argument).2
  | zeroed (slot : BasicType) : ty = .unit → slot ≠ i8 →
      Coerced heap ty argument slot (Llvm.Value.zero slot) heap

section Coercions

variable {generator : CodeGenerator} {heap later now : Heap} {ty : Ty} {slot : BasicType}
  {argument payload raw : Llvm.Value layout}

theorem coercePayload_same (h : argument.type = slot) :
    coercePayload heap argument slot = .ok (argument, heap) := by
  subst h
  unfold coercePayload
  split
  · next hint hdouble => exact absurd (hint.symm.trans hdouble) (by simp)
  · rw [if_pos rfl]

theorem zero_double_eq : unsignedIntToFloat 8 (unitValue : Llvm.Value layout) = Llvm.Value.zero double := by
  have hbits : ∀ position < 8, (unitValue : Llvm.Value layout).bits position = .bit false := by
    intro position h
    have hheld : layout.holds i8 position = true := decide_eq_true h
    rw [unitValue, Llvm.Value.zero, Llvm.Value.load_bits, if_pos hheld]
  have hnat : natOf? (unitValue : Llvm.Value layout).bits 8 = some 0 := by
    simp [natOf?, hbits]
  rw [unsignedIntToFloat, hnat]
  rfl

/-- Every payload fits the slot its layout gives it. -/
theorem coercePayload_ok (heap : Heap) (hfits : generator.Fits ty argument)
    (hslot : slot = generator.reprOf ty ∨
      slot = ptr ∧ (generator.reprOf ty).isStruct = true ∨ ty = .unit) :
    ∃ payload later, coercePayload heap argument slot = .ok (payload, later) ∧
      Coerced heap ty argument slot payload later := by
  by_cases hsame : argument.type = slot
  · subst hsame
    exact ⟨argument, heap, coercePayload_same rfl, .same⟩
  rcases hslot with hrepr | ⟨rfl, hstruct⟩ | hunit
  · exact absurd (hfits.1.trans hrepr.symm) hsame
  · rw [← hfits.1] at hstruct
    refine ⟨_, _, ?_, .boxed hstruct⟩
    cases htype : argument.type with
    | scalar scalar =>
      rw [htype] at hstruct
      exact absurd hstruct (by simp [BasicType.isStruct])
    | struct fields => simp [coercePayload, htype, ptr]
  · have hargument := hfits.2 hunit
    have htype : argument.type = .scalar (.int 8) := by rw [hargument]; rfl
    have hne : slot ≠ i8 := fun heq => hsame (htype.trans heq.symm)
    refine ⟨Llvm.Value.zero slot, heap, ?_, .zeroed slot hunit hne⟩
    by_cases hdouble : slot = .scalar .double
    · subst hdouble
      simp only [coercePayload, htype]
      rw [hargument, zero_double_eq]
      rfl
    · unfold coercePayload
      split
      · exact absurd rfl hdouble
      · rw [if_neg hsame, htype]
        rfl

theorem Coerced.type_eq (h : Coerced heap ty argument slot payload later) : payload.type = slot := by
  cases h with
  | same => rfl
  | boxed _ => rfl
  | zeroed _ _ _ => rfl

theorem box_heap : heap <+: (box heap argument).2 := Heap.prefix_store_alloc

theorem Coerced.heap_prefix (h : Coerced heap ty argument slot payload later) : heap <+: later := by
  cases h with
  | same => exact List.prefix_rfl
  | boxed _ => exact box_heap
  | zeroed _ _ _ => exact List.prefix_rfl

/-- What was boxed is loaded back. -/
theorem loadThrough_box (hnow : (box heap argument).2 <+: now) :
    loadThrough now (box heap argument).1 argument.type = .ok argument := by
  have hstored : (box heap argument).2.load heap.length argument.type = some argument := by
    have hlength : heap.length < heap.alloc.2.length := by simp [Heap.alloc]
    exact Heap.load_store hlength
  have haddress : (box heap argument).1.address? = some heap.length := Llvm.Value.address?_pointer _
  rw [loadThrough, haddress]
  simp only [Heap.load_of_prefix hnow hstored]

/-- A payload comes back out of its slot, unless it is a `$` in a slot of another type. -/
theorem unboxIfBoxed_coerced {target : Ty} (h : Coerced heap ty argument slot payload later)
    (hfits : generator.Fits ty argument) (hunit : ty = .unit → slot = i8) (hnow : later <+: now)
    (htarget : generator.valueReprType layout target = .ok (generator.reprOf ty)) :
    generator.unboxIfBoxed now payload (some target) = .ok argument := by
  cases h with
  | same =>
    unfold CodeGenerator.unboxIfBoxed
    split
    · next hptr htargetType =>
      obtain rfl := Option.some.inj htargetType
      rw [htarget, ← hfits.1, hptr]
      rfl
    · rfl
  | boxed hstruct =>
    have hrepr : generator.reprOf ty ≠ ptr := by
      rw [← hfits.1]
      intro heq
      rw [heq] at hstruct
      exact absurd hstruct (by decide)
    have hload := loadThrough_box hnow
    rw [hfits.1] at hload
    show (do
      let repr ← generator.valueReprType layout target
      if repr = ptr then return _ else loadThrough now _ repr) = _
    rw [htarget]
    show (if generator.reprOf ty = ptr then _ else _) = _
    rw [if_neg hrepr]
    exact hload
  | zeroed _ htype hne => exact absurd (hunit htype) hne

/-- A `$` in a slot of another type does not come back. -/
theorem unboxIfBoxed_zeroed {target : Ty} (hfits : generator.Fits .unit argument) (hne : slot ≠ i8)
    (htarget : generator.valueReprType layout target = .ok (generator.reprOf .unit)) :
    generator.unboxIfBoxed now (Llvm.Value.zero slot : Llvm.Value layout) (some target) ≠ .ok argument := by
  intro hok
  have htype : argument.type = i8 := hfits.1
  unfold CodeGenerator.unboxIfBoxed at hok
  split at hok
  · next hptr htargetType =>
    obtain rfl := Option.some.inj htargetType
    rw [htarget] at hok
    have hload : loadThrough now (Llvm.Value.zero slot : Llvm.Value layout) i8 = .ok argument := hok
    rw [loadThrough, Llvm.Value.address?_zero] at hload
    exact absurd hload (by simp)
  · have heq : (Llvm.Value.zero slot : Llvm.Value layout) = argument := Except.ok.inj hok
    rw [← heq] at htype
    exact hne htype

/-- A payload that lost a bit does not come back. -/
theorem unboxIfBoxed_lost {target : Ty} (h : Coerced heap ty argument slot payload later)
    (hfits : generator.Fits ty argument) (hunit : ty = .unit → slot = i8) (htype : raw.type = slot)
    {position : Nat} (hlost : raw.bits position = .undefined)
    (hdefined : payload.bits position ≠ .undefined)
    (htarget : generator.valueReprType layout target = .ok (generator.reprOf ty)) :
    generator.unboxIfBoxed now raw (some target) ≠ .ok argument := by
  intro hok
  cases h with
  | same =>
    have heq : raw = argument := by
      unfold CodeGenerator.unboxIfBoxed at hok
      split at hok
      · next hptr htargetType =>
        obtain rfl := Option.some.inj htargetType
        rw [htarget, ← hfits.1, ← htype, hptr] at hok
        exact Except.ok.inj hok
      · exact Except.ok.inj hok
    rw [heq] at hlost
    exact hdefined hlost
  | boxed hstruct =>
    -- a pointer that misses a bit is none
    have hbound : position < layout.pointerBits := by
      by_contra hout
      have hblank : layout.holds ptr position = false := decide_eq_false hout
      exact hdefined ((box heap argument).1.blank position hblank)
    have haddress : raw.address? = none := by
      rw [Llvm.Value.address?]
      split
      · next address index hfirst =>
        rw [if_neg]
        intro hall
        have hbit := List.all_eq_true.mp hall position (List.mem_range.mpr hbound)
        rw [hlost] at hbit
        exact absurd hbit (by simp)
      · rfl
    have hrepr : generator.reprOf ty ≠ ptr := by
      rw [← hfits.1]
      intro heq
      rw [heq] at hstruct
      exact absurd hstruct (by decide)
    have hload : (do
        let repr ← generator.valueReprType layout target
        if repr = ptr then return raw else loadThrough now raw repr) = .ok argument := by
      unfold CodeGenerator.unboxIfBoxed at hok
      rw [htype] at hok
      exact hok
    rw [htarget] at hload
    have hload' : (if generator.reprOf ty = ptr then Except.ok raw
        else loadThrough now raw (generator.reprOf ty)) = .ok argument := hload
    rw [if_neg hrepr, loadThrough, haddress] at hload'
    exact absurd hload' (by simp)
  | zeroed _ hty hne => exact hne (hunit hty)

end Coercions

/-! ### Tagged values -/

/-- A struct of the layout with this tag and, where there is one, this payload field; nothing else in
it is defined. -/
structure Tagged (sumLayout : SumLayout) (tag : UInt8) (payload : Option (Llvm.Value layout))
    (value : Llvm.Value layout) : Prop where
  type : value.type = .struct (i8 :: sumLayout.body)
  tagField : value.extract 0 = some (tagValue tag)
  payloadField : ∀ field, payload = some field → value.extract 1 = some field
  bits : ∀ position, value.bits position ≠ .undefined ↔
    position < 8 ∨ ∃ field inner, payload = some field ∧
      position = sumLayout.payloadStart layout + inner ∧ field.bits inner ≠ .undefined

section TaggedValues

variable {sumLayout : SumLayout} {tag : UInt8} {value field : Llvm.Value layout}

theorem holds_i8 {position : Nat} : layout.holds i8 position = true ↔ position < 8 :=
  decide_eq_true_iff

theorem tagValue_bits {position : Nat} :
    (tagValue tag : Llvm.Value layout).bits position =
      if position < 8 then .bit (tag.toNat.testBit position) else .undefined := by
  show (if layout.holds i8 position = true then _ else _) = _
  by_cases h : position < 8
  · rw [if_pos (holds_i8.mpr h), if_pos h]
  · rw [if_neg fun hheld => h (holds_i8.mp hheld), if_neg h]

/-- The payload begins behind the tag. -/
theorem SumLayout.le_payloadStart (layout : DataLayout) (sumLayout : SumLayout) :
    8 ≤ sumLayout.payloadStart layout := by
  have hafter := layout.fieldOffset_add_size_le (i := 0) (j := 1) 0
    (show (i8 :: sumLayout.body)[0]? = some i8 from rfl) (by decide)
  have hsize := layout.lt_of_holds i8 7 (holds_i8.mpr (by decide))
  rw [SumLayout.payloadStart]
  omega

/-- Setting the tag. -/
theorem exists_tagged (layout : DataLayout) (sumLayout : SumLayout) (tag : UInt8) :
    ∃ value : Llvm.Value layout,
    insertValue (Llvm.Value.undef (.struct (i8 :: sumLayout.body))) (tagValue tag) 0 = .ok value ∧
      Tagged sumLayout tag none value := by
  have htype : (Llvm.Value.undef (.struct (i8 :: sumLayout.body)) : Llvm.Value layout).type =
      .struct (i8 :: sumLayout.body) := rfl
  obtain ⟨value, hvalue, hvalueType⟩ :=
    Llvm.Value.insert_eq_some (i := 0) (tagValue tag) htype (Nat.succ_pos _)
  have hfield : (i8 :: sumLayout.body)[0]? = some (tagValue tag : Llvm.Value layout).type := rfl
  refine ⟨value, by rw [insertValue, hvalue], hvalueType, Llvm.Value.extract_insert_self htype hfield hvalue,
    nofun, fun position => ?_⟩
  have hundef : ∀ position, (Llvm.Value.undef (.struct (i8 :: sumLayout.body)) : Llvm.Value layout).bits
      position = .undefined := fun position => by rw [Llvm.Value.undef, Llvm.Value.load_bits, ite_self]
  rw [Llvm.Value.insert_bits htype hfield hvalue, DataLayout.fieldOffset_zero, Nat.mul_zero, Nat.sub_zero]
  by_cases h : position < 8
  · rw [if_pos ⟨Nat.zero_le _, holds_i8.mpr h⟩, tagValue_bits, if_pos h]
    simp [h]
  · rw [if_neg fun hin => h (holds_i8.mp hin.2), hundef]
    simp [h]

/-- Setting the payload. -/
theorem Tagged.insert_payload (field : Llvm.Value layout) (h : Tagged sumLayout tag none value)
    (hbody : sumLayout.body[0]? = some field.type) :
    ∃ whole, insertValue value field 1 = .ok whole ∧ Tagged sumLayout tag (some field) whole := by
  have hfield : (i8 :: sumLayout.body)[1]? = some field.type := hbody
  obtain ⟨whole, hwhole, hwholeType⟩ := Llvm.Value.insert_eq_some field h.type
    (List.getElem?_eq_some_iff.mp hfield).1
  refine ⟨whole, by rw [insertValue, hwhole], hwholeType, ?_, ?_, fun position => ?_⟩
  · rw [Llvm.Value.extract_insert_of_ne h.type hfield hwhole (by decide)]
    exact h.tagField
  · intro other hother
    rw [← Option.some.inj hother]
    exact Llvm.Value.extract_insert_self h.type hfield hwhole
  · have hbefore : value.bits position ≠ .undefined ↔ position < 8 := by
      rw [h.bits]
      simp
    have hstart := SumLayout.le_payloadStart layout sumLayout
    rw [Llvm.Value.insert_bits h.type hfield hwhole]
    show (if sumLayout.payloadStart layout ≤ position ∧
      layout.holds field.type (position - sumLayout.payloadStart layout) = true then
        field.bits (position - sumLayout.payloadStart layout) else value.bits position) ≠ .undefined ↔ _
    by_cases hin : sumLayout.payloadStart layout ≤ position ∧
        layout.holds field.type (position - sumLayout.payloadStart layout) = true
    · rw [if_pos hin]
      constructor
      · intro hdefined
        exact Or.inr ⟨field, position - sumLayout.payloadStart layout, rfl, by omega, hdefined⟩
      · rintro (hlt | ⟨other, inner, hother, rfl, hdefined⟩)
        · omega
        · rw [Nat.add_sub_cancel_left, Option.some.inj hother]
          exact hdefined
    · rw [if_neg hin, hbefore]
      constructor
      · exact Or.inl
      · rintro (hlt | ⟨other, inner, hother, rfl, hdefined⟩)
        · exact hlt
        · -- a defined bit of the field is one its type holds
          obtain rfl := Option.some.inj hother
          have hheld : layout.holds field.type inner = true := by
            by_contra hnot
            exact hdefined (field.blank inner (by simpa using hnot))
          rw [Nat.add_sub_cancel_left] at hin
          exact absurd ⟨Nat.le_add_right _ _, hheld⟩ hin

theorem natOf?_testBit {bits : Nat → Bit} {number : Nat} (width : Nat)
    (h : ∀ position < width, bits position = .bit (number.testBit position)) :
    natOf? bits width = some (number % 2 ^ width) := by
  induction width with
  | zero => rw [natOf?, Nat.pow_zero, Nat.mod_one]
  | succ width ih =>
    rw [natOf?, ih fun position hposition => h position (by omega), h width (Nat.lt_succ_self _)]
    simp only [Option.some.injEq]
    rw [Nat.mod_pow_succ, Nat.testBit_eq_decide_div_mod_eq]
    by_cases hbit : number / 2 ^ width % 2 = 1
    · simp [hbit]
    · have hzero : number / 2 ^ width % 2 = 0 := by omega
      simp [hzero]

theorem natOf?_tagValue : natOf? (tagValue tag : Llvm.Value layout).bits 8 = some tag.toNat := by
  have hbits : ∀ position < 8,
      (tagValue tag : Llvm.Value layout).bits position = .bit (tag.toNat.testBit position) := by
    intro position h
    rw [tagValue_bits, if_pos h]
  rw [natOf?_testBit 8 hbits, Nat.mod_eq_of_lt tag.toNat_lt]

/-- The tag test reads the tag. -/
theorem Tagged.variantTagMatches {generator : CodeGenerator} {variant owner : String}
    {expected : UInt8} {payload : Option (Llvm.Value layout)} (h : Tagged sumLayout tag payload value)
    (hvariant : generator.sumVariants variant = some (expected, owner)) :
    generator.variantTagMatches variant value = .ok (decide (tag = expected)) := by
  rw [CodeGenerator.variantTagMatches, hvariant]
  have hstruct : value.type.isStruct = true := by rw [h.type]; rfl
  simp only [hstruct, if_true]
  rw [extractValue, h.tagField]
  show Except.ok (decide (natOf? (tagValue tag : Llvm.Value layout).bits 8 = some expected.toNat)) = _
  rw [natOf?_tagValue]
  congr 1
  simp only [Option.some.injEq, UInt8.toNat_inj]

end TaggedValues

/-! ### Constructing and reading back -/

section Construction

variable {checker : TypeChecker} {generator : CodeGenerator} {name variant : String}
  {variants : List (String × List Ty)} {heap : Heap} {tag : UInt8}

/-- A payload's slot: the representation, or a pointer for the sum's own values. -/
theorem Registered.slotOf_cases (h : Registered layout checker generator name variants) {ty : Ty}
    (hty : ty.isWritten = true) :
    generator.slotOf name ty = generator.reprOf ty ∨
      generator.slotOf name ty = ptr ∧ (generator.reprOf ty).isStruct = true := by
  rw [CodeGenerator.slotOf]
  by_cases hself : ty.declaredName = some name
  · rw [if_pos hself]
    refine Or.inr ⟨rfl, ?_⟩
    cases ty with
    | named other fields methods =>
      obtain ⟨rfl, rfl⟩ : fields = [] ∧ methods = [] := by simpa [Ty.isWritten] using hty
      obtain rfl : other = name := Option.some.inj hself
      rw [CodeGenerator.reprOf, h.sumLayout]
      show (generator.sumStructType other).isStruct = true
      rw [CodeGenerator.sumStructType]
      split
      · rfl
      · rfl
      · rfl
    | sum other fields =>
      have hresult : Ty.sum other fields = .result := by simpa [Ty.isWritten] using hty
      cases hresult
      exact absurd (Option.some.inj hself).symm h.fresh
    | _ => exact absurd hself (by simp [Ty.declaredName])
  · rw [if_neg hself]
    exact Or.inl rfl

/-- What a payload goes through on its way into a value of the sum and back to where it is read. -/
structure Built (heap : Heap) (generator : CodeGenerator) (sumLayout : SumLayout)
    (name variant : String) (tag : UInt8) (ty : Ty) (argument : Llvm.Value layout)
    (slot : BasicType) (payload value raw : Llvm.Value layout) (later : Heap) : Prop where
  slotEq : sumLayout.payloadSlot variant = some slot
  coerced : Coerced heap ty argument slot payload later
  built : generator.generateSumConstructor heap tag name variant [argument] = .ok (value, later)
  tagged : ∃ stored, Tagged sumLayout tag (some stored) value ∧ ∀ position, stored.bits position =
    if sumLayout.keeps layout position then payload.bits position else .undefined
  read : generator.rawPayloads value name variant 1 = .ok [raw]
  rawType : raw.type = slot
  rawBits : ∀ position, raw.bits position =
    if sumLayout.keeps layout position then payload.bits position else .undefined

/-- The bits of a value are its tag and the payload's bits the layout keeps. -/
theorem Built.bits {sumLayout : SumLayout} {ty : Ty} {argument payload value raw : Llvm.Value layout}
    {slot : BasicType} {later : Heap}
    (h : Built heap generator sumLayout name variant tag ty argument slot payload value raw later)
    (position : Nat) :
    value.bits position ≠ .undefined ↔ position < 8 ∨ ∃ inner,
      position = sumLayout.payloadStart layout + inner ∧ sumLayout.keeps layout inner = true ∧
        payload.bits inner ≠ .undefined := by
  obtain ⟨stored, htagged, hstored⟩ := h.tagged
  rw [htagged.bits]
  refine or_congr_right ?_
  constructor
  · rintro ⟨field, inner, hfield, hposition, hdefined⟩
    rw [← Option.some.inj hfield, hstored] at hdefined
    by_cases hkeeps : sumLayout.keeps layout inner = true
    · rw [if_pos hkeeps] at hdefined
      exact ⟨inner, hposition, hkeeps, hdefined⟩
    · rw [if_neg hkeeps] at hdefined
      exact absurd rfl hdefined
  · rintro ⟨inner, hposition, hkeeps, hdefined⟩
    refine ⟨stored, inner, rfl, hposition, ?_⟩
    rw [hstored, if_pos hkeeps]
    exact hdefined

theorem generateSumConstructor_perPosition {slots : List BasicType}
    (hlayout : generator.sumLayouts name = some (.perPosition slots)) (hname : name ≠ "Result")
    (arguments : List (Llvm.Value layout)) :
    generator.generateSumConstructor heap tag name variant arguments = (do
      let (payloads, heap) ← CodeGenerator.payloadValues false (some slots) 0 heap arguments
      let aggregate ← insertValue (Llvm.Value.undef (.struct (i8 :: slots))) (tagValue tag) 0
      return (← insertValues aggregate 1 payloads, heap)) := by
  rw [CodeGenerator.generateSumConstructor, hlayout, decide_eq_false hname]
  rfl

/-- One payload, coerced to the slot of its position. -/
theorem payloadValues_single {heap later : Heap} {argument payload : Llvm.Value layout}
    {slot : BasicType} (h : coercePayload heap argument slot = .ok (payload, later)) :
    CodeGenerator.payloadValues false (some [slot]) 0 heap [argument] = .ok ([payload], later) := by
  rw [CodeGenerator.payloadValues]
  show (coercePayload heap argument slot >>= _) = _
  rw [h]
  rfl

theorem unionFieldValues_single {heap later : Heap} {argument payload : Llvm.Value layout}
    {slot : BasicType} (h : coercePayload heap argument slot = .ok (payload, later)) :
    CodeGenerator.unionFieldValues [slot] 0 heap [argument] = .ok ([payload], later) := by
  rw [CodeGenerator.unionFieldValues]
  show (coercePayload heap argument slot >>= _) = _
  rw [h]
  rfl

/-- The only payload, behind the tag. -/
theorem mapM_extractValue_single {value raw : Llvm.Value layout}
    (h : extractValue value 1 = .ok raw) :
    ((List.range 1).mapM fun index => extractValue value (index + 1)) = .ok [raw] := by
  show (do return [← extractValue value 1]) = _
  rw [h]
  rfl

theorem rawPayloads_perPosition {slots : List BasicType}
    (hlayout : generator.sumLayouts name = some (.perPosition slots)) (value : Llvm.Value layout)
    (count : Nat) : generator.rawPayloads value name variant count =
      (List.range count).mapM fun index => extractValue value (index + 1) := by
  rw [CodeGenerator.rawPayloads, CodeGenerator.unionPayloadValues, hlayout]
  rfl

theorem built_perPosition (heap : Heap) (variant : String) (tag : UInt8) {slot : BasicType} {ty : Ty} {argument : Llvm.Value layout}
    (hlayout : generator.sumLayouts name = some (.perPosition [slot])) (hname : name ≠ "Result")
    (hfits : generator.Fits ty argument)
    (hslot : slot = generator.reprOf ty ∨
      slot = ptr ∧ (generator.reprOf ty).isStruct = true ∨ ty = .unit) :
    ∃ payload value raw later, Built heap generator (.perPosition [slot]) name variant tag ty argument
      slot payload value raw later := by
  obtain ⟨payload, later, hcoerce, hcoerced⟩ := coercePayload_ok heap hfits hslot
  obtain ⟨tagged, hinsert, htagged⟩ :=
    exists_tagged layout (.perPosition [slot]) tag
  obtain ⟨value, hvalue, hwhole⟩ :=
    htagged.insert_payload payload (by rw [hcoerced.type_eq]; rfl)
  refine ⟨payload, value, payload, later,
    { slotEq := rfl
      coerced := hcoerced
      built := ?_
      tagged := ⟨payload, hwhole, fun _ => rfl⟩
      read := ?_
      rawType := hcoerced.type_eq
      rawBits := fun _ => rfl }⟩
  · rw [generateSumConstructor_perPosition hlayout hname, payloadValues_single hcoerce]
    have hinserted : insertValues tagged 1 [payload] = .ok value := by
      rw [insertValues, hvalue]
      rfl
    show (do
      let aggregate ← insertValue (Llvm.Value.undef (.struct (i8 :: [slot]))) (tagValue tag) 0
      return (← insertValues aggregate 1 [payload], later)) = _
    have hinsert' : insertValue (Llvm.Value.undef (.struct (i8 :: [slot])) : Llvm.Value layout) (tagValue tag) 0 =
        .ok tagged := hinsert
    rw [hinsert']
    show (do return (← insertValues tagged 1 [payload], later)) = _
    rw [hinserted]
    rfl
  · rw [rawPayloads_perPosition hlayout]
    have hextract : extractValue value 1 = .ok payload := by
      rw [extractValue, hwhole.payloadField payload rfl]
    exact mapM_extractValue_single hextract

theorem built_union (heap : Heap) (tag : UInt8) {variantBodies : List (String × BasicType)} {widest slot : BasicType} {ty : Ty}
    {argument : Llvm.Value layout}
    (hlayout : generator.sumLayouts name = some (.union variantBodies widest))
    (hbody : variantBodies.reverse.lookup variant = some (.struct [slot]))
    (hsize : layout.abiSize (.struct [slot]) ≤ layout.abiSize widest)
    (hfits : generator.Fits ty argument)
    (hslot : slot = generator.reprOf ty ∨
      slot = ptr ∧ (generator.reprOf ty).isStruct = true ∨ ty = .unit) :
    ∃ payload value raw later, Built heap generator (.union variantBodies widest) name variant tag ty
      argument slot payload value raw later := by
  obtain ⟨payload, later, hcoerce, hcoerced⟩ := coercePayload_ok heap hfits hslot
  obtain ⟨tagged, hinsert, htagged⟩ :=
    exists_tagged layout (.union variantBodies widest) tag
  -- the variant's own struct, with the payload as its only field
  have hundef : (Llvm.Value.undef (.struct [slot]) : Llvm.Value layout).type = .struct [slot] := rfl
  have hfield : [slot][0]? = some payload.type := by rw [hcoerced.type_eq]; rfl
  obtain ⟨packed, hpacked, hpackedType⟩ :=
    Llvm.Value.insert_eq_some (i := 0) payload hundef (Nat.succ_pos _)
  have hpackedBits : ∀ position, packed.bits position = payload.bits position := by
    intro position
    rw [Llvm.Value.insert_bits hundef hfield hpacked, DataLayout.fieldOffset_zero, Nat.mul_zero,
      Nat.sub_zero]
    by_cases hheld : layout.holds payload.type position = true
    · rw [if_pos ⟨Nat.zero_le _, hheld⟩]
    · rw [if_neg fun hin => hheld hin.2, payload.blank position (by simpa using hheld), Llvm.Value.undef,
        Llvm.Value.load_bits, ite_self]
  -- in the storage of the widest one
  let stored : Llvm.Value layout := Llvm.Value.load widest packed.bits
  have hstoredBits : ∀ position, stored.bits position =
      if (SumLayout.union variantBodies widest).keeps layout position then payload.bits position
      else .undefined := by
    intro position
    rw [Llvm.Value.load_bits, hpackedBits]
    rfl
  obtain ⟨value, hvalue, hwhole⟩ := htagged.insert_payload stored rfl
  -- and read back at the variant's own struct
  let narrow : Llvm.Value layout := Llvm.Value.load (.struct [slot]) stored.bits
  let raw : Llvm.Value layout := Llvm.Value.load slot narrow.bits
  have hextractRaw : narrow.extract 0 = some raw := by
    show some (Llvm.Value.load slot fun position =>
      narrow.bits (8 * layout.fieldOffset 0 [slot] 0 + position) : Llvm.Value layout) = some raw
    rw [DataLayout.fieldOffset_zero]
    simp only [Nat.mul_zero, Nat.zero_add]
    rfl
  have hrawBits : ∀ position, raw.bits position =
      if (SumLayout.union variantBodies widest).keeps layout position then payload.bits position
      else .undefined := by
    intro position
    rw [Llvm.Value.load_bits, Llvm.Value.load_bits, hstoredBits]
    by_cases hheld : layout.holds slot position = true
    · have hinBody : layout.holds (.struct [slot]) position = true := by
        have := layout.holdsInFields_of_field 0 (show [slot][0]? = some slot from rfl) hheld
        rw [DataLayout.fieldOffset_zero, Nat.mul_zero, Nat.zero_add] at this
        exact this
      rw [if_pos hheld, if_pos hinBody]
    · have hblank : payload.bits position = .undefined := by
        refine payload.blank position ?_
        rw [hcoerced.type_eq]
        simpa using hheld
      rw [if_neg hheld, hblank, ite_self]
  refine ⟨payload, value, raw, later,
    { slotEq := ?_
      coerced := hcoerced
      built := ?_
      tagged := ⟨stored, hwhole, hstoredBits⟩
      read := ?_
      rawType := rfl
      rawBits := hrawBits }⟩
  · rw [SumLayout.payloadSlot, hbody]
    rfl
  · rw [CodeGenerator.generateSumConstructor, hlayout]
    simp only [hbody]
    have hfields : CodeGenerator.unionFieldValues (structFields (.struct [slot])) 0 heap [argument] =
        .ok ([payload], later) := unionFieldValues_single hcoerce
    have hinserted : insertValues (Llvm.Value.undef (.struct [slot])) 0 [payload] = .ok packed := by
      rw [insertValues, insertValue, hpacked]
      rfl
    have hreinterpret : reinterpretStruct packed widest widest = .ok stored := by
      rw [reinterpretStruct, hpackedType, if_pos ⟨hsize, Nat.le_refl _⟩]
    have hstruct : generator.sumStructType name = .struct [i8, widest] := by
      rw [CodeGenerator.sumStructType, hlayout]
    have hinsert' : insertValue (Llvm.Value.undef (.struct [i8, widest]) : Llvm.Value layout) (tagValue tag) 0 =
        .ok tagged := hinsert
    rw [CodeGenerator.generateUnionSumValue, hfields, hstruct]
    show (do
      let packed ← insertValues (Llvm.Value.undef (.struct [slot])) 0 [payload]
      let widened ← reinterpretStruct packed widest widest
      let aggregate ← insertValue (Llvm.Value.undef (.struct [i8, widest])) (tagValue tag) 0
      return (← insertValue aggregate widened 1, later)) = _
    rw [hinserted]
    show (do
      let widened ← reinterpretStruct packed widest widest
      let aggregate ← insertValue (Llvm.Value.undef (.struct [i8, widest])) (tagValue tag) 0
      return (← insertValue aggregate widened 1, later)) = _
    rw [hreinterpret]
    show (do
      let aggregate ← insertValue (Llvm.Value.undef (.struct [i8, widest])) (tagValue tag) 0
      return (← insertValue aggregate stored 1, later)) = _
    rw [hinsert']
    show (do return (← insertValue tagged stored 1, later)) = _
    rw [hvalue]
    rfl
  · have hextract : extractValue value 1 = .ok stored := by
      rw [extractValue, hwhole.payloadField stored rfl]
    have hnarrow : reinterpretStruct stored stored.type (.struct [slot]) = .ok narrow := by
      rw [reinterpretStruct, if_pos ⟨Nat.le_refl _, hsize⟩]
    have hunion : generator.unionPayloadValues value name variant 1 = .ok (some [raw]) := by
      rw [CodeGenerator.unionPayloadValues, hlayout]
      simp only [hbody]
      rw [hextract]
      show (do
        let narrow ← reinterpretStruct stored stored.type (.struct [slot])
        return some (← (List.range 1).mapM (extractValue narrow ·))) = _
      rw [hnarrow]
      show (do return some [← extractValue narrow 0]) = _
      rw [extractValue, hextractRaw]
      rfl
    rw [CodeGenerator.rawPayloads, hunion]
    rfl

/-- A value of a sum carries nothing but its tag when the variant has no payload. -/
structure BuiltNullary (heap : Heap) (generator : CodeGenerator) (sumLayout : SumLayout)
    (name variant : String) (tag : UInt8) (value : Llvm.Value layout) : Prop where
  built : generator.generateSumConstructor heap tag name variant [] = .ok (value, heap)
  tagged : ∃ stored, Tagged sumLayout tag stored value
  bits : ∀ position, value.bits position ≠ .undefined ↔ position < 8
  read : generator.rawPayloads value name variant 0 = .ok []

theorem builtNullary_perPosition {slots : List BasicType}
    (hlayout : generator.sumLayouts name = some (.perPosition slots)) (hname : name ≠ "Result") :
    ∃ value : Llvm.Value layout,
      BuiltNullary heap generator (.perPosition slots) name variant tag value := by
  obtain ⟨value, hinsert, htagged⟩ :=
    exists_tagged layout (.perPosition slots) tag
  refine ⟨value,
    { built := ?_
      tagged := ⟨none, htagged⟩
      bits := fun position => by rw [htagged.bits]; simp
      read := by rw [rawPayloads_perPosition hlayout]; rfl }⟩
  rw [generateSumConstructor_perPosition hlayout hname]
  show (do
    let aggregate ← insertValue (Llvm.Value.undef (.struct (i8 :: slots))) (tagValue tag) 0
    return (aggregate, heap)) = _
  have hinsert' : insertValue (Llvm.Value.undef (.struct (i8 :: slots)) : Llvm.Value layout) (tagValue tag) 0 =
      .ok value := hinsert
  rw [hinsert']
  rfl

theorem builtNullary_union {variantBodies : List (String × BasicType)} {widest : BasicType}
    (hlayout : generator.sumLayouts name = some (.union variantBodies widest))
    (hbody : variantBodies.reverse.lookup variant = some (.struct []))
    (hsize : layout.abiSize (.struct []) ≤ layout.abiSize widest) :
    ∃ value : Llvm.Value layout,
      BuiltNullary heap generator (.union variantBodies widest) name variant tag value := by
  obtain ⟨tagged, hinsert, htagged⟩ :=
    exists_tagged layout (.union variantBodies widest) tag
  let stored : Llvm.Value layout := Llvm.Value.load widest (Llvm.Value.undef (.struct []) : Llvm.Value layout).bits
  have hblank : ∀ position, stored.bits position = .undefined := by
    intro position
    have hundef : (Llvm.Value.undef (.struct []) : Llvm.Value layout).bits position = .undefined := by
      rw [Llvm.Value.undef, Llvm.Value.load_bits, ite_self]
    rw [Llvm.Value.load_bits, hundef, ite_self]
  obtain ⟨value, hvalue, hwhole⟩ := htagged.insert_payload stored rfl
  have hstruct : generator.sumStructType name = .struct [i8, widest] := by
    rw [CodeGenerator.sumStructType, hlayout]
  refine ⟨value, { built := ?_, tagged := ⟨_, hwhole⟩, bits := fun position => ?_, read := ?_ }⟩
  · rw [CodeGenerator.generateSumConstructor, hlayout]
    simp only [hbody]
    have hinsert' : insertValue (Llvm.Value.undef (.struct [i8, widest]) : Llvm.Value layout) (tagValue tag) 0 =
        .ok tagged := hinsert
    have hreinterpret : reinterpretStruct (Llvm.Value.undef (.struct []) : Llvm.Value layout) widest widest =
        .ok stored := by
      rw [reinterpretStruct]
      exact if_pos ⟨hsize, Nat.le_refl _⟩
    rw [CodeGenerator.generateUnionSumValue, hstruct]
    show (do
      let widened ← reinterpretStruct (Llvm.Value.undef (.struct [])) widest widest
      let aggregate ← insertValue (Llvm.Value.undef (.struct [i8, widest])) (tagValue tag) 0
      return (← insertValue aggregate widened 1, heap)) = _
    rw [hreinterpret]
    show (do
      let aggregate ← insertValue (Llvm.Value.undef (.struct [i8, widest])) (tagValue tag) 0
      return (← insertValue aggregate stored 1, heap)) = _
    rw [hinsert']
    show (do return (← insertValue tagged stored 1, heap)) = _
    rw [hvalue]
    rfl
  · rw [hwhole.bits]
    constructor
    · rintro (hlt | ⟨field, inner, hfield, -, hdefined⟩)
      · exact hlt
      · rw [← Option.some.inj hfield] at hdefined
        exact absurd (hblank inner) hdefined
    · exact Or.inl
  · have hextract : extractValue value 1 = .ok stored := by
      rw [extractValue, hwhole.payloadField stored rfl]
    have hnarrow : reinterpretStruct stored stored.type (.struct []) =
        .ok (Llvm.Value.load (.struct []) stored.bits) := by
      rw [reinterpretStruct, if_pos ⟨Nat.le_refl _, hsize⟩]
    have hunion : generator.unionPayloadValues value name variant 0 = .ok (some []) := by
      rw [CodeGenerator.unionPayloadValues, hlayout]
      simp only [hbody]
      rw [hextract]
      show (do
        let narrow ← reinterpretStruct stored stored.type (.struct [])
        return some (← (List.range 0).mapM (extractValue narrow ·))) = _
      rw [hnarrow]
      rfl
    rw [CodeGenerator.rawPayloads, hunion]
    rfl

variable (h : Registered layout checker generator name variants)
include h

/-- A variant without a payload. -/
theorem Registered.construct_nullary (heap : Heap) (tag : UInt8) (hmem : (variant, []) ∈ variants) :
    ∃ value : Llvm.Value layout, BuiltNullary heap generator
      (layoutOf layout (generator.slotOf name) variants) name variant tag value := by
  have hlayout := h.sumLayout
  rw [layoutOf] at hlayout ⊢
  by_cases hagree : positionsAgree variants = true
  · rw [if_pos hagree] at hlayout ⊢
    exact builtNullary_perPosition hlayout h.fresh
  · rw [if_neg hagree] at hlayout ⊢
    have hbody := lookup_variantBodies (generator.slotOf name) h.names hmem
    refine builtNullary_union hlayout hbody (abiSize_le_widestBody ?_)
    exact List.mem_map.mpr ⟨_, List.mem_map.mpr ⟨_, hmem, rfl⟩, rfl⟩

/-- A variant with a payload: its slot is that of the payload's type, but for a `$` beside payloads of
another type. -/
theorem Registered.construct_payload (heap : Heap) (tag : UInt8) {ty : Ty} {argument : Llvm.Value layout}
    (hmem : (variant, [ty]) ∈ variants) (hfits : generator.Fits ty argument) :
    ∃ slot payload value raw later, Built heap generator
        (layoutOf layout (generator.slotOf name) variants) name variant tag ty argument slot payload
        value raw later ∧
      (slot = generator.slotOf name ty ∨ positionsAgree variants = true ∧ ty = .unit) := by
  have hty : ty.isWritten = true := h.written _ hmem ty (List.mem_singleton_self _)
  have hslot : generator.slotOf name ty = generator.reprOf ty ∨
      generator.slotOf name ty = ptr ∧ (generator.reprOf ty).isStruct = true ∨ ty = .unit :=
    (h.slotOf_cases hty).imp_right Or.inl
  have hlayout := h.sumLayout
  rw [layoutOf] at hlayout ⊢
  by_cases hagree : positionsAgree variants = true
  · rw [if_pos hagree] at hlayout ⊢
    by_cases hconcrete : isConcrete ty = true
    · have hslots := perPosition_slot (generator.slotOf name) h.arity hagree hmem hconcrete
      rw [hslots] at hlayout ⊢
      obtain ⟨payload, value, raw, later, hbuilt⟩ := built_perPosition heap variant tag
        hlayout h.fresh hfits hslot
      exact ⟨_, payload, value, raw, later, hbuilt, Or.inl rfl⟩
    · have hunit : ty = .unit := by
        cases ty with
        | unit => rfl
        | generic parameter => simp [Ty.isWritten] at hty
        | _ => exact absurd rfl hconcrete
      rcases slotTypes_eq (generator.slotOf name) h.arity with ⟨-, hnullary⟩ | hslots
      · exact absurd (hnullary _ hmem) (by simp)
      · rw [hslots] at hlayout ⊢
        obtain ⟨payload, value, raw, later, hbuilt⟩ := built_perPosition heap variant
          tag hlayout h.fresh hfits (Or.inr (Or.inr hunit))
        exact ⟨_, payload, value, raw, later, hbuilt, Or.inr ⟨hagree, hunit⟩⟩
  · rw [if_neg hagree] at hlayout ⊢
    have hbody := lookup_variantBodies (generator.slotOf name) h.names hmem
    obtain ⟨payload, value, raw, later, hbuilt⟩ := built_union heap tag hlayout
      hbody (abiSize_le_widestBody (List.mem_map.mpr ⟨_, List.mem_map.mpr ⟨_, hmem, rfl⟩, rfl⟩))
      hfits hslot
    exact ⟨_, payload, value, raw, later, hbuilt, Or.inl rfl⟩

end Construction

end Quilon.Sums
