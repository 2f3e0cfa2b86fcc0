import Quilon.Codegen.Equiv.SumBits

/-!
# Sum values round-trip

A list of accepted declarations gives sums whose values come back as they were built exactly when no
sum has more variants than a tag tells apart, no `$` shares its slot with another payload type, and
every bit a payload uses is one the widest body holds (`sums_roundTrip`).  The last of these fails as
soon as the widest body has its padding where a smaller payload has its bits
(`event_does_not_roundTrip`).
-/

namespace Quilon.Sums

open Llvm

variable {layout : DataLayout}

/-! ### What is claimed -/

/-- The payload list the checker records for a variant of a declared sum. -/
def recordedPayloads (checker : TypeChecker) (name variant : String) : Option (List Ty) :=
  match checker.types.sumTypes name with
  | some (.sum _ variants) => variants.lookup variant
  | _ => none

/-- The ways a value of the sum `name` takes through a program: copies, boxes, Results and the payloads
of other sums, while more is allocated. -/
inductive Moves (checker : TypeChecker) (generator : CodeGenerator) (name : String) (start : Heap)
    (value : Llvm.Value layout) : Heap → Llvm.Value layout → Prop
  | here : Moves checker generator name start value start value
  | later {heap after : Heap} {moved : Llvm.Value layout} :
      Moves checker generator name start value heap moved → heap <+: after →
      Moves checker generator name start value after moved
  | copied {heap : Heap} {moved copy : Llvm.Value layout} :
      Moves checker generator name start value heap moved →
      reinterpretStruct moved moved.type moved.type = .ok copy →
      Moves checker generator name start value heap copy
  | boxed {heap after : Heap} {moved copy : Llvm.Value layout} :
      Moves checker generator name start value heap moved → (box heap moved).2 <+: after →
      loadThrough after (box heap moved).1 moved.type = .ok copy →
      Moves checker generator name start value after copy
  /-- through `Ok` or `NotOk`; `target` is the payload type the checker specialised the Result to -/
  | wrapped {heap between after : Heap} {moved outer copy : Llvm.Value layout} {variant : String}
      {tag : UInt8} {target : Ty} :
      Moves checker generator name start value heap moved →
      generator.sumVariants variant = some (tag, "Result") →
      generator.generateSumConstructor heap tag "Result" variant [moved] = .ok (outer, between) →
      between <+: after →
      target = .named name [] [] ∨ target = checker.types.resolveType (.named name [] []) →
      generator.generatePayloadAccess after outer variant (some [target]) = .ok copy →
      Moves checker generator name start value after copy
  | nested {heap between after : Heap} {moved outer copy : Llvm.Value layout} {variant owner : String}
      {tag : UInt8} {concrete : Option (List Ty)} :
      Moves checker generator name start value heap moved →
      generator.sumVariants variant = some (tag, owner) →
      generator.variantPayloads variant = some [.named name [] []] →
      generator.generateSumConstructor heap tag owner variant [moved] = .ok (outer, between) →
      between <+: after → concrete = none ∨ concrete = recordedPayloads checker owner variant →
      generator.generatePayloadAccess after outer variant concrete = .ok copy →
      Moves checker generator name start value after copy

/-- `is_irrefutable` -/
def isIrrefutable : Pattern → Bool
  | .identifier _ _ | .wildcard _ => true
  | _ => false

/-- Whether the pattern takes values of the variant. -/
def takes (variant : String) : Pattern → Bool
  | .constructor name _ _ => name == variant
  | pattern => isIrrefutable pattern

/-- The bindings of a constructor pattern over these payloads. -/
def boundNames : List Pattern → List (Llvm.Value layout) → List (String × Llvm.Value layout)
  | .identifier name _ :: patterns, argument :: arguments =>
    (name, argument) :: boundNames patterns arguments
  | _ :: patterns, _ :: arguments => boundNames patterns arguments
  | _, _ => []

/-- A value reads as `variant` of these arguments: a match enters the first arm for the variant, its
pattern binds the arguments, and `.payload` is the argument. -/
structure ReadsBack (checker : TypeChecker) (generator : CodeGenerator) (name : String)
    (variants : List (String × List Ty)) (variant : String) (arguments : List (Llvm.Value layout))
    (heap : Heap) (value : Llvm.Value layout) : Prop where
  arm : ∀ arms : List Pattern, (∀ arm ∈ arms, isIrrefutable arm = true ∨
      ∃ other patterns span, arm = .constructor other patterns span ∧ other ∈ variants.map (·.1)) →
    generator.selectArm value arms = .ok (arms.findIdx? (takes variant))
  bindings : ∀ concrete, concrete = none ∨ concrete = recordedPayloads checker name variant →
    ∀ patterns span, patterns.length = arguments.length →
      (∀ pattern ∈ patterns, isIrrefutable pattern = true) →
      generator.bindPattern heap value concrete (.constructor variant patterns span) =
        .ok (boundNames patterns arguments)
  payload : ∀ argument, arguments = [argument] →
    generator.generatePayloadAccess heap value variant (recordedPayloads checker name variant) =
      .ok argument

/-- Sum values and the payloads of Results come back as they were built. -/
structure RoundTrips (layout : DataLayout) (checker : TypeChecker) (generator : CodeGenerator)
    (sums : List (String × List (String × List Ty))) : Prop where
  tags : ∀ sum ∈ sums,
    (sum.2.map fun variant => (generator.sumVariants variant.1).map (·.1)).Nodup
  values : ∀ sum ∈ sums, ∀ variant ∈ sum.2, ∀ (heap : Heap) (arguments : List (Llvm.Value layout)),
    arguments.length = variant.2.length →
    (∀ (index : Nat) ty argument, variant.2[index]? = some ty → arguments[index]? = some argument →
      ValueOf generator heap ty argument) →
    ∃ tag value later, generator.sumVariants variant.1 = some (tag, sum.1) ∧
      generator.generateSumConstructor heap tag sum.1 variant.1 arguments = .ok (value, later) ∧
      ∀ now moved, Moves checker generator sum.1 later value now moved →
        ReadsBack checker generator sum.1 sum.2 variant.1 arguments now moved
  results : ∀ (heap : Heap) (ty : Ty) (payload : Llvm.Value layout), ValueOf generator heap ty payload →
    ∃ slot later, packResultPayload heap payload = .ok (slot, later) ∧ ∀ now target, later <+: now →
      target = ty ∨ target = checker.types.resolveType ty →
      generator.unpackResultPayload now slot (some target) = .ok payload

/-- No payload of these sums loses anything in its layout. -/
structure Fitting (layout : DataLayout) (generator : CodeGenerator)
    (sums : List (String × List (String × List Ty))) : Prop where
  /-- a tag has eight bits -/
  tags : ∀ sum ∈ sums, sum.2.length ≤ 256
  /-- in a `PerPosition` sum a `$` shares the slot with nothing else -/
  unit : ∀ sum ∈ sums, positionsAgree sum.2 = true → ∀ variant, (variant, [.unit]) ∈ sum.2 →
    ∀ other ty, (other, [ty]) ∈ sum.2 → ty = .unit
  /-- the widest body of a `Union` sum holds every bit a payload uses -/
  widest : ∀ sum ∈ sums, ∀ variant ty, (variant, [ty]) ∈ sum.2 → ∀ sumLayout slot,
    generator.sumLayouts sum.1 = some sumLayout → sumLayout.payloadSlot variant = some slot →
    ∀ position, CarriesIn layout generator slot ty position →
      sumLayout.keeps layout position = true

/-! ### Reading a payload -/

section Reading

variable {checker : TypeChecker} {generator : CodeGenerator} {variants : List (String × List Ty)}
  {heap later now : Heap} {ty target : Ty} {concrete : Option (List Ty)}
  {value argument payload raw : Llvm.Value layout} {slot : BasicType} {name variant : String}
  {tag expected : UInt8} {sumLayout : SumLayout}

theorem isGeneric_of_lowerable (h : generator.lowerable ty = true) : isGeneric ty = false := by
  cases ty with
  | generic name => simp [CodeGenerator.lowerable] at h
  | _ => rfl

/-- A known payload type is the one a payload is read at. -/
theorem payloadType_known (h : isGeneric target = false) :
    generator.payloadType (some [target]) variant 0 = some target := by
  rw [CodeGenerator.payloadType]
  exact List.find?_cons_of_pos (by rw [h]; rfl)

/-- A payload of a declared sum is read at its own representation. -/
theorem Registered.payloadType_ok (h : Registered layout checker generator name variants)
    (hresult : (generator.sumLayouts "Result").isSome = true) (hmem : (variant, [ty]) ∈ variants)
    (hconcrete : concrete = none ∨ concrete = recordedPayloads checker name variant) :
    ∃ target, generator.payloadType concrete variant 0 = some target ∧
      generator.valueReprType layout target = .ok (generator.reprOf ty) := by
  have hty : ty.isWritten = true := h.written _ hmem ty (List.mem_singleton_self _)
  rcases hconcrete with rfl | rfl
  · have hlowerable := CodeGenerator.lowerable_of_written hresult hty
    refine ⟨ty, ?_, CodeGenerator.valueReprType_eq hlowerable⟩
    rw [CodeGenerator.payloadType, h.payloads hmem]
    exact List.find?_cons_of_pos (by rw [isGeneric_of_lowerable hlowerable]; rfl)
  · obtain ⟨seen, hseen, -, htype⟩ := h.recorded
    have hlowerable := CodeGenerator.lowerable_resolveType hseen hty
    have hnodup : ((variants.map fun v => (v.1, v.2.map seen.resolveType)).map (·.1)).Nodup := by
      rw [List.map_map]
      exact h.names
    have hentry : (variant, [seen.resolveType ty]) ∈
        variants.map fun v => (v.1, v.2.map seen.resolveType) := List.mem_map.mpr ⟨_, hmem, rfl⟩
    have hrecorded : recordedPayloads checker name variant = some [seen.resolveType ty] := by
      rw [recordedPayloads, htype]
      exact lookup_eq_some_of_mem hnodup hentry
    refine ⟨seen.resolveType ty, ?_, ?_⟩
    · rw [hrecorded]
      exact payloadType_known (isGeneric_of_lowerable hlowerable)
    · rw [CodeGenerator.valueReprType_eq hlowerable, CodeGenerator.reprOf_resolveType hseen hty]

/-- `.payload` of a built value. -/
theorem Built.access (h : Built heap generator sumLayout name variant tag ty argument slot payload
      value raw later) (hname : name ≠ "Result")
    (hvariant : generator.sumVariants variant = some (expected, name))
    (htarget : generator.payloadType concrete variant 0 = some target) :
    generator.generatePayloadAccess now value variant concrete =
      generator.unboxIfBoxed now raw (some target) := by
  have howner : generator.owningType variant = name := by
    rw [CodeGenerator.owningType, hvariant]
    rfl
  rw [CodeGenerator.generatePayloadAccess, howner, h.read]
  show generator.payloadOf now raw variant (generator.payloadType concrete variant 0) = _
  rw [CodeGenerator.payloadOf, howner, if_neg hname, htarget]

/-- The one argument of a constructor pattern over a built value. -/
theorem Built.bind (h : Built heap generator sumLayout name variant tag ty argument slot payload
      value raw later) (hname : name ≠ "Result")
    (hvariant : generator.sumVariants variant = some (expected, name))
    (htarget : generator.payloadType concrete variant 0 = some target) {pattern : Pattern}
    (hpattern : isIrrefutable pattern = true) (span : Span)
    (hread : generator.unboxIfBoxed now raw (some target) = .ok argument) :
    generator.bindPattern now value concrete (.constructor variant [pattern] span) =
      .ok (boundNames [pattern] [argument]) := by
  have howner : generator.owningType variant = name := by
    rw [CodeGenerator.owningType, hvariant]
    rfl
  obtain ⟨stored, htagged, -⟩ := h.tagged
  have hstruct : value.type.isStruct = true := by rw [htagged.type]; rfl
  rw [CodeGenerator.bindPattern, if_pos hstruct, howner]
  show (do
    let raws ← generator.rawPayloads value name variant 1
    generator.bindArguments now variant concrete 0 [pattern] raws) = _
  rw [h.read]
  show generator.bindArguments now variant concrete 0 [pattern] [raw] = _
  cases pattern with
  | identifier bound boundSpan =>
    rw [CodeGenerator.bindArguments, CodeGenerator.payloadOf, howner, if_neg hname, htarget, hread]
    rfl
  | wildcard boundSpan => rfl
  | number _ _ => exact absurd hpattern (by simp [isIrrefutable])
  | text _ _ => exact absurd hpattern (by simp [isIrrefutable])
  | constructor _ _ _ => exact absurd hpattern (by simp [isIrrefutable])

/-- Nothing is lost when every defined bit is kept. -/
theorem Built.raw_eq (h : Built heap generator sumLayout name variant tag ty argument slot payload
      value raw later)
    (hkept : ∀ position, payload.bits position ≠ .undefined →
      sumLayout.keeps layout position = true) : raw = payload := by
  refine Llvm.Value.ext (h.rawType.trans h.coerced.type_eq.symm) (funext fun position => ?_)
  rw [h.rawBits]
  by_cases hkeeps : sumLayout.keeps layout position = true
  · rw [if_pos hkeeps]
  · rw [if_neg hkeeps]
    by_contra hne
    exact hkeeps (hkept position (Ne.symm hne))

end Reading

/-! ### When nothing is lost -/

section Tables

variable {checker : TypeChecker} {generator : CodeGenerator}
  {sums : List (String × List (String × List Ty))} {variants : List (String × List Ty)}
  {heap later now start : Heap} {ty target : Ty} {concrete : Option (List Ty)}
  {value argument payload raw moved : Llvm.Value layout} {slot : BasicType} {name variant : String}
  {tag : UInt8}

/-- A match enters the first arm that takes the variant. -/
theorem selectArm_eq {names : List String} {arms : List Pattern}
    (htags : ∀ other ∈ names, generator.variantTagMatches other value = .ok (other == variant))
    (harms : ∀ arm ∈ arms, isIrrefutable arm = true ∨
      ∃ other patterns span, arm = .constructor other patterns span ∧ other ∈ names) :
    generator.selectArm value arms = .ok (arms.findIdx? (takes variant)) := by
  induction arms with
  | nil => rfl
  | cons arm rest ih =>
    have hrest := ih fun other hother => harms other (List.mem_cons_of_mem _ hother)
    have hcheck : generator.checkPattern arm value = .ok (takes variant arm) := by
      rcases harms arm (List.mem_cons_self ..) with hirrefutable | ⟨other, patterns, span, rfl, hother⟩
      · cases arm with
        | identifier _ _ => rfl
        | wildcard _ => rfl
        | number _ _ => exact absurd hirrefutable (by simp [isIrrefutable])
        | text _ _ => exact absurd hirrefutable (by simp [isIrrefutable])
        | constructor _ _ _ => exact absurd hirrefutable (by simp [isIrrefutable])
      · exact htags other hother
    rw [CodeGenerator.selectArm, hcheck, List.findIdx?_cons]
    show (if takes variant arm = true then pure (some 0)
      else do return (← generator.selectArm value rest).map (· + 1)) = _
    by_cases htakes : takes variant arm = true
    · rw [if_pos htakes, if_pos htakes]
      rfl
    · rw [if_neg htakes, if_neg htakes, hrest]
      rfl

variable (htables : Tables layout checker generator sums)
include htables

theorem Tables.snapshot : CodeGenerator.Snapshot generator checker.types where
  result := by rw [htables.result]; rfl
  sums other h := (htables.registered other).mp (htables.sumTypes other h)
  records other _ h := by
    by_contra hne
    have hnamed := (htables.registered other).mpr (Option.isSome_iff_ne_none.mpr hne)
    exact (htables.records other h).2 hnamed

/-- A type and what the checker resolves it to have one representation. -/
theorem Tables.valueReprType_ok (hty : ty.isWritten = true)
    (htarget : target = ty ∨ target = checker.types.resolveType ty) :
    isGeneric target = false ∧ generator.valueReprType layout target = .ok (generator.reprOf ty) := by
  rcases htarget with rfl | rfl
  · have hlowerable := CodeGenerator.lowerable_of_written htables.snapshot.result hty
    exact ⟨isGeneric_of_lowerable hlowerable, CodeGenerator.valueReprType_eq hlowerable⟩
  · have hlowerable := CodeGenerator.lowerable_resolveType htables.snapshot hty
    refine ⟨isGeneric_of_lowerable hlowerable, ?_⟩
    rw [CodeGenerator.valueReprType_eq hlowerable,
      CodeGenerator.reprOf_resolveType htables.snapshot hty]

/-- The variants of a sum that has not too many of them are told apart by their tags. -/
theorem Tables.eq_of_tag (hsum : (name, variants) ∈ sums) (hlength : variants.length ≤ 256)
    {other : String} {fields otherFields : List Ty} (hmem : (variant, fields) ∈ variants)
    (hother : (other, otherFields) ∈ variants)
    (hvariant : generator.sumVariants variant = some (tag, name))
    (hsame : generator.sumVariants other = some (tag, name)) : other = variant := by
  have hregistered := htables.declared _ hsum
  obtain ⟨index, hindex⟩ := List.getElem?_of_mem hmem
  obtain ⟨otherIndex, hotherIndex⟩ := List.getElem?_of_mem hother
  have hlt := (List.getElem?_eq_some_iff.mp hindex).1
  have hotherLt := (List.getElem?_eq_some_iff.mp hotherIndex).1
  rw [hregistered.tag hindex] at hvariant
  rw [hregistered.tag hotherIndex] at hsame
  have htag : UInt8.ofNat otherIndex = UInt8.ofNat index :=
    congrArg Prod.fst (Option.some.inj (hsame.trans hvariant.symm))
  have hnat := congrArg UInt8.toNat htag
  rw [UInt8.toNat_ofNat', UInt8.toNat_ofNat'] at hnat
  obtain rfl : otherIndex = index := by omega
  exact congrArg Prod.fst (Option.some.inj (hotherIndex.symm.trans hindex))

/-- What was given to a constructor comes out of the slot again. -/
theorem Tables.unbox_eq (hfitting : Fitting layout generator sums) (hsum : (name, variants) ∈ sums)
    (hmem : (variant, [ty]) ∈ variants) (hargument : ValueOf generator heap ty argument)
    (hbuilt : Built heap generator (layoutOf layout (generator.slotOf name) variants) name variant tag
      ty argument slot payload value raw later)
    (hslot : slot = generator.slotOf name ty ∨ positionsAgree variants = true ∧ ty = .unit)
    (hnow : later <+: now)
    (htarget : generator.valueReprType layout target = .ok (generator.reprOf ty)) :
    generator.unboxIfBoxed now raw (some target) = .ok argument := by
  have hregistered := htables.declared _ hsum
  have hfits := htables.fits hargument
  -- the widest body keeps the payload
  have hraw : raw = payload := hbuilt.raw_eq fun position hdefined => by
    have hcarries := hbuilt.coerced.carriesIn hfits (htables.carries hargument)
      (htables.defined_zero hargument) hdefined
    exact hfitting.widest _ hsum variant ty hmem _ slot hregistered.sumLayout hbuilt.slotEq position
      hcarries
  -- a `$` stands in a slot of its own
  have hunit : ty = .unit → slot = i8 := by
    rintro rfl
    rcases hslot with hslot | ⟨hagree, -⟩
    · rw [hslot, CodeGenerator.slotOf, if_neg (by simp [Ty.declaredName])]
      rfl
    · have hslots := perPosition_slot_unit (generator.slotOf name) hregistered.arity hmem
        (hfitting.unit _ hsum hagree variant hmem)
      have hslotEq := hbuilt.slotEq
      rw [layoutOf, if_pos hagree, hslots] at hslotEq
      exact (Option.some.inj hslotEq).symm
  rw [hraw]
  exact unboxIfBoxed_coerced hbuilt.coerced hfits hunit hnow htarget

/-- `.payload` of a value of a declared sum is what the value was built from. -/
theorem Tables.access_eq (hfitting : Fitting layout generator sums)
    (hvariant : generator.sumVariants variant = some (tag, name))
    (hfields : generator.variantPayloads variant = some [ty])
    (hargument : ValueOf generator heap ty argument)
    (hconstructed : generator.generateSumConstructor heap tag name variant [argument] =
      .ok (value, later)) (hnow : later <+: now)
    (hconcrete : concrete = none ∨ concrete = recordedPayloads checker name variant) :
    heap <+: later ∧ generator.generatePayloadAccess now value variant concrete = .ok argument := by
  have hvalues := forall_singleton (P := ValueOf generator heap) hargument
  have hfits := forall_singleton (P := generator.Fits) (htables.fits hargument)
  obtain ⟨variants, hsum, hmem⟩ := htables.declared_of_values hvariant hfields rfl hvalues
  have hregistered := htables.declared _ hsum
  obtain ⟨target, hpayloadType, htarget⟩ :=
    hregistered.payloadType_ok htables.snapshot.result hmem hconcrete
  rcases htables.constructed hsum hmem rfl hfits hconstructed with
    ⟨hnone, -⟩ | ⟨_, _, slot, payload, raw, hty, hvalue, hbuilt, hslot⟩
  · exact absurd hnone (by simp)
  · obtain rfl := List.singleton_injective hty
    obtain rfl := List.singleton_injective hvalue
    refine ⟨hbuilt.coerced.heap_prefix, ?_⟩
    rw [hbuilt.access hregistered.fresh hvariant hpayloadType]
    exact htables.unbox_eq hfitting hsum hmem hargument hbuilt hslot hnow htarget

/-- `.payload` of a Result is what it was built from. -/
theorem Tables.access_result_eq (hvariant : generator.sumVariants variant = some (tag, "Result"))
    (hargument : ValueOf generator heap ty argument)
    (hconstructed : generator.generateSumConstructor heap tag "Result" variant [argument] =
      .ok (value, later)) (hnow : later <+: now)
    (htarget : target = ty ∨ target = checker.types.resolveType ty) :
    heap <+: later ∧
      generator.generatePayloadAccess now value variant (some [target]) = .ok argument := by
  have hfits := htables.fits hargument
  obtain ⟨hknown, hrepr⟩ := htables.valueReprType_ok hargument.isWritten htarget
  obtain ⟨slot, packed, hpack, -, hgrows, hunpack⟩ := unpack_pack_result heap hfits
  obtain ⟨slot', built, later', hpack', hbuilt, htagged⟩ :=
    construct_result heap variant tag htables.result hfits
  have hsame := hpack.symm.trans hpack'
  simp only [Except.ok.injEq, Prod.mk.injEq] at hsame
  obtain ⟨rfl, rfl⟩ := hsame
  have heq := hconstructed.symm.trans hbuilt
  simp only [Except.ok.injEq, Prod.mk.injEq] at heq
  obtain ⟨rfl, rfl⟩ := heq
  have howner : generator.owningType variant = "Result" := by
    rw [CodeGenerator.owningType, hvariant]
    rfl
  have hextract : extractValue value 1 = .ok slot := by
    rw [extractValue, htagged.payloadField slot rfl]
  refine ⟨hgrows, ?_⟩
  rw [CodeGenerator.generatePayloadAccess, howner, rawPayloads_perPosition htables.result]
  rw [mapM_extractValue_single hextract]
  show generator.payloadOf now slot variant (generator.payloadType (some [target]) variant 0) = _
  rw [CodeGenerator.payloadOf, if_pos howner, payloadType_known hknown]
  exact hunpack now target hnow hrepr

/-- Whatever way a value takes, it stays what it is. -/
theorem Tables.moved_eq (hfitting : Fitting layout generator sums)
    (hvalue : ValueOf generator start (.named name [] []) value)
    (h : Moves checker generator name start value now moved) : moved = value ∧ start <+: now := by
  induction h with
  | here => exact ⟨rfl, List.prefix_rfl⟩
  | later _ hafter ih => exact ⟨ih.1, ih.2.trans hafter⟩
  | copied _ hcopy ih =>
    obtain ⟨rfl, hstart⟩ := ih
    rw [reinterpretStruct, if_pos ⟨Nat.le_refl _, Nat.le_refl _⟩, Llvm.Value.load_self] at hcopy
    exact ⟨(Except.ok.inj hcopy).symm, hstart⟩
  | boxed _ hafter hcopy ih =>
    obtain ⟨rfl, hstart⟩ := ih
    rw [loadThrough_box hafter] at hcopy
    exact ⟨(Except.ok.inj hcopy).symm, (hstart.trans box_heap).trans hafter⟩
  | wrapped _ hvariant hbuilt hafter htarget hcopy ih =>
    obtain ⟨rfl, hstart⟩ := ih
    have hmoved := hvalue.mono hstart
    obtain ⟨hgrows, haccess⟩ :=
      htables.access_result_eq hvariant hmoved hbuilt hafter htarget
    rw [haccess] at hcopy
    exact ⟨(Except.ok.inj hcopy).symm, (hstart.trans hgrows).trans hafter⟩
  | nested _ hvariant hfields hbuilt hafter hconcrete hcopy ih =>
    obtain ⟨rfl, hstart⟩ := ih
    have hmoved := hvalue.mono hstart
    obtain ⟨hgrows, haccess⟩ :=
      htables.access_eq hfitting hvariant hfields hmoved hbuilt hafter hconcrete
    rw [haccess] at hcopy
    exact ⟨(Except.ok.inj hcopy).symm, (hstart.trans hgrows).trans hafter⟩

/-- The tag test answers whether the value is of the variant. -/
theorem Tables.variantTagMatches_eq (hsum : (name, variants) ∈ sums)
    (hlength : variants.length ≤ 256) {fields : List Ty} (hmem : (variant, fields) ∈ variants)
    (hvariant : generator.sumVariants variant = some (tag, name)) {sumLayout : SumLayout}
    {stored : Option (Llvm.Value layout)} (htagged : Tagged sumLayout tag stored value) :
    ∀ other ∈ variants.map (·.1), generator.variantTagMatches other value = .ok (other == variant) := by
  intro named hnamed
  obtain ⟨⟨other, otherFields⟩, hotherMem, rfl⟩ := List.mem_map.mp hnamed
  obtain ⟨index, hindex⟩ := List.getElem?_of_mem hotherMem
  have hotherTag := (htables.declared _ hsum).tag hindex
  rw [htagged.variantTagMatches hotherTag]
  refine congrArg Except.ok ?_
  by_cases hsame : tag = UInt8.ofNat index
  · rw [← hsame] at hotherTag
    rw [decide_eq_true hsame, htables.eq_of_tag hsum hlength hmem hotherMem hvariant hotherTag]
    exact (beq_self_eq_true variant).symm
  · have hne : other ≠ variant := by
      intro heq
      rw [heq] at hotherTag
      exact hsame (congrArg Prod.fst (Option.some.inj (hvariant.symm.trans hotherTag)))
    rw [decide_eq_false hsame, beq_eq_false_iff_ne.mpr hne]

/-- A value without a payload reads as its variant. -/
theorem Tables.readsBack_nullary (hsum : (name, variants) ∈ sums) (hlength : variants.length ≤ 256)
    (hmem : (variant, []) ∈ variants) (hvariant : generator.sumVariants variant = some (tag, name))
    (hbuilt : BuiltNullary heap generator (layoutOf layout (generator.slotOf name) variants) name
      variant tag value) :
    ReadsBack checker generator name variants variant [] now value := by
  obtain ⟨stored, htagged⟩ := hbuilt.tagged
  have hstruct : value.type.isStruct = true := by rw [htagged.type]; rfl
  have howner : generator.owningType variant = name := by
    rw [CodeGenerator.owningType, hvariant]
    rfl
  refine
    { arm := fun arms => selectArm_eq
        (htables.variantTagMatches_eq hsum hlength hmem hvariant htagged)
      bindings := fun concrete _ patterns span hpatterns _ => ?_
      payload := nofun }
  obtain rfl : patterns = [] := List.length_eq_zero_iff.mp hpatterns
  rw [CodeGenerator.bindPattern, if_pos hstruct, howner]
  show (do
    let raws ← generator.rawPayloads value name variant 0
    generator.bindArguments now variant concrete 0 [] raws) = _
  rw [hbuilt.read]
  rfl

/-- A value with a payload reads as its variant of that payload. -/
theorem Tables.readsBack_payload (hfitting : Fitting layout generator sums)
    (hsum : (name, variants) ∈ sums) (hmem : (variant, [ty]) ∈ variants)
    (hvariant : generator.sumVariants variant = some (tag, name))
    (hargument : ValueOf generator heap ty argument)
    (hbuilt : Built heap generator (layoutOf layout (generator.slotOf name) variants) name variant tag
      ty argument slot payload value raw later)
    (hslot : slot = generator.slotOf name ty ∨ positionsAgree variants = true ∧ ty = .unit)
    (hnow : later <+: now) :
    ReadsBack checker generator name variants variant [argument] now value := by
  have hregistered := htables.declared _ hsum
  obtain ⟨stored, htagged, -⟩ := hbuilt.tagged
  refine
    { arm := fun arms => selectArm_eq
        (htables.variantTagMatches_eq hsum (hfitting.tags _ hsum) hmem hvariant htagged)
      bindings := fun concrete hconcrete patterns span hpatterns hirrefutable => ?_
      payload := fun other hother => ?_ }
  · obtain ⟨pattern, rfl⟩ := List.length_eq_one_iff.mp hpatterns
    obtain ⟨target, hpayloadType, htarget⟩ :=
      hregistered.payloadType_ok htables.snapshot.result hmem hconcrete
    have hread := htables.unbox_eq hfitting hsum hmem hargument hbuilt hslot hnow htarget
    exact hbuilt.bind hregistered.fresh hvariant hpayloadType
      (hirrefutable pattern (List.mem_singleton_self _)) span hread
  · obtain rfl := List.singleton_injective hother
    obtain ⟨target, hpayloadType, htarget⟩ :=
      hregistered.payloadType_ok htables.snapshot.result hmem (Or.inr rfl)
    rw [hbuilt.access hregistered.fresh hvariant hpayloadType]
    exact htables.unbox_eq hfitting hsum hmem hargument hbuilt hslot hnow htarget

/-- Where every payload fits, values come back as they were built. -/
theorem Tables.roundTrips (hfitting : Fitting layout generator sums) :
    RoundTrips layout checker generator sums where
  tags := by
    rintro ⟨name, variants⟩ hsum
    have hnames := (htables.declared _ hsum).names
    refine List.Nodup.map_on ?_ (List.Nodup.of_map _ hnames)
    rintro ⟨variant, fields⟩ hmem ⟨other, otherFields⟩ hother hsame
    obtain ⟨index, hindex⟩ := List.getElem?_of_mem hmem
    obtain ⟨otherIndex, hotherIndex⟩ := List.getElem?_of_mem hother
    have hvariant := (htables.declared _ hsum).tag hindex
    have hotherTag := (htables.declared _ hsum).tag hotherIndex
    simp only [hvariant, hotherTag, Option.map_some, Option.some.injEq] at hsame
    rw [← hsame] at hotherTag
    have heq := htables.eq_of_tag hsum (hfitting.tags _ hsum) hmem hother hvariant hotherTag
    exact List.inj_on_of_nodup_map hnames hmem hother heq.symm
  values := by
    rintro ⟨name, variants⟩ hsum ⟨variant, fields⟩ hmem heap arguments hlength hvalues
    have hregistered := htables.declared _ hsum
    obtain ⟨index, hindex⟩ := List.getElem?_of_mem hmem
    have hvariant := hregistered.tag hindex
    have hvalue : ∀ {value : Llvm.Value layout} {later},
        generator.generateSumConstructor heap (UInt8.ofNat index) name variant arguments =
          .ok (value, later) → ValueOf generator later (.named name [] []) value :=
      fun hbuilt => .sum hvariant (hregistered.payloads hmem) hlength hvalues hbuilt List.prefix_rfl
    match fields, arguments with
    | [], [] =>
      obtain ⟨value, hbuilt⟩ := hregistered.construct_nullary heap (UInt8.ofNat index) hmem
      refine ⟨_, value, heap, hvariant, hbuilt.built, fun now moved hmoves => ?_⟩
      obtain ⟨rfl, -⟩ := htables.moved_eq hfitting (hvalue hbuilt.built) hmoves
      exact htables.readsBack_nullary hsum (hfitting.tags _ hsum) hmem hvariant hbuilt
    | [ty], [argument] =>
      have hargument := hvalues 0 ty argument rfl rfl
      obtain ⟨slot, payload, value, raw, later, hbuilt, hslot⟩ :=
        hregistered.construct_payload heap (UInt8.ofNat index) hmem (htables.fits hargument)
      refine ⟨_, value, later, hvariant, hbuilt.built, fun now moved hmoves => ?_⟩
      obtain ⟨rfl, hnow⟩ := htables.moved_eq hfitting (hvalue hbuilt.built) hmoves
      exact htables.readsBack_payload hfitting hsum hmem hvariant hargument hbuilt hslot hnow
    | [], _ :: _ => simp at hlength
    | [_], [] => simp at hlength
    | [_], _ :: _ :: _ => simp at hlength
    | _ :: _ :: _, _ => exact absurd (hregistered.arity _ hmem) (by simp)
  results := by
    intro heap ty payload hpayload
    obtain ⟨slot, later, hpack, -, -, hunpack⟩ := unpack_pack_result heap (htables.fits hpayload)
    exact ⟨slot, later, hpack, fun now target hnow htarget =>
      hunpack now target hnow (htables.valueReprType_ok hpayload.isWritten htarget).2⟩

/-! ### When something is lost -/

/-- A `$` that shares the one slot of its sum stays the zero of the other payload's type. -/
theorem Tables.unit_of_roundTrips (h : RoundTrips layout checker generator sums)
    (hsum : (name, variants) ∈ sums) (hagree : positionsAgree variants = true)
    (hmem : (variant, [.unit]) ∈ variants) {other : String} (hother : (other, [ty]) ∈ variants) :
    ty = .unit := by
  by_contra hne
  have hregistered := htables.declared _ hsum
  have hty : ty.isWritten = true :=
    hregistered.written _ hother ty (List.mem_singleton_self _)
  have hconcrete : isConcrete ty = true := by
    cases ty with
    | unit => exact absurd rfl hne
    | generic parameter => simp [Ty.isWritten] at hty
    | _ => rfl
  have hargument : ValueOf generator [] .unit (unitValue : Llvm.Value layout) := .unit
  obtain ⟨tag, value, later, hvariant, hconstructed, hmoved⟩ := h.values _ hsum _ hmem [] [unitValue]
    rfl (forall_singleton (P := ValueOf generator []) hargument)
  have haccess := (hmoved later value .here).payload unitValue rfl
  have hfits := htables.fits hargument
  obtain ⟨slot, payload, built, raw, after, hbuilt, -⟩ := hregistered.construct_payload [] tag hmem hfits
  have heq := hconstructed.symm.trans hbuilt.built
  simp only [Except.ok.injEq, Prod.mk.injEq] at heq
  obtain ⟨rfl, rfl⟩ := heq
  obtain ⟨target, hpayloadType, htarget⟩ :=
    hregistered.payloadType_ok htables.snapshot.result hmem (Or.inr rfl)
  rw [hbuilt.access hregistered.fresh hvariant hpayloadType] at haccess
  -- the slot is the other payload's, which is none of `$`
  have hslotNe : slot ≠ i8 := by
    have hslotEq := hbuilt.slotEq
    rw [layoutOf, if_pos hagree,
      perPosition_slot (generator.slotOf name) hregistered.arity hagree hother hconcrete] at hslotEq
    rw [← Option.some.inj hslotEq]
    rcases hregistered.slotOf_cases hty with hrepr | ⟨hptr, -⟩
    · rw [hrepr]
      exact fun heq => hne (eq_unit_of_reprOf heq)
    · rw [hptr]
      decide
  have hpayload : payload = Llvm.Value.zero slot := by
    cases hbuilt.coerced with
    | same => exact absurd rfl hslotNe
    | boxed hstruct => exact absurd hstruct Bool.false_ne_true
    | zeroed _ _ _ => rfl
  have hraw : raw = payload := hbuilt.raw_eq fun position _ => by
    rw [layoutOf, if_pos hagree]
    rfl
  rw [hraw, hpayload] at haccess
  exact unboxIfBoxed_zeroed hfits hslotNe htarget haccess

/-- A bit of a payload that the widest body does not hold is lost. -/
theorem Tables.kept_of_roundTrips (h : RoundTrips layout checker generator sums)
    (hsum : (name, variants) ∈ sums) (hmem : (variant, [ty]) ∈ variants) {sumLayout : SumLayout}
    (hlayout : generator.sumLayouts name = some sumLayout)
    (hslot : sumLayout.payloadSlot variant = some slot) {position : Nat}
    (hcarries : CarriesIn layout generator slot ty position) :
    sumLayout.keeps layout position = true := by
  by_contra hlost
  have hregistered := htables.declared _ hsum
  obtain rfl : layoutOf layout (generator.slotOf name) variants = sumLayout :=
    Option.some.inj (hregistered.sumLayout.symm.trans hlayout)
  -- a value whose payload has the bit
  obtain ⟨heap, argument, hargument, hsame, hother⟩ : ∃ (heap : Heap) (argument : Llvm.Value layout),
      ValueOf generator heap ty argument ∧
        (slot = generator.reprOf ty → argument.bits position ≠ .undefined) ∧
        (slot ≠ generator.reprOf ty → layout.holds slot position = true) := by
    rcases hcarries with ⟨hsame, hcarries⟩ | ⟨hother, hcarries, hheld⟩
    · obtain ⟨heap, argument, hargument, hdefined⟩ := htables.exists_valueOf hcarries
      exact ⟨heap, argument, hargument, fun _ => hdefined, fun hne => absurd hsame hne⟩
    · obtain ⟨heap, argument, hargument, -⟩ := htables.exists_valueOf hcarries
      exact ⟨heap, argument, hargument, fun heq => absurd heq hother, fun _ => hheld⟩
  have hfits := htables.fits hargument
  obtain ⟨tag, value, later, hvariant, hconstructed, hmoved⟩ := h.values _ hsum _ hmem heap [argument]
    rfl (forall_singleton (P := ValueOf generator heap) hargument)
  have haccess := (hmoved later value .here).payload argument rfl
  obtain ⟨slot', payload, built, raw, after, hbuilt, hslotOf⟩ :=
    hregistered.construct_payload heap tag hmem hfits
  have heq := hconstructed.symm.trans hbuilt.built
  simp only [Except.ok.injEq, Prod.mk.injEq] at heq
  obtain ⟨rfl, rfl⟩ := heq
  obtain rfl : slot' = slot := Option.some.inj (hbuilt.slotEq.symm.trans hslot)
  obtain ⟨target, hpayloadType, htarget⟩ :=
    hregistered.payloadType_ok htables.snapshot.result hmem (Or.inr rfl)
  rw [hbuilt.access hregistered.fresh hvariant hpayloadType] at haccess
  have hunit : ty = .unit → slot' = i8 := by
    rintro rfl
    rcases hslotOf with hslotOf | ⟨hagree, -⟩
    · rw [hslotOf, CodeGenerator.slotOf, if_neg (by simp [Ty.declaredName])]
      rfl
    · -- a `PerPosition` layout keeps every bit
      rw [layoutOf, if_pos hagree] at hlost
      exact absurd rfl hlost
  have hpayload := hbuilt.coerced.defined hfits hsame hother
  have hraw : raw.bits position = .undefined := by rw [hbuilt.rawBits, if_neg hlost]
  exact unboxIfBoxed_lost hbuilt.coerced hfits hunit hbuilt.rawType hraw hpayload htarget haccess

/-- Where values come back as they were built, every payload fits. -/
theorem Tables.fitting (h : RoundTrips layout checker generator sums) :
    Fitting layout generator sums where
  tags := by
    rintro ⟨name, variants⟩ hsum
    by_contra hlength
    have hlt : 256 < variants.length := by simpa using hlength
    -- the first variant and the one at 256 have one tag
    have hregistered := htables.declared _ hsum
    have htag : ∀ index (hindex : index < variants.length),
        (variants.map fun variant => (generator.sumVariants variant.1).map (·.1))[index]? =
          some (some (UInt8.ofNat index)) := by
      intro index hindex
      obtain ⟨⟨variant, fields⟩, hentry⟩ : ∃ entry, variants[index]? = some entry :=
        ⟨_, List.getElem?_eq_getElem hindex⟩
      rw [List.getElem?_map, hentry]
      simp only [Option.map_some, hregistered.tag hentry]
    have hsame : (some (some (UInt8.ofNat 0))) = some (some (UInt8.ofNat 256)) := rfl
    rw [← htag 0 (by omega), ← htag 256 hlt] at hsame
    exact List.nodup_iff_getElem?_ne_getElem?.mp (h.tags _ hsum) 0 256 (by decide)
      (by simpa using hlt) hsame
  unit := fun _ hsum hagree _ hmem _ _ hother => htables.unit_of_roundTrips h hsum hagree hmem hother
  widest := fun _ hsum _ _ hmem _ _ hlayout hslot _ hcarries =>
    htables.kept_of_roundTrips h hsum hmem hlayout hslot hcarries

end Tables

/-! ### The round trip -/

theorem hostBits_pos : 0 < 64 := by decide

/-- The 64-bit targets. -/
def hostLayout : DataLayout where
  pointerBits := 64
  pointerBits_pos := hostBits_pos
  alignment
    | .int width => if width = 64 then 8 else 1
    | .double | .ptr => 8
  alignment_pos scalar := by
    cases scalar with
    | int width => show 0 < if width = 64 then 8 else 1; split <;> decide
    | double => decide
    | ptr => decide

/-- `Color = Red / Green` -/
def color : TypeDeclaration :=
  ⟨"Color", .sum [("Red", []), ("Green", [])] [], false, ⟨0, 0, 0⟩⟩

/-- `Event = Tick(Num) / Shade(Color)` -/
def event : TypeDeclaration :=
  ⟨"Event", .sum [("Tick", [.num]), ("Shade", [.named "Color" [] []])] [], false, ⟨0, 0, 0⟩⟩

/-- The sums of an accepted program are registered without an error, and their values come back as they
were built exactly when every payload fits its layout. -/
theorem sums_roundTrip (layout : DataLayout) (declarations : List TypeDeclaration)
    (checker : TypeChecker) (hparsed : ∀ declaration ∈ declarations, declaration.parsed = true)
    (haccepted : TypeChecker.builtins.checkTypeDeclarations declarations = .ok checker) :
    ∃ generator, CodeGenerator.new.registerTypeDeclarations layout declarations = .ok generator ∧
      (RoundTrips layout checker generator (declaredSums declarations) ↔
        Fitting layout generator (declaredSums declarations)) := by
  obtain ⟨generator, hregistered, htables⟩ := registered_declarations layout hparsed haccepted
  exact ⟨generator, hregistered, fun h => htables.fitting h, fun h => htables.roundTrips h⟩

theorem color_roundTrips : ∃ checker generator,
    TypeChecker.builtins.checkTypeDeclarations [color] = .ok checker ∧
      CodeGenerator.new.registerTypeDeclarations hostLayout [color] = .ok generator ∧
      RoundTrips hostLayout checker generator (declaredSums [color]) := by
  have hparsed : ∀ declaration ∈ [color], declaration.parsed = true := by
    intro declaration hmem
    rw [List.mem_singleton.mp hmem]
    rfl
  obtain ⟨checker, hchecker⟩ :
      ∃ checker, TypeChecker.builtins.checkTypeDeclarations [color] = .ok checker := ⟨_, rfl⟩
  obtain ⟨generator, hgenerator, hiff⟩ := sums_roundTrip hostLayout [color] checker hparsed hchecker
  refine ⟨checker, generator, hchecker, hgenerator, hiff.mpr ?_⟩
  have hnullary : ∀ sum ∈ declaredSums [color], ∀ variant ∈ sum.2, variant.2 = [] := by
    intro sum hsum variant hmem
    obtain rfl := List.mem_singleton.mp hsum
    simp only [List.mem_cons, List.not_mem_nil, or_false] at hmem
    rcases hmem with rfl | rfl
    · rfl
    · rfl
  exact
    { tags := fun sum hsum => by rw [List.mem_singleton.mp hsum]; decide
      unit := fun sum hsum _ variant hmem => absurd (hnullary sum hsum _ hmem) (by simp)
      widest := fun sum hsum variant ty hmem => absurd (hnullary sum hsum _ hmem) (by simp) }

/-- The widest body of `Event` is that of `Shade`, whose padding is where the number of `Tick` is. -/
theorem event_does_not_roundTrip : ∃ checker generator,
    (∀ declaration ∈ [color, event], declaration.parsed = true) ∧
      TypeChecker.builtins.checkTypeDeclarations [color, event] = .ok checker ∧
      CodeGenerator.new.registerTypeDeclarations hostLayout [color, event] = .ok generator ∧
      ¬ RoundTrips hostLayout checker generator (declaredSums [color, event]) := by
  have hparsed : ∀ declaration ∈ [color, event], declaration.parsed = true := by
    intro declaration hmem
    simp only [List.mem_cons, List.not_mem_nil, or_false] at hmem
    rcases hmem with rfl | rfl
    · rfl
    · rfl
  obtain ⟨checker, hchecker⟩ :
      ∃ checker, TypeChecker.builtins.checkTypeDeclarations [color, event] = .ok checker := ⟨_, rfl⟩
  obtain ⟨generator, hgenerator, htables⟩ :=
    registered_declarations hostLayout hparsed hchecker
  refine ⟨checker, generator, hparsed, hchecker, hgenerator, fun h => ?_⟩
  have hevent : ("Event", [("Tick", [.num]), ("Shade", [.named "Color" [] []])]) ∈
      declaredSums [color, event] := List.mem_cons_of_mem _ (List.mem_singleton_self _)
  -- the tag of a `Color` is padded, as its slot is the `double` of a sum without payloads
  have hslot : generator.slotOf "Event" (.named "Color" [] []) = .struct [i8, double] := by
    rw [CodeGenerator.slotOf, if_neg (by decide)]
    exact htables.reprOf_named (List.mem_cons_self ..)
  have hdisagree : ¬ positionsAgree
      [("Tick", [.num]), ("Shade", [.named "Color" [] []])] = true := by
    simp [positionsAgree, arity, positionAgrees, isConcrete]
  have hbodies : variantBodies (generator.slotOf "Event")
      [("Tick", [.num]), ("Shade", [.named "Color" [] []])] =
        [("Tick", .struct [double]), ("Shade", .struct [.struct [i8, double]])] := by
    rw [← hslot]
    rfl
  have hlayout : generator.sumLayouts "Event" = some (.union
      [("Tick", .struct [double]), ("Shade", .struct [.struct [i8, double]])]
      (.struct [.struct [i8, double]])) := by
    rw [(htables.declared _ hevent).sumLayout, layoutOf, if_neg hdisagree, hbodies]
    rfl
  have hcarries : CarriesIn hostLayout generator double .num 8 := Or.inl ⟨rfl, .basic rfl rfl rfl⟩
  have hkept := htables.kept_of_roundTrips h hevent (List.mem_cons_self ..) hlayout rfl hcarries
  exact absurd hkept (by decide)

end Quilon.Sums
