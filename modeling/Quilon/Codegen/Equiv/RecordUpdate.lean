import Quilon.Codegen.Equiv.RecordParts

/-!
# Correctness of record literals

The type of a literal gives every field the type of its latest provider, or it is the named type of
the first named source, reproduced.  A reader of that type finds in every slot what the same
provider says (`record_agrees`): the value of an explicit field, or what the source of a spread
holds once all parts have been evaluated.
-/

namespace Quilon.RecordUpdate

open Llvm

variable {layout : DataLayout} {φ ρ : Type} {generator : Sums.CodeGenerator}
  {oracle : Expression → Option Ty}
  {evaluate : Expression → Memory ρ → Except φ (Llvm.Value layout × Memory ρ)}

/-! ### The new record -/

section NewRecord

variable {fields : List (String × Ty)} {reprs : List BasicType} {sources : List (Source layout)}
  {provider : List (String × Provider layout)} {heap : Heap} {name : String} {index : Nat}
  {value : Llvm.Value layout} {values : List (Llvm.Value layout)}

/-- Every field gets its value, at the representation of its slot. -/
theorem fieldValues_spec (hlength : reprs.length = fields.length)
    (h : ∀ (index : Nat) field type, fields[index]? = some field → reprs[index]? = some type →
      ∃ v : Llvm.Value layout, v.type = type ∧
        (fieldValue sources provider heap field.1 type : Except (Failure φ) _) = .ok v) :
    ∃ values : List (Llvm.Value layout),
      (fieldValues sources provider heap fields reprs : Except (Failure φ) _) = .ok values ∧
      (∀ (index : Nat) field type, fields[index]? = some field → reprs[index]? = some type →
        ∃ v, values[index]? = some v ∧
          (fieldValue sources provider heap field.1 type : Except (Failure φ) _) = .ok v) ∧
      ∀ (index : Nat) v, values[index]? = some v → reprs[index]? = some v.type := by
  induction fields generalizing reprs with
  | nil => exact ⟨[], by rw [fieldValues]; nofun, nofun, nofun⟩
  | cons field rest ih =>
    obtain ⟨type, reprs, rfl⟩ := List.exists_cons_of_length_eq_add_one hlength
    obtain ⟨v, htype, hv⟩ := h 0 field type rfl rfl
    obtain ⟨values, hvalues, hall, htypes⟩ :=
      ih (Nat.succ.inj hlength) fun index => h (index + 1)
    refine ⟨v :: values, ?_, fun index other otherType hfield hother => ?_,
      fun index other hother => ?_⟩
    · rw [fieldValues, hv]
      dsimp only [bind, Except.bind]
      rw [hvalues]
      rfl
    · cases index with
      | zero =>
        obtain rfl : field = other := Option.some.inj hfield
        obtain rfl : type = otherType := Option.some.inj hother
        exact ⟨v, rfl, hv⟩
      | succ index => exact hall index other otherType hfield hother
    · cases index with
      | zero =>
        obtain rfl : v = other := Option.some.inj hother
        rw [htype]
        rfl
      | succ index => exact htypes index other hother

theorem prefix_allocateRecord : heap <+: (allocateRecord heap reprs values).2 := by
  rw [allocateRecord, Heap.alloc]
  obtain ⟨cell, hcell⟩ := Heap.exists_storeFields_append heap reprs 0 (fun _ => .undefined) values
  dsimp only
  rw [hcell]
  exact List.prefix_append _ _

/-- A reader of the new record finds the values stored in it. -/
theorem readField_allocateRecord
    (hstruct : (recordStructType layout generator fields : Except (Failure φ) _) = .ok reprs)
    (hvalues : ∀ (index : Nat) (v : Llvm.Value layout), values[index]? = some v →
      reprs[index]? = some v.type)
    (hindex : fields.findIdx? (fun field => field.1 = name) = some index)
    (hvalue : values[index]? = some value) :
    (readField generator fields name (allocateRecord heap reprs values).1
      (allocateRecord heap reprs values).2 : Except (Failure φ) _) = .ok (some value) := by
  have hslot : reprs[index]? = some value.type := hvalues index value hvalue
  have hbound : index < reprs.length := (List.getElem?_eq_some_iff.mp hslot).1
  have hnew : heap.length < (heap.alloc).2.length := by
    rw [Heap.alloc, List.length_append, List.length_singleton]
    omega
  have hstored : (Heap.storeFields heap.alloc.2 heap.alloc.1 reprs 0 values).loadField
      heap.alloc.1 reprs (0 + index) value.type = some value := by
    refine Heap.loadField_storeFields (fun offset v hv => ?_) hnew hvalue
    rw [Nat.zero_add]
    exact hvalues offset v hv
  rw [Nat.zero_add] at hstored
  have hload : (loadField (allocateRecord heap reprs values).2
      (allocateRecord heap reprs values).1 reprs index value.type : Except (Failure φ) _) =
        .ok value := by
    rw [loadField, if_pos hbound, allocateRecord, Llvm.Value.address?_pointer]
    dsimp only
    rw [hstored]
  rw [readField_eq hstruct hindex hslot, hload]
  rfl

end NewRecord

/-! ### Updates -/

section Update

variable {sound : Memory ρ → Prop} {parts : List (String × Expression)} {types : List Ty} {ty : Ty}
  {record : Expression}
  {memory last : Memory ρ} {values : List (Llvm.Value layout × Memory ρ)} {name : String}
  {reprs : List BasicType}

theorem mem_canonicalRecordFieldOrder {fields : List (String × Ty)} {field : String × Ty} :
    field ∈ canonicalRecordFieldOrder fields ↔ field ∈ fields := by
  rw [canonicalRecordFieldOrder]
  split
  · exact (List.perm_insertionSort _ fields).mem_iff
  · exact (List.perm_insertionSort _ fields).mem_iff

/-- The fields of the result are the provided ones. -/
theorem mem_names_result
    (htypes : HasLatestTypes (provisions parts types) (firstNamed parts types) ty) :
    name ∈ ((recordFields ty).getD []).map (·.1) ↔
      ∃ index t, IsLatest (provisions parts types) name index t := by
  cases htypes with
  | named hidentity hreproduces => exact hreproduces.names name
  | @anonymous merged hidentity hlatest =>
    rw [recordFields, Option.getD_some, List.mem_map]
    constructor
    · rintro ⟨⟨_, t⟩, hmem, rfl⟩
      obtain ⟨index, hindex⟩ :=
        (hlatest.types _ t).mp (mem_canonicalRecordFieldOrder.mp hmem)
      exact ⟨index, t, hindex⟩
    · rintro ⟨index, t, hindex⟩
      exact ⟨(name, t), mem_canonicalRecordFieldOrder.mpr
        ((hlatest.types name t).mpr ⟨index, hindex⟩), rfl⟩

/-- The slot of a field has the representation of its latest provider's type. -/
theorem repr_result (hgenerates : Generates generator oracle evaluate sound parts types)
    (htypes : HasLatestTypes (provisions parts types) (firstNamed parts types) ty) {t : Ty}
    {type : BasicType} (hmem : (name, t) ∈ (recordFields ty).getD [])
    (hrepr : (valueReprType layout generator t : Except (Failure φ) _) = .ok type) :
    ∃ index latest, IsLatest (provisions parts types) name index latest ∧
      ∀ shape, valueShape generator latest = some shape → type = shape := by
  cases htypes with
  | @named typeName declared methods hidentity hreproduces =>
    have hname : name ∈ declared.map (·.1) := List.mem_map_of_mem (f := (·.1)) hmem
    obtain ⟨index, latest, hlatest⟩ := (hreproduces.names name).mp hname
    have hregistered := hgenerates.registered declared (mem_provisions_of_firstNamed hidentity) _
      hmem
    exact ⟨index, latest, hlatest, fun shape hshape =>
      eq_of_typesCompatible (hreproduces.types name t index latest hmem hlatest)
        (valueShape_of_valueReprType hregistered hrepr) hshape⟩
  | @anonymous merged hidentity hlatestTypes =>
    obtain ⟨index, hlatest⟩ :=
      (hlatestTypes.types name t).mp (mem_canonicalRecordFieldOrder.mp hmem)
    refine ⟨index, t, hlatest, fun shape hshape => ?_⟩
    have hregistered := registered_of_isLatest hgenerates hlatest
    exact Option.some.inj ((valueShape_of_valueReprType hregistered hrepr).symm.trans hshape)

/-- In every slot stands what the latest provider says of the field. -/
def StoresLatest (generator : Sums.CodeGenerator) (φ : Type) (parts : List (String × Expression))
    (types : List Ty) (values : List (Llvm.Value layout × Memory ρ)) (last : Heap)
    (fields : List (String × Ty)) (pointer : Llvm.Value layout) (heap : Heap) : Prop :=
  ∀ name index t part partType (value : Llvm.Value layout × Memory ρ),
    IsLatest (provisions parts types) name index t → parts[index]? = some part →
      types[index]? = some partType → values[index]? = some value →
        ∃ v, (readField generator fields name pointer heap : Except (Failure φ) _) = .ok (some v) ∧
          partValue generator φ part partType name value.1 last = .ok (some v)

theorem generateRecordUpdate_spec
    (hgenerates : Generates generator oracle evaluate sound parts types)
    (hsources : SourcesAreRecords parts types) (hlength : types.length = parts.length)
    (htypes : HasLatestTypes (provisions parts types) (firstNamed parts types) ty)
    (horacle : oracle record = some ty)
    (hstruct : (recordStructType layout generator ((recordFields ty).getD []) :
      Except (Failure φ) _) = .ok reprs)
    (hsound : sound memory) (hrun : evaluateAll evaluate memory parts = .ok (values, last)) :
    ∃ pointer heap, (generateRecordUpdate generator oracle evaluate record parts memory :
        Except (Failure φ) _) = .ok (pointer, ⟨heap, last.rest⟩) ∧ last.heap <+: heap ∧
      StoresLatest generator φ parts types values last.heap ((recordFields ty).getD []) pointer
        heap := by
  obtain ⟨sources, entered, hparts, hall⟩ := generateParts_spec [] [] hgenerates
    hsources hlength hsound hrun
  rw [List.nil_append] at hparts hall
  obtain ⟨fields, hfields⟩ : ∃ fields, recordFields ty = some fields := by
    cases htypes with
    | named => exact ⟨_, rfl⟩
    | anonymous => exact ⟨_, rfl⟩
  have hnames : ∀ name, name ∈ ((recordFields ty).getD []).map (·.1) ↔
      ∃ index t, IsLatest (provisions parts types) name index t :=
    fun name => mem_names_result htypes
  have hreprs : ∀ name t type, (name, t) ∈ (recordFields ty).getD [] →
      (valueReprType layout generator t : Except (Failure φ) _) = .ok type →
        ∃ index latest, IsLatest (provisions parts types) name index latest ∧
          ∀ shape, valueShape generator latest = some shape → type = shape :=
    fun name t type => repr_result hgenerates htypes
  rw [hfields, Option.getD_some] at hstruct hnames hreprs ⊢
  obtain ⟨hsame, hslots⟩ := recordStructType_spec hstruct
  have hvaluesLength := evaluateAll_length hrun
  have hplaces : ∀ index, index < (provisions parts types).length → ∃ part partType value,
      parts[index]? = some part ∧ types[index]? = some partType ∧ values[index]? = some value := by
    intro index hindex
    rw [provisions, List.length_zipWith] at hindex
    exact ⟨_, _, _, List.getElem?_eq_getElem (by omega), List.getElem?_eq_getElem (by omega),
      List.getElem?_eq_getElem (by omega)⟩
  -- every slot gets what its latest provider says
  have hvalue : ∀ (index : Nat) field type, fields[index]? = some field →
      reprs[index]? = some type → ∃ v : Llvm.Value layout, v.type = type ∧
        (fieldValue sources (overlays [] entered) last.heap field.1 type :
          Except (Failure φ) _) = .ok v := by
    rintro position ⟨name, t⟩ type hfield htype
    obtain ⟨slot, hslot, hrepr⟩ := hslots position _ hfield
    obtain rfl := Option.some.inj (hslot.symm.trans htype)
    obtain ⟨index, latest, hlatest, hshape⟩ := hreprs name t slot (List.mem_of_getElem? hfield)
      hrepr
    obtain ⟨part, partType, value, hpart, hpartType, hvalue⟩ := hplaces index hlatest.lt_length
    obtain ⟨v, hv, hfieldValue, -⟩ := fieldValue_spec hgenerates hsound hrun hall hlatest
      hpart hpartType hvalue hshape
    exact ⟨v, hv, hfieldValue⟩
  obtain ⟨stored, hstored, hfound, hstoredTypes⟩ := fieldValues_spec hsame hvalue
  refine ⟨(allocateRecord last.heap reprs stored).1, (allocateRecord last.heap reprs stored).2, ?_,
    prefix_allocateRecord, ?_⟩
  · rw [generateRecordUpdate, horacle]
    dsimp only [bind, Except.bind]
    rw [Option.bind_some, hfields]
    dsimp only
    rw [hparts]
    dsimp only
    rw [hstruct]
    dsimp only
    rw [hstored]
    rfl
  · intro name index t part partType value hlatest hpart hpartType hvalue
    have hmem : name ∈ fields.map (·.1) := (hnames name).mpr ⟨index, t, hlatest⟩
    obtain ⟨t', ht'⟩ := Option.isSome_iff_exists.mp (lookup_isSome_iff_mem_fst.mpr hmem)
    obtain ⟨position, hposition, hfield⟩ := findIdx?_of_lookup ht'
    obtain ⟨slot, hslot, hrepr⟩ := hslots position _ hfield
    obtain ⟨index', latest, hlatest', hshape⟩ := hreprs name t' slot
      (List.mem_of_getElem? hfield) hrepr
    obtain ⟨rfl, rfl⟩ := hlatest.unique hlatest'
    obtain ⟨v, -, hfieldValue, hpartValue⟩ :=
      fieldValue_spec hgenerates hsound hrun hall hlatest hpart
      hpartType hvalue hshape
    obtain ⟨v', hv', hsame'⟩ := hfound position _ slot hfield hslot
    obtain rfl := Except.ok.inj (hfieldValue.symm.trans hsame')
    exact ⟨v, readField_allocateRecord hstruct hstoredTypes hposition hv', hpartValue⟩

end Update

/-! ### Literals without a spread -/

section Plain

variable {sound : Memory ρ → Prop} {parts : List (String × Expression)} {types : List Ty} {ty : Ty}
  {record : Expression}
  {memory last : Memory ρ} {values : List (Llvm.Value layout × Memory ρ)} {name : String}
  {reprs : List BasicType}

/-- A filter that drops nothing keeps the places. -/
theorem filterMap_spec {α β : Type*} {R : α → β → Prop} {f : α → Option β} {list : List α}
    (h : ∀ a ∈ list, ∃ b, f a = some b ∧ R a b) :
    (list.filterMap f).length = list.length ∧ ∀ (index : Nat) a, list[index]? = some a →
      ∃ b, (list.filterMap f)[index]? = some b ∧ R a b := by
  induction list with
  | nil => exact ⟨rfl, nofun⟩
  | cons a rest ih =>
    obtain ⟨b, hb, hab⟩ := h a List.mem_cons_self
    obtain ⟨hlength, hrest⟩ := ih fun other hother => h other (List.mem_cons_of_mem _ hother)
    rw [List.filterMap_cons_some hb]
    refine ⟨by rw [List.length_cons, List.length_cons, hlength], fun index other hother => ?_⟩
    cases index with
    | zero =>
      obtain rfl : a = other := Option.some.inj hother
      exact ⟨b, rfl, hab⟩
    | succ index => exact hrest index other hother

theorem firstNamed_of_plain (types : List Ty)
    (hplain : ∀ part ∈ parts, isSpread part.2 = false) :
    firstNamed parts types = none := by
  induction parts generalizing types with
  | nil => rfl
  | cons part rest ih =>
    cases types with
    | nil => rfl
    | cons t types =>
      obtain ⟨name, expression⟩ := part
      rw [firstNamed_cons, namedSource_explicit (hplain _ List.mem_cons_self), Option.none_or]
      exact ih types fun other hother => hplain other (List.mem_cons_of_mem _ hother)

theorem literalNames_of_plain (hplain : ∀ part ∈ parts, isSpread part.2 = false) :
    literalNames parts = parts.map (·.1) := by
  rw [literalNames, List.filter_eq_self.mpr]
  intro part hpart
  rw [hplain part hpart]
  rfl

/-- The parts behind the fields of the result, each with its type. -/
theorem ordered_of_plain (hplain : ∀ part ∈ parts, isSpread part.2 = false)
    (hnames : (parts.map (·.1)).Nodup) {fields : List (String × Ty)}
    (hfields : ∀ name t, (name, t) ∈ fields →
      ∃ index, IsLatest (provisions parts types) name index t) :
    (fields.filterMap fun field => parts.find? fun part => part.1 = field.1).length =
        fields.length ∧
      ∀ (index : Nat) field, fields[index]? = some field → ∃ part,
        (fields.filterMap fun field => parts.find? fun part => part.1 = field.1)[index]? =
            some part ∧
          part.1 = field.1 ∧
            ∃ place : Nat, parts[place]? = some part ∧ types[place]? = some field.2 := by
  refine filterMap_spec fun field hfield => ?_
  obtain ⟨name, t⟩ := field
  obtain ⟨index, hlatest⟩ := hfields name t hfield
  have hindex := hlatest.lt_length
  rw [provisions, List.length_zipWith] at hindex
  have hpart : parts[index]? = some parts[index] := List.getElem?_eq_getElem (by omega)
  have htype : types[index]? = some types[index] := List.getElem?_eq_getElem (by omega)
  have hlookup := lookup_of_isLatest hlatest hpart htype
  have hmem : parts[index] ∈ parts := List.getElem_mem _
  generalize parts[index] = part at hpart hlookup hmem
  obtain ⟨other, expression⟩ := part
  rw [provided_explicit (hplain _ hmem), lookup_cons_ite] at hlookup
  by_cases hname : name = other
  · subst hname
    rw [if_pos rfl] at hlookup
    obtain ⟨found, hfound⟩ : ∃ found, parts.find? (fun part => part.1 = name) = some found := by
      rw [← Option.isSome_iff_exists, List.find?_isSome]
      exact ⟨_, hmem, by simp⟩
    have hsame : found = (name, expression) :=
      List.inj_on_of_nodup_map hnames (List.mem_of_find?_eq_some hfound) hmem
        (by simpa using List.find?_some hfound)
    subst hsame
    exact ⟨_, hfound, rfl, index, hpart, by rw [htype, hlookup]⟩
  · rw [if_neg hname] at hlookup
    cases hlookup

theorem generateValues_of_plain (hplain : ∀ part ∈ parts, isSpread part.2 = false)
    (hrun : evaluateAll evaluate memory parts = .ok (values, last)) :
    (generateValues evaluate memory parts : Except (Failure φ) _) =
      .ok (values.map (·.1), last) := by
  induction parts generalizing memory values with
  | nil =>
    obtain ⟨rfl, rfl⟩ := Prod.mk.inj (Except.ok.inj hrun)
    rfl
  | cons part rest ih =>
    obtain ⟨value, later, others, hvalue, hrest, rfl⟩ := evaluateAll_cons hrun
    obtain ⟨name, expression⟩ := part
    rw [operand_of_explicit (hplain _ List.mem_cons_self)] at hvalue
    have hpart : (generatePart evaluate expression memory : Except (Failure φ) _) =
        .ok (value, later) := generatePart_ok hvalue
    rw [generateValues, hpart]
    dsimp only [bind, Except.bind]
    rw [ih (fun other hother => hplain other (List.mem_cons_of_mem _ hother)) hrest]
    rfl

/-- In every slot stands the value of the part with its name. -/
theorem generateRecord_spec (hgenerates : Generates generator oracle evaluate sound parts types)
    (hplain : ∀ part ∈ parts, isSpread part.2 = false) (hdistinct : (literalNames parts).Nodup)
    (hlength : types.length = parts.length) (hparts : parts ≠ [])
    (htypes : HasLatestTypes (provisions parts types) (firstNamed parts types) ty)
    (horacle : oracle record = some ty)
    (hstruct : (recordStructType layout generator ((recordFields ty).getD []) :
      Except (Failure φ) _) = .ok reprs) (hsound : sound memory)
    (hrun : evaluateAll evaluate memory (recordLiteralFieldsInCanonicalOrder oracle record parts) =
      .ok (values, last)) :
    ∃ pointer heap, (generateRecord evaluate
        (recordLiteralFieldsInCanonicalOrder oracle record parts) memory :
          Except (Failure φ) _) = .ok (pointer, ⟨heap, last.rest⟩) ∧ last.heap <+: heap ∧
      ∀ part ∈ parts, ∃ (index : Nat) (value : Llvm.Value layout × Memory ρ),
        (recordLiteralFieldsInCanonicalOrder oracle record parts)[index]? = some part ∧
        values[index]? = some value ∧
          (readField generator ((recordFields ty).getD []) part.1 pointer heap :
            Except (Failure φ) _) = .ok (some value.1) := by
  rw [literalNames_of_plain hplain] at hdistinct
  have hcover : ∀ name, name ∈ ((recordFields ty).getD []).map (·.1) ↔
      ∃ index t, IsLatest (provisions parts types) name index t :=
    fun name => mem_names_result htypes
  have hnone := firstNamed_of_plain types hplain
  rw [hnone] at htypes
  cases htypes with
  | named hidentity hreproduces => cases hidentity
  | @anonymous merged hidentity hlatest =>
    have hfields : ∀ name t, (name, t) ∈ canonicalRecordFieldOrder merged →
        ∃ index, IsLatest (provisions parts types) name index t :=
      fun name t hmem => (hlatest.types name t).mp (mem_canonicalRecordFieldOrder.mp hmem)
    have horder : recordLiteralFieldsInCanonicalOrder oracle record parts =
        (canonicalRecordFieldOrder merged).filterMap fun field =>
          parts.find? fun part => part.1 = field.1 := by
      rw [recordLiteralFieldsInCanonicalOrder, horacle]
    obtain ⟨horderedLength, hordered⟩ := ordered_of_plain hplain hdistinct hfields
    rw [← horder] at horderedLength hordered
    rw [recordFields, Option.getD_some] at hstruct
    generalize recordLiteralFieldsInCanonicalOrder oracle record parts = ordered at *
    generalize hcanonical : canonicalRecordFieldOrder merged = fields at *
    obtain ⟨hreprsLength, hslots⟩ := recordStructType_spec hstruct
    have hvaluesLength := evaluateAll_length hrun
    have hmem : ∀ part ∈ ordered, part ∈ parts := by
      intro part hpart
      obtain ⟨index, hindex, rfl⟩ := List.mem_iff_getElem.mp hpart
      obtain ⟨part, hfound, -, place, hplace, -⟩ :=
        hordered index _ (List.getElem?_eq_getElem (by omega))
      rw [List.getElem?_eq_getElem hindex] at hfound
      rw [Option.some.inj hfound]
      exact List.mem_of_getElem? hplace
    have hexplicit : ∀ part ∈ ordered, isSpread part.2 = false :=
      fun part hpart => hplain part (hmem part hpart)
    -- the values have the representations of the slots
    have htypes : ∀ (index : Nat) (value : Llvm.Value layout),
        (values.map (·.1))[index]? = some value →
        reprs[index]? = some value.type := by
      intro index value hvalue
      rw [List.getElem?_map, Option.map_eq_some_iff] at hvalue
      obtain ⟨found, hfound, rfl⟩ := hvalue
      have hindex : index < values.length := (List.getElem?_eq_some_iff.mp hfound).1
      have hfield : fields[index]? = some fields[index] := List.getElem?_eq_getElem (by omega)
      obtain ⟨part, hpart, -, place, hplace, hplaceType⟩ := hordered index _ hfield
      obtain ⟨slot, hslot, hrepr⟩ := hslots index _ hfield
      obtain ⟨⟨before, -, hevaluated⟩, -⟩ :=
        evaluated_of_evaluateAll hgenerates.kept hsound hrun hpart hfound
      rw [operand_of_explicit (hexplicit part (List.mem_of_getElem? hpart))] at hevaluated
      have hemitted := hgenerates.emitted place part _ before found.2 found.1 hplace
        (hplain part (List.mem_of_getElem? hplace)) hplaceType hevaluated
      obtain ⟨_, hlatestIndex⟩ := hfields _ _ (List.mem_of_getElem? hfield)
      have hregistered := registered_of_isLatest hgenerates hlatestIndex
      have hshape := valueShape_of_valueReprType hregistered hrepr
      rw [hslot, Option.some.inj (hshape.symm.trans hemitted)]
    have hreprs : (values.map (·.1)).map (·.type) = reprs := by
      refine List.ext_getElem? fun index => ?_
      rw [List.getElem?_map]
      cases hvalue : (values.map (·.1))[index]? with
      | some value => rw [htypes index value hvalue, Option.map_some]
      | none =>
        have hout := List.getElem?_eq_none_iff.mp hvalue
        rw [List.length_map] at hout
        rw [Option.map_none, List.getElem?_eq_none (by omega)]
    have hfound : ∀ part ∈ parts, ∃ index : Nat,
        fields.findIdx? (fun field => field.1 = part.1) = some index ∧
          ordered[index]? = some part := by
      intro part hpart
      obtain ⟨place, hplace⟩ := List.mem_iff_getElem?.mp hpart
      have hplaceLength := (List.getElem?_eq_some_iff.mp hplace).1
      have htype : types[place]? = some types[place] := List.getElem?_eq_getElem (by omega)
      have hprovided : (provisions parts types)[place]? = some (provided part types[place]) := by
        rw [provisions, List.getElem?_zipWith, hplace, htype]
      have hkey : part.1 ∈ (provided part types[place]).map (·.1) := by
        rw [provided_explicit (hplain part hpart)]
        exact List.mem_singleton_self _
      have hname := (hcover part.1).mpr (exists_isLatest (List.mem_of_getElem? hprovided) hkey)
      obtain ⟨t, ht⟩ := Option.isSome_iff_exists.mp (lookup_isSome_iff_mem_fst.mpr hname)
      obtain ⟨index, hindex, hfield⟩ := findIdx?_of_lookup ht
      obtain ⟨found, hfound, hsame, -⟩ := hordered index _ hfield
      obtain rfl : found = part := List.inj_on_of_nodup_map hdistinct
        (hmem found (List.mem_of_getElem? hfound)) hpart hsame
      exact ⟨index, hindex, hfound⟩
    have hnonempty : ordered.isEmpty = false := by
      obtain ⟨part, rest, rfl⟩ := List.exists_cons_of_ne_nil hparts
      obtain ⟨index, -, hindex⟩ := hfound part List.mem_cons_self
      exact List.isEmpty_eq_false_iff.mpr fun hempty => by
        rw [hempty] at hindex
        cases hindex
    refine ⟨(allocateRecord last.heap reprs (values.map (·.1))).1,
      (allocateRecord last.heap reprs (values.map (·.1))).2, ?_, prefix_allocateRecord,
      fun part hpart => ?_⟩
    · rw [generateRecord, hnonempty, if_neg Bool.false_ne_true,
        generateValues_of_plain hexplicit hrun]
      dsimp only [bind, Except.bind]
      rw [hreprs]
      rfl
    · obtain ⟨index, hindex, hplace⟩ := hfound part hpart
      have hbound := (List.getElem?_eq_some_iff.mp hplace).1
      have hvalue : values[index]? = some values[index] := List.getElem?_eq_getElem (by omega)
      refine ⟨index, values[index], hplace, hvalue,
        readField_allocateRecord hstruct htypes hindex ?_⟩
      rw [List.getElem?_map, hvalue, Option.map_some]

end Plain

/-! ### Checker and generator -/

/-- The record this value points to has not been written to since. -/
def Unwritten (value : Llvm.Value layout × Memory ρ) (last : Heap) : Prop :=
  ∀ address, value.1.address? = some address → last[address]? = value.2.heap[address]?

theorem readField_of_unwritten {value : Llvm.Value layout × Memory ρ} {last : Heap}
    {fields : List (String × Ty)} {name : String} (h : Unwritten value last) :
    (readField generator fields name value.1 last : Except (Failure φ) _) =
      readField generator fields name value.1 value.2.heap := by
  have hload : ∀ types index type,
      (loadField last value.1 types index type : Except (Failure φ) (Llvm.Value layout)) =
        loadField value.2.heap value.1 types index type := by
    intro types index type
    rw [loadField, loadField]
    cases haddress : value.1.address? with
    | none => rfl
    | some address => simp only [Heap.loadField, h address haddress]
  rw [readField, readField]
  refine congrArg _ (funext fun slot => ?_)
  cases slot with
  | none => rfl
  | some slot =>
    obtain ⟨types, index, type⟩ := slot
    dsimp only
    rw [hload]

/-- Where no later part has written to its source, a part says what it said at its turn. -/
theorem partValue_of_unwritten {part : String × Expression} {ty : Ty} {name : String}
    {value : Llvm.Value layout × Memory ρ} {last : Heap} (h : Unwritten value last) :
    partValue generator φ part ty name value.1 last =
      partValue generator φ part ty name value.1 value.2.heap := by
  rw [partValue, partValue, readField_of_unwritten h]

/-- Checker and generator agree on a literal: the type of every field is that of its latest
provider, or compatible with it where the literal keeps a named type, and a reader of the result's
type finds the value of that provider, which for a source is the one it had at its turn unless a
later part has written to it. -/
theorem record_agrees {σ ε : Type} {sound : Memory ρ → Prop}
    {infer : Expression → σ → Except ε (Ty × σ)}
    {parts : List (String × Expression)} {types : List Ty} {ty : Ty} {state state' : σ}
    {record : Expression} {reprs : List BasicType}
    (hinfer : inferRecord infer parts state = .ok (ty, state'))
    (htypes : inferAll infer state parts = .ok (types, state'))
    (hgenerates : Generates generator oracle evaluate sound parts types)
    (horacle : oracle record = some ty)
    (hstruct : (recordStructType layout generator ((recordFields ty).getD []) :
      Except (Failure φ) _) = .ok reprs) :
    HasLatestTypes (provisions parts types) (firstNamed parts types) ty ∧
    (parts.any (isSpread ·.2) = true → ∀ memory values last, sound memory →
      evaluateAll evaluate memory parts = .ok (values, last) → ∃ pointer heap,
        (generateRecordExpression generator oracle evaluate record parts memory :
          Except (Failure φ) _) = .ok (pointer, ⟨heap, last.rest⟩) ∧ last.heap <+: heap ∧
        StoresLatest generator φ parts types values last.heap ((recordFields ty).getD []) pointer
          heap ∧
        ∀ part partType name (value : Llvm.Value layout × Memory ρ), value ∈ values →
          Unwritten value last.heap →
            partValue generator φ part partType name value.1 last.heap =
              partValue generator φ part partType name value.1 value.2.heap) ∧
    (parts.any (isSpread ·.2) = false → parts ≠ [] → ∀ memory values last, sound memory →
      evaluateAll evaluate memory (recordLiteralFieldsInCanonicalOrder oracle record parts) =
        .ok (values, last) → ∃ pointer heap,
        (generateRecordExpression generator oracle evaluate record parts memory :
          Except (Failure φ) _) = .ok (pointer, ⟨heap, last.rest⟩) ∧ last.heap <+: heap ∧
        ∀ part ∈ parts, ∃ (index : Nat) (value : Llvm.Value layout × Memory ρ),
          (recordLiteralFieldsInCanonicalOrder oracle record parts)[index]? = some part ∧
          values[index]? = some value ∧
            (readField generator ((recordFields ty).getD []) part.1 pointer heap :
              Except (Failure φ) _) = .ok (some value.1)) := by
  obtain ⟨types', htypes', rfl, hsources, hliterals⟩ := inferRecord_spec hinfer
  obtain rfl : types = types' := (Prod.mk.inj (Except.ok.inj (htypes.symm.trans htypes'))).1
  have hlength := length_of_inferAll htypes
  have hlatest := resultType_hasLatestTypes hgenerates.distinct
  refine ⟨hlatest, fun hspread memory values last hsound hrun => ?_,
    fun hplain hparts memory values last hsound hrun => ?_⟩
  · obtain ⟨pointer, heap, hgenerate, hprefix, hstores⟩ := generateRecordUpdate_spec hgenerates
      hsources hlength hlatest horacle hstruct hsound hrun
    refine ⟨pointer, heap, ?_, hprefix, hstores, fun part partType name value _ hunwritten =>
      partValue_of_unwritten hunwritten⟩
    rw [generateRecordExpression, if_pos hspread]
    exact hgenerate
  · have hexplicit : ∀ part ∈ parts, isSpread part.2 = false := by
      intro part hpart
      simpa using List.any_eq_false.mp hplain part hpart
    obtain ⟨pointer, heap, hgenerate, hprefix, hstores⟩ := generateRecord_spec hgenerates hexplicit
      hliterals hlength hparts hlatest horacle hstruct hsound hrun
    refine ⟨pointer, heap, ?_, hprefix, hstores⟩
    rw [generateRecordExpression, hplain, if_neg Bool.false_ne_true]
    exact hgenerate

/-! ### `{<-p, x = e}` -/

section Point

def words : DataLayout where
  pointerBits := 64
  pointerBits_pos := by decide
  alignment _ := 8
  alignment_pos _ := by decide

def here : Span := ⟨0, 0, 0⟩

def updateOf (source : Expression) : List (String × Expression) :=
  [("", .spread source here), ("x", .call (.identifier "e" here) [] false here)]

def pointType : Ty := .named "Point" [("x", .num), ("y", .num)] []

/-- The record in cell 0 where there is one, and a number; `effect` is what the call does. -/
def evaluatePoint (effect : Heap → Heap) :
    Expression → Memory Unit → Except String (Llvm.Value words × Memory Unit)
  | .identifier _ _, memory =>
    if 0 < memory.heap.length then .ok (Llvm.Value.pointer 0, memory) else .error "unbound"
  | .record _ _, memory => .ok (Llvm.Value.zero (.struct []), memory)
  | _, memory => .ok (Llvm.Value.zero Sums.double, { memory with heap := effect memory.heap })

/-- The type of what is spread, and a number. -/
def inferWith (source number : Ty) : Expression → Unit → Except String (Ty × Unit)
  | .spread _ _, state => .ok (source, state)
  | _, state => .ok (number, state)

def oracleOf (source result : Ty) : Expression → Option Ty
  | .identifier _ _ => some source
  | .record [] _ => some source
  | _ => some result

def point : Expression := .identifier "p" here

theorem struct_point : (recordStructType words Sums.CodeGenerator.new [("x", .num), ("y", .num)] :
    Except (Failure String) _) = .ok [Sums.double, Sums.double] := rfl

theorem generates_point {effect : Heap → Heap}
    (heffect : ∀ heap, (effect heap).length = heap.length) :
    Generates Sums.CodeGenerator.new (oracleOf pointType pointType) (evaluatePoint effect)
      (fun _ => True) (updateOf point) [pointType, .num] where
  distinct := by
    show ∀ table ∈ [[("x", Ty.num), ("y", .num)], [("x", .num)]], (table.map (·.1)).Nodup
    simp
  registered := by
    show ∀ table ∈ [[("x", Ty.num), ("y", .num)], [("x", .num)]], ∀ field ∈ table,
      Registered _ field.2
    intro table htable field hfield
    have hnum : field.2 = .num := by
      simp only [List.mem_cons, List.not_mem_nil, or_false] at htable
      rcases htable with rfl | rfl
      · rcases List.mem_pair.mp hfield with rfl | rfl
        · rfl
        · rfl
      · rw [List.mem_singleton.mp hfield]
    rw [hnum]
    trivial
  recorded := by
    intro index part ty hpart hspread htype
    match index with
    | 0 =>
      cases hpart
      exact htype
    | 1 =>
      cases hpart
      cases hspread
    | _ + 2 => cases hpart
  laidOut := by
    intro index part ty hpart hspread htype
    match index with
    | 0 =>
      cases htype
      exact ⟨_, struct_point⟩
    | 1 =>
      cases hpart
      cases hspread
    | _ + 2 => cases hpart
  emitted := by
    intro index part ty before after value hpart hspread htype hevaluate
    match index with
    | 0 =>
      cases hpart
      cases hspread
    | 1 =>
      cases hpart
      cases htype
      cases hevaluate
      rfl
    | _ + 2 => cases hpart
  pointers := by
    intro index part before after value hpart hspread _ hevaluate
    match index with
    | 0 =>
      cases hpart
      rw [show operand (.spread point here) = point from rfl, point, evaluatePoint] at hevaluate
      split at hevaluate
      · next hheap =>
        cases hevaluate
        exact ⟨0, hheap, rfl⟩
      · cases hevaluate
    | 1 =>
      cases hpart
      cases hspread
    | _ + 2 => cases hpart
  kept := by
    intro expression before after value _ hevaluate
    refine ⟨trivial, ?_⟩
    rw [evaluatePoint.eq_def] at hevaluate
    split at hevaluate
    · split at hevaluate
      · cases hevaluate
        exact Nat.le_refl _
      · cases hevaluate
    · cases hevaluate
      exact Nat.le_refl _
    · cases hevaluate
      exact (heffect before.heap).ge

theorem infer_point :
    inferRecord (inferWith pointType .num) (updateOf point) () = .ok (pointType, ()) := by
  have hinfer : inferRecord (inferWith pointType .num) (updateOf point) () =
      .ok (resultType [("x", .num), ("y", .num)] (some pointType), ()) := rfl
  rw [hinfer]
  simp [resultType, pointType, reproducesNamed, typesCompatible, Ty.same, lookup_cons_ite]

def memoryOf (cell : Nat → Bit) : Memory Unit := ⟨[cell], ()⟩

def updated : Expression := .record (updateOf point) here

theorem types_point : inferAll (inferWith pointType .num) () (updateOf point) =
    .ok ([pointType, .num], ()) := rfl

theorem oracle_point : oracleOf pointType pointType updated = some pointType := rfl

/-- The explicit field is read back. -/
theorem record_agrees_point : ∃ pointer heap,
    (generateRecordExpression Sums.CodeGenerator.new (oracleOf pointType pointType)
      (evaluatePoint id) updated (updateOf point) (memoryOf fun _ => .bit false) :
        Except (Failure String) _) = .ok (pointer, ⟨heap, ()⟩) ∧
    (readField Sums.CodeGenerator.new [("x", .num), ("y", .num)] "x" pointer heap :
      Except (Failure String) _) = .ok (some (Llvm.Value.zero Sums.double)) := by
  obtain ⟨-, hupdate, -⟩ := record_agrees infer_point types_point (generates_point fun _ => rfl)
    oracle_point struct_point
  obtain ⟨pointer, heap, hgenerate, -, hstores, -⟩ :=
    hupdate rfl (memoryOf fun _ => .bit false) _ _ trivial rfl
  have hlatest : IsLatest (provisions (updateOf point) [pointType, .num]) "x" 1 .num := by
    refine ⟨⟨[("x", .num)], rfl, rfl⟩, fun later part hlater hpart => ?_⟩
    obtain ⟨rest, rfl⟩ : ∃ rest, later = rest + 2 := ⟨later - 2, by omega⟩
    cases hpart
  obtain ⟨v, hread, hvalue⟩ := hstores "x" 1 .num _ _ _ hlatest rfl rfl rfl
  have hzero : some v = some (Llvm.Value.zero Sums.double) := (Except.ok.inj hvalue).symm
  exact ⟨pointer, heap, hgenerate, hread.trans (congrArg Except.ok hzero)⟩

/-- The one number with all bits set. -/
def ones : Llvm.Value words := Value.ofBits .double fun _ => true

/-- `y` of the record in cell 0 is assigned. -/
def assignY (heap : Heap) : Heap :=
  heap.storeField 0 [Sums.double, Sums.double] 1 ones

theorem readField_y {heap : Heap} {value : Llvm.Value words}
    (h : heap.loadField 0 [Sums.double, Sums.double] 1 Sums.double = some value) :
    (readField Sums.CodeGenerator.new [("x", .num), ("y", .num)] "y" (Llvm.Value.pointer 0) heap :
      Except (Failure String) _) = .ok (some value) := by
  rw [readField_eq struct_point rfl rfl, loadField, Llvm.Value.address?_pointer]
  dsimp only
  rw [h]
  rfl

theorem ones_ne_zero : ones ≠ Llvm.Value.zero Sums.double := by
  intro h
  have hbit := congrFun (congrArg Llvm.Value.bits h) 0
  rw [ones, Value.ofBits, Llvm.Value.zero, Llvm.Value.load_bits, Llvm.Value.load_bits] at hbit
  exact absurd hbit (by decide)

theorem checked_point : HasLatestTypes (provisions (updateOf point) [pointType, .num])
    (firstNamed (updateOf point) [pointType, .num]) pointType ∧
      SourcesAreRecords (updateOf point) [pointType, .num] := by
  obtain ⟨types, htypes, htype, hsources, -⟩ := inferRecord_spec infer_point
  obtain rfl : [pointType, .num] = types :=
    (Prod.mk.inj (Except.ok.inj (types_point.symm.trans htypes))).1
  have hlatest := resultType_hasLatestTypes (generates_point fun _ => rfl).distinct
  rw [← htype] at hlatest
  exact ⟨hlatest, hsources⟩

/-- `<-p` reads `p` after the call that follows it: with the call assigning `p.y`, the new record
has the new `y`. -/
theorem reads_late : ∃ pointer heap,
    (generateRecordExpression Sums.CodeGenerator.new (oracleOf pointType pointType)
      (evaluatePoint assignY) updated (updateOf point) (memoryOf fun _ => .bit false) :
        Except (Failure String) _) = .ok (pointer, ⟨heap, ()⟩) ∧
    (readField Sums.CodeGenerator.new [("x", .num), ("y", .num)] "y" pointer heap :
      Except (Failure String) _) = .ok (some ones) ∧
    (readField Sums.CodeGenerator.new [("x", .num), ("y", .num)] "y" (Llvm.Value.pointer 0)
      (memoryOf fun _ => .bit false).heap : Except (Failure String) _) =
        .ok (some (Llvm.Value.zero Sums.double : Llvm.Value words)) := by
  have hlength : ∀ heap, (assignY heap).length = heap.length := fun heap => Heap.length_storeField
  obtain ⟨hlatestTypes, hsources⟩ := checked_point
  obtain ⟨pointer, heap, hgenerate, -, hstores⟩ := generateRecordUpdate_spec
    (generates_point hlength) hsources rfl hlatestTypes oracle_point struct_point trivial
    (show evaluateAll (evaluatePoint assignY) (memoryOf fun _ => .bit false) (updateOf point) =
      .ok _ from rfl)
  have hlatest : IsLatest (provisions (updateOf point) [pointType, .num]) "y" 0 .num := by
    refine ⟨⟨[("x", .num), ("y", .num)], rfl, rfl⟩, fun later part hlater hpart => ?_⟩
    match later with
    | 1 =>
      cases hpart
      rfl
    | _ + 2 => cases hpart
  obtain ⟨v, hread, hvalue⟩ := hstores "y" 0 .num _ _ _ hlatest rfl rfl rfl
  have hassigned : (readField Sums.CodeGenerator.new [("x", .num), ("y", .num)] "y"
      (Llvm.Value.pointer 0) (assignY (memoryOf fun _ => .bit false).heap) :
        Except (Failure String) _) = .ok (some ones) :=
    readField_y (Heap.loadField_storeField_self (by decide))
  have hsame : some v = some ones := Except.ok.inj (hvalue.symm.trans hassigned)
  exact ⟨pointer, heap, hgenerate, hread.trans (congrArg Except.ok hsame), readField_y rfl⟩

/-! #### Where a literal does something else -/

def resultOf (ok : Ty) : Ty := .sum "Result" [("Ok", [ok]), ("NotOk", [.generic "E"])]

/-- `{ x :: Result }` -/
def replyType : Ty := .named "Reply" [("x", resultOf (.generic "T"))] []

/-- A named type is kept with its declared field although the latest provider's type is another;
a source is read after a later part has assigned its field; and the empty literal, which is no
pointer, cannot be spread. -/
theorem not_all_agree :
    (inferRecord (inferWith replyType (resultOf .num)) (updateOf point) () = .ok (replyType, ()) ∧
      ¬ LatestTypes (provisions (updateOf point) [replyType, resultOf .num])
        [("x", resultOf (.generic "T"))]) ∧
    (∃ pointer heap, (generateRecordExpression Sums.CodeGenerator.new
        (oracleOf pointType pointType) (evaluatePoint assignY) updated (updateOf point)
          (memoryOf fun _ => .bit false) : Except (Failure String) _) =
            .ok (pointer, ⟨heap, ()⟩) ∧
      (readField Sums.CodeGenerator.new [("x", .num), ("y", .num)] "y" pointer heap :
        Except (Failure String) _) ≠
          readField Sums.CodeGenerator.new [("x", .num), ("y", .num)] "y" (Llvm.Value.pointer 0)
            (memoryOf fun _ => .bit false).heap) ∧
    (inferRecord (inferWith (.record []) .num) (updateOf (.record [] here)) () =
        .ok (.record [("x", .num)], ()) ∧
      generateRecordExpression Sums.CodeGenerator.new
          (oracleOf (.record []) (.record [("x", .num)]))
        (evaluatePoint id) (.record (updateOf (.record [] here)) here) (updateOf (.record [] here))
          (memoryOf fun _ => .bit false) = .error .notAPointer) := by
  refine ⟨⟨rfl, fun hlatest => ?_⟩, ?_, rfl, rfl⟩
  · obtain ⟨index, hindex⟩ := (hlatest.types "x" (resultOf (.generic "T"))).mp List.mem_cons_self
    have hother : IsLatest (provisions (updateOf point) [replyType, resultOf .num]) "x" 1
        (resultOf .num) := by
      refine ⟨⟨[("x", resultOf .num)], rfl, rfl⟩, fun later part hlater hpart => ?_⟩
      obtain ⟨rest, rfl⟩ : ∃ rest, later = rest + 2 := ⟨later - 2, by omega⟩
      cases hpart
    have hsame := (hindex.unique hother).2
    rw [resultOf, resultOf] at hsame
    simp at hsame
  · obtain ⟨pointer, heap, hgenerate, hnew, hold⟩ := reads_late
    refine ⟨pointer, heap, hgenerate, ?_⟩
    rw [hnew, hold]
    intro hsame
    exact ones_ne_zero (Option.some.inj (Except.ok.inj hsame))

end Point

end Quilon.RecordUpdate
