import Quilon.Codegen.RecordUpdate
import Quilon.Typechecker.Equiv.RecordUpdate

/-!
# The parts of a record literal

The parts are evaluated one after the other, and the table of the latest providers has the keys of
the checker's merged fields (`generateParts_spec`), so both speak of the same part for a name.
Compatible types have one representation (`eq_of_typesCompatible`), so what a part says about a
field fits the slot of the result (`fieldValue_spec`).
-/

namespace Quilon.RecordUpdate

open Llvm

variable {layout : DataLayout} {φ ρ : Type} {generator : Sums.CodeGenerator}
  {oracle : Expression → Option Ty}
  {evaluate : Expression → Memory ρ → Except φ (Llvm.Value layout × Memory ρ)}

/-! ### Representations -/

/-- What a value of a type is made of, whatever the types inside; a type variable has no values. -/
def valueShape (generator : Sums.CodeGenerator) : Ty → Option BasicType
  | .num => some Sums.double
  | .bool => some Sums.i1
  | .unit => some Sums.i8
  | .text | .array _ => some Sums.ptrLenStructType
  | .map _ _ | .set _ | .record _ => some Sums.ptr
  | .sum name _ => some (generator.sumStructType name)
  | .named name [] _ =>
    if (generator.sumLayouts name).isSome then some (generator.sumStructType name)
    else some Sums.ptr
  | .named _ (_ :: _) _ => some Sums.ptr
  | .function _ _ => some Sums.closureStructType
  | .generic _ => none

/-- A sum has been entered with its declaration. -/
def Registered (generator : Sums.CodeGenerator) : Ty → Prop
  | .sum name _ => (generator.sumLayouts name).isSome
  | _ => True

theorem valueShape_of_valueReprType {ty : Ty} {type : BasicType}
    (hregistered : Registered generator ty)
    (h : (valueReprType layout generator ty : Except (Failure φ) BasicType) = .ok type) :
    valueShape generator ty = some type := by
  have hrepr : generator.valueReprType layout ty = .ok type := by
    rw [valueReprType] at h
    split at h
    case h_1 lowered hlowered =>
      obtain rfl := Except.ok.inj h
      exact hlowered
    case h_2 => cases h
  rw [Sums.CodeGenerator.valueReprType] at hrepr
  cases ty with
  | num | bool | unit | text | array _ | record _ => exact congrArg some (Except.ok.inj hrepr)
  | map key value =>
    rw [Sums.CodeGenerator.valueRepr, Sums.CodeGenerator.typeToLlvm] at hrepr
    · obtain ⟨_, _, hrepr⟩ := bind_ok hrepr
      obtain ⟨_, _, hrepr⟩ := bind_ok hrepr
      exact congrArg some (Except.ok.inj hrepr)
    all_goals (intros; contradiction)
  | set element =>
    rw [Sums.CodeGenerator.valueRepr, Sums.CodeGenerator.typeToLlvm] at hrepr
    · obtain ⟨_, _, hrepr⟩ := bind_ok hrepr
      exact congrArg some (Except.ok.inj hrepr)
    all_goals (intros; contradiction)
  | named name fields methods =>
    cases fields with
    | nil =>
      rw [Sums.CodeGenerator.valueRepr, Sums.CodeGenerator.typeToLlvm] at hrepr
      · rw [valueShape]
        split at hrepr
        case isTrue hsum =>
          rw [if_pos hsum]
          exact congrArg some (Except.ok.inj hrepr)
        case isFalse hsum =>
          rw [if_neg hsum]
          exact congrArg some (Except.ok.inj hrepr)
      all_goals (intros; contradiction)
    | cons field rest => exact congrArg some (Except.ok.inj hrepr)
  | generic name => cases hrepr
  | function parameters returnType =>
    rw [Sums.CodeGenerator.valueRepr, Sums.CodeGenerator.typeToLlvm] at hrepr
    · obtain ⟨_, _, hrepr⟩ := bind_ok hrepr
      obtain ⟨_, _, hrepr⟩ := bind_ok hrepr
      exact congrArg some (Except.ok.inj hrepr)
    all_goals (intros; contradiction)
  | sum name variants =>
    rw [Sums.CodeGenerator.valueRepr, Sums.CodeGenerator.typeToLlvm,
      Sums.CodeGenerator.sumValueStructType] at hrepr
    · have hlaidOut : (generator.sumLayouts name).isSome = true := hregistered
      rw [hlaidOut, Bool.true_or, if_pos rfl] at hrepr
      exact congrArg some (Except.ok.inj hrepr)
    all_goals (intros; contradiction)

/-- Compatible types have one representation. -/
theorem eq_of_typesCompatible {a b : Ty} {s t : BasicType} (h : typesCompatible a b = true)
    (hs : valueShape generator a = some s) (ht : valueShape generator b = some t) : s = t := by
  have hshape : valueShape generator a = valueShape generator b := by
    revert h
    fun_cases typesCompatible a b with
    | case1 => cases hs
    | case2 => cases ht
    | case3 n₁ v₁ n₂ v₂ =>
      intro h
      rw [Bool.and_eq_true, decide_eq_true_eq] at h
      obtain rfl := h.1
      rfl
    | case4 | case5 | case6 => exact fun _ => rfl
    | case7 => exact fun h => congrArg _ (Ty.eq_of_same h)
  rw [hshape, ht] at hs
  exact (Option.some.inj hs).symm

/-! ### Evaluating the parts -/

/-- What a part evaluates. -/
def operand : Expression → Expression
  | .spread source _ => source
  | expression => expression

/-- The parts evaluated one after the other: each value with the memory right after it. -/
def evaluateAll (evaluate : Expression → Memory ρ → Except φ (Llvm.Value layout × Memory ρ))
    (memory : Memory ρ) : List (String × Expression) →
      Except φ (List (Llvm.Value layout × Memory ρ) × Memory ρ)
  | [] => .ok ([], memory)
  | (_, expression) :: rest => do
    let (value, memory) ← evaluate (operand expression) memory
    let (values, last) ← evaluateAll evaluate memory rest
    return ((value, memory) :: values, last)

/-- What the generator relies on, where the parts have been checked at these types.  The oracle
knows the spread sources; a value is emitted at the representation of its type, and in a `sound`
memory a source of a spread is a record.  Memory is not given back while a literal is being
built. -/
structure Generates (generator : Sums.CodeGenerator) (oracle : Expression → Option Ty)
    (evaluate : Expression → Memory ρ → Except φ (Llvm.Value layout × Memory ρ))
    (sound : Memory ρ → Prop) (parts : List (String × Expression)) (types : List Ty) : Prop where
  distinct : ∀ part ∈ provisions parts types, (part.map (·.1)).Nodup
  registered : ∀ part ∈ provisions parts types, ∀ field ∈ part, Registered generator field.2
  recorded : ∀ (index : Nat) (part : String × Expression) (ty : Ty), parts[index]? = some part →
    isSpread part.2 = true → types[index]? = some ty → oracle (operand part.2) = some ty
  laidOut : ∀ (index : Nat) (part : String × Expression) (ty : Ty), parts[index]? = some part →
    isSpread part.2 = true → types[index]? = some ty → ∃ structType,
      (recordStructType layout generator ((recordFields ty).getD []) :
        Except (Failure φ) (List BasicType)) = .ok structType
  emitted : ∀ (index : Nat) (part : String × Expression) (ty : Ty) (before after : Memory ρ)
    (value : Llvm.Value layout), parts[index]? = some part → isSpread part.2 = false →
      types[index]? = some ty → evaluate part.2 before = .ok (value, after) →
        valueShape generator ty = some value.type
  pointers : ∀ (index : Nat) (part : String × Expression) (before after : Memory ρ)
    (value : Llvm.Value layout), parts[index]? = some part → isSpread part.2 = true → sound before →
      evaluate (operand part.2) before = .ok (value, after) →
        ∃ address < after.heap.length, value = Llvm.Value.pointer address
  kept : ∀ (expression : Expression) (before after : Memory ρ) (value : Llvm.Value layout),
    sound before → evaluate expression before = .ok (value, after) →
      sound after ∧ before.heap.length ≤ after.heap.length

section Parts

variable {sound : Memory ρ → Prop} {parts : List (String × Expression)} {types : List Ty}
  {part : String × Expression}
  {ty : Ty} {memory last : Memory ρ} {values : List (Llvm.Value layout × Memory ρ)}
  {sources : List (Source layout)} {provider : List (String × Provider layout)}

theorem Generates.tail
    (h : Generates generator oracle evaluate sound (part :: parts) (ty :: types)) :
    Generates generator oracle evaluate sound parts types where
  distinct other hother := h.distinct other (List.mem_cons_of_mem _ hother)
  registered other hother := h.registered other (List.mem_cons_of_mem _ hother)
  recorded index := h.recorded (index + 1)
  laidOut index := h.laidOut (index + 1)
  emitted index := h.emitted (index + 1)
  pointers index := h.pointers (index + 1)
  kept := h.kept

/-- What a part with this value enters into the table of providers. -/
inductive Enters (generator : Sums.CodeGenerator) (φ : Type) (sources : List (Source layout))
    (value : Llvm.Value layout) :
    String × Expression → Ty → List (String × Provider layout) → Prop where
  | spread {name source span ty index} {found : Source layout}
      (hsource : sources[index]? = some found) (hptr : found.ptr = value)
      (hfields : recordFields ty = some found.layout)
      (hstruct : (recordStructType layout generator found.layout :
        Except (Failure φ) (List BasicType)) = .ok found.structType) :
      Enters generator φ sources value (name, .spread source span) ty
        (found.layout.map fun field => (field.1, .spread index))
  | explicit {name expression ty} (hexplicit : isSpread expression = false) :
      Enters generator φ sources value (name, expression) ty [(name, .override value)]

/-- A part enters the names it provides. -/
theorem Enters.names {value : Llvm.Value layout} {entered : List (String × Provider layout)}
    (h : Enters generator φ sources value part ty entered) :
    entered.map (·.1) = (provided part ty).map (·.1) := by
  cases h with
  | spread hsource hptr hfields hstruct =>
    rw [provided_spread, hfields, List.map_map]
    rfl
  | explicit hexplicit =>
    rw [provided_explicit hexplicit]
    rfl

/-- Every part has entered what it provides. -/
def AllEnter (generator : Sums.CodeGenerator) (φ : Type) (sources : List (Source layout))
    (values : List (Llvm.Value layout × Memory ρ)) (parts : List (String × Expression))
    (types : List Ty) (entered : List (List (String × Provider layout))) : Prop :=
  entered.map (·.map (·.1)) = (provisions parts types).map (·.map (·.1)) ∧
    ∀ (index : Nat) part ty (value : Llvm.Value layout × Memory ρ) found,
      parts[index]? = some part →
      types[index]? = some ty → values[index]? = some value → entered[index]? = some found →
        Enters generator φ sources value.1 part ty found

theorem allEnter_cons {value : Llvm.Value layout × Memory ρ}
    {found : List (String × Provider layout)}
    {entered : List (List (String × Provider layout))}
    (hhead : Enters generator φ sources value.1 part ty found)
    (hrest : AllEnter generator φ sources values parts types entered) :
    AllEnter generator φ sources (value :: values) (part :: parts) (ty :: types)
      (found :: entered) := by
  refine ⟨?_, fun index other otherType v entry hpart htype hvalue hentered => ?_⟩
  · rw [provisions, List.zipWith_cons_cons, List.map_cons, List.map_cons, hhead.names, hrest.1]
    rfl
  · cases index with
    | zero =>
      obtain rfl : part = other := Option.some.inj hpart
      obtain rfl : ty = otherType := Option.some.inj htype
      obtain rfl : value = v := Option.some.inj hvalue
      obtain rfl : found = entry := Option.some.inj hentered
      exact hhead
    | succ index => exact hrest.2 index other otherType v entry hpart htype hvalue hentered

theorem evaluateAll_cons (h : evaluateAll evaluate memory (part :: parts) = .ok (values, last)) :
    ∃ value later rest, evaluate (operand part.2) memory = .ok (value, later) ∧
      evaluateAll evaluate later parts = .ok (rest, last) ∧ values = (value, later) :: rest := by
  rw [evaluateAll] at h
  obtain ⟨⟨value, later⟩, hvalue, h⟩ := bind_ok h
  obtain ⟨⟨rest, last'⟩, hrest, h⟩ := bind_ok h
  obtain ⟨rfl, rfl⟩ := Prod.mk.inj (Except.ok.inj h)
  exact ⟨value, later, rest, hvalue, hrest, rfl⟩

theorem operand_of_explicit {expression : Expression} (h : isSpread expression = false) :
    operand expression = expression := by
  cases expression with
  | spread source span => cases h
  | _ => rfl

theorem generatePart_ok {expression : Expression} {result : Llvm.Value layout × Memory ρ}
    (h : evaluate expression memory = .ok result) :
    (generatePart evaluate expression memory : Except (Failure φ) _) = .ok result := by
  rw [generatePart, h]

/-- The sources in their order, and the latest providers. -/
theorem generateParts_spec (sources : List (Source layout))
    (provider : List (String × Provider layout))
    (hgenerates : Generates generator oracle evaluate sound parts types)
    (hsources : SourcesAreRecords parts types) (hlength : types.length = parts.length)
    (hsound : sound memory) (hrun : evaluateAll evaluate memory parts = .ok (values, last)) :
    ∃ more entered,
      generateParts generator oracle evaluate sources provider memory parts =
        .ok (sources ++ more, overlays provider entered, last) ∧
      AllEnter generator φ (sources ++ more) values parts types entered := by
  induction parts generalizing sources provider types memory values with
  | nil =>
    obtain ⟨rfl, rfl⟩ := Prod.mk.inj (Except.ok.inj hrun)
    refine ⟨[], [], ?_, rfl, nofun⟩
    rw [List.append_nil]
    rfl
  | cons part rest ih =>
    obtain ⟨ty, types, rfl⟩ := List.exists_cons_of_length_eq_add_one hlength
    obtain ⟨value, later, others, hvalue, hrest, rfl⟩ := evaluateAll_cons hrun
    obtain ⟨name, expression⟩ := part
    have htail : SourcesAreRecords rest types := fun index => hsources (index + 1)
    have hrestLength : types.length = rest.length := Nat.succ.inj hlength
    have hlater := (hgenerates.kept _ _ _ _ hsound hvalue).1
    cases hspread : isSpread expression with
    | true =>
      obtain ⟨source, span, rfl⟩ := eq_spread_of_isSpread hspread
      have hrecorded := hgenerates.recorded 0 _ ty rfl hspread rfl
      obtain ⟨structType, hstruct⟩ := hgenerates.laidOut 0 _ ty rfl hspread rfl
      obtain ⟨address, _, rfl⟩ :=
        hgenerates.pointers 0 _ memory later value rfl hspread hsound hvalue
      obtain ⟨fields, hfields⟩ := Option.isSome_iff_exists.mp (hsources 0 _ ty rfl hspread rfl)
      rw [hfields, Option.getD_some] at hstruct
      let found : Source layout := ⟨Llvm.Value.pointer address, fields, structType⟩
      obtain ⟨more, entered, hgenerate, hall⟩ := ih (sources ++ [found])
        (overlay provider (fields.map fun field => (field.1, .spread sources.length)))
        hgenerates.tail htail hrestLength hlater hrest
      rw [List.append_assoc] at hgenerate hall
      have hsource : (sources ++ ([found] ++ more))[sources.length]? = some found := by
        rw [List.getElem?_append_right (Nat.le_refl _), Nat.sub_self]
        rfl
      have hhead : Enters generator φ (sources ++ ([found] ++ more)) (Llvm.Value.pointer address)
          (name, .spread source span) ty
          (found.layout.map fun field => (field.1, .spread sources.length)) :=
        .spread hsource rfl hfields hstruct
      refine ⟨[found] ++ more, _ :: entered, ?_, allEnter_cons hhead hall⟩
      have horacle : (oracle source).bind recordFields = some fields := by
        rw [show oracle source = some ty from hrecorded]
        exact hfields
      have hpart : (generatePart evaluate source memory : Except (Failure φ) _) =
          .ok (Llvm.Value.pointer address, later) := generatePart_ok hvalue
      have hptr : (Llvm.Value.pointer address : Llvm.Value layout).type = Sums.ptr := rfl
      rw [generateParts, horacle]
      dsimp only
      rw [hstruct, hpart]
      dsimp only [bind, Except.bind]
      rw [if_pos hptr]
      exact hgenerate
    | false =>
      have hexplicit : ∀ source span, expression = .spread source span → False := by
        rintro source span rfl
        cases hspread
      obtain ⟨more, entered, hgenerate, hall⟩ := ih sources
        (overwrite provider name (.override value)) hgenerates.tail htail hrestLength hlater hrest
      refine ⟨more, [(name, .override value)] :: entered, ?_,
        allEnter_cons (.explicit hspread) hall⟩
      have hpart : (generatePart evaluate expression memory : Except (Failure φ) _) =
          .ok (value, later) := by
        rw [operand_of_explicit hspread] at hvalue
        exact generatePart_ok hvalue
      rw [generateParts.eq_3 _ _ _ _ _ _ _ _ _ hexplicit, hpart]
      exact hgenerate

theorem evaluateAll_length (hrun : evaluateAll evaluate memory parts = .ok (values, last)) :
    values.length = parts.length := by
  induction parts generalizing memory values with
  | nil =>
    obtain ⟨rfl, -⟩ := Prod.mk.inj (Except.ok.inj hrun)
    rfl
  | cons part rest ih =>
    obtain ⟨value, later, others, -, hrest, rfl⟩ := evaluateAll_cons hrun
    rw [List.length_cons, List.length_cons, ih hrest]

variable (hkept : ∀ (expression : Expression) (before after : Memory ρ) (value : Llvm.Value layout),
  sound before → evaluate expression before = .ok (value, after) →
    sound after ∧ before.heap.length ≤ after.heap.length)

include hkept

theorem le_of_evaluateAll (hsound : sound memory)
    (hrun : evaluateAll evaluate memory parts = .ok (values, last)) :
    memory.heap.length ≤ last.heap.length := by
  induction parts generalizing memory values with
  | nil =>
    obtain ⟨-, rfl⟩ := Prod.mk.inj (Except.ok.inj hrun)
    exact Nat.le_refl _
  | cons part rest ih =>
    obtain ⟨value, later, others, hvalue, hrest, rfl⟩ := evaluateAll_cons hrun
    obtain ⟨hlater, hlength⟩ := hkept _ _ _ _ hsound hvalue
    exact hlength.trans (ih hlater hrest)

/-- Each value is what its part gave at its turn, and its memory is still there at the end. -/
theorem evaluated_of_evaluateAll (hsound : sound memory)
    (hrun : evaluateAll evaluate memory parts = .ok (values, last)) {index : Nat}
    {value : Llvm.Value layout × Memory ρ} (hpart : parts[index]? = some part)
    (hvalue : values[index]? = some value) :
    (∃ before, sound before ∧ evaluate (operand part.2) before = .ok value) ∧
      value.2.heap.length ≤ last.heap.length := by
  induction parts generalizing memory values index with
  | nil => cases hpart
  | cons first rest ih =>
    obtain ⟨v, later, others, hv, hrest, rfl⟩ := evaluateAll_cons hrun
    have hlater := (hkept _ _ _ _ hsound hv).1
    cases index with
    | zero =>
      obtain rfl : first = part := Option.some.inj hpart
      obtain rfl : (v, later) = value := Option.some.inj hvalue
      exact ⟨⟨memory, hsound, hv⟩, le_of_evaluateAll hkept hlater hrest⟩
    | succ index => exact ih hlater hrest hpart hvalue

end Parts

/-! ### One field -/

section Field

variable {fields : List (String × Ty)} {types : List BasicType} {name : String} {ty : Ty}
  {index : Nat} {type : BasicType} {heap : Heap} {address : Nat}

theorem recordStructType_spec
    (h : (recordStructType layout generator fields : Except (Failure φ) _) = .ok types) :
    types.length = fields.length ∧
      ∀ (index : Nat) (field : String × Ty), fields[index]? = some field →
        ∃ type, types[index]? = some type ∧
          (valueReprType layout generator field.2 : Except (Failure φ) _) = .ok type := by
  induction fields generalizing types with
  | nil =>
    obtain rfl := Except.ok.inj h
    exact ⟨rfl, nofun⟩
  | cons first rest ih =>
    rw [recordStructType] at h
    obtain ⟨type, htype, h⟩ := bind_ok h
    obtain ⟨others, hrest, h⟩ := bind_ok h
    obtain rfl := Except.ok.inj h
    obtain ⟨hlength, hfields⟩ := ih hrest
    refine ⟨by rw [List.length_cons, List.length_cons, hlength], fun index field hfield => ?_⟩
    cases index with
    | zero =>
      obtain rfl : first = field := Option.some.inj hfield
      exact ⟨type, rfl, htype⟩
    | succ index => exact hfields index field hfield

/-- The place of the entry `lookup` finds. -/
theorem findIdx?_of_lookup (h : fields.lookup name = some ty) :
    ∃ index, fields.findIdx? (fun field => field.1 = name) = some index ∧
      fields[index]? = some (name, ty) := by
  induction fields with
  | nil => cases h
  | cons field rest ih =>
    obtain ⟨other, otherType⟩ := field
    rw [lookup_cons_ite] at h
    rw [List.findIdx?_cons]
    by_cases hname : name = other
    · subst hname
      rw [if_pos rfl] at h
      obtain rfl := Option.some.inj h
      exact ⟨0, by simp, rfl⟩
    · rw [if_neg hname] at h
      obtain ⟨index, hindex, hfield⟩ := ih h
      refine ⟨index + 1, ?_, hfield⟩
      rw [if_neg (by simpa using Ne.symm hname), hindex]
      rfl

theorem loadField_pointer (type : BasicType) (haddress : address < heap.length)
    (hindex : index < types.length) :
    ∃ value : Llvm.Value layout, value.type = type ∧
      heap.loadField address types index type = some value ∧
        (loadField heap (Llvm.Value.pointer address : Llvm.Value layout) types index type :
          Except (Failure φ) _) = .ok value := by
  have hload : ∃ value : Llvm.Value layout, value.type = type ∧
      heap.loadField address types index type = some value := by
    rw [Heap.loadField, List.getElem?_eq_getElem haddress]
    exact ⟨_, rfl, rfl⟩
  obtain ⟨value, htype, hvalue⟩ := hload
  refine ⟨value, htype, hvalue, ?_⟩
  rw [loadField, if_pos hindex, Llvm.Value.address?_pointer]
  dsimp only
  rw [hvalue]

/-- A reader goes to the slot of the field and loads at its representation. -/
theorem readField_eq {pointer : Llvm.Value layout}
    (hstruct : (recordStructType layout generator fields : Except (Failure φ) _) = .ok types)
    (hindex : fields.findIdx? (fun field => field.1 = name) = some index)
    (htype : types[index]? = some type) :
    (readField generator fields name pointer heap : Except (Failure φ) _) =
      some <$> loadField heap pointer types index type := by
  have hslot : (fieldSlot generator layout fields name : Except (Failure φ) _) =
      .ok (some (types, index, type)) := by
    rw [fieldSlot, hstruct]
    dsimp only [bind, Except.bind]
    rw [hindex]
    dsimp only
    rw [htype]
    rfl
  rw [readField, hslot]
  dsimp only [bind, Except.bind]
  cases (loadField heap pointer types index type : Except (Failure φ) _) with
  | error failure => rfl
  | ok value => rfl

end Field

/-! ### The values of the fields -/

/-- What a part of type `ty` says about a field: its own value, or what a reader of its type finds
in the source it spreads. -/
def partValue (generator : Sums.CodeGenerator) (φ : Type) (part : String × Expression) (ty : Ty)
    (name : String) (value : Llvm.Value layout) (heap : Heap) :
    Except (Failure φ) (Option (Llvm.Value layout)) :=
  if isSpread part.2 then readField generator ((recordFields ty).getD []) name value heap
  else .ok (some value)

section Values

variable {sound : Memory ρ → Prop} {parts : List (String × Expression)} {types : List Ty}
  {part : String × Expression}
  {memory last : Memory ρ} {values : List (Llvm.Value layout × Memory ρ)}
  {sources : List (Source layout)} {entered : List (List (String × Provider layout))}
  {name : String} {ty partType : Ty} {index : Nat} {type : BasicType}
  {value : Llvm.Value layout × Memory ρ}

theorem partValue_explicit {expression : Expression} {v : Llvm.Value layout} {heap : Heap}
    {other : String} (h : isSpread expression = false) :
    partValue generator φ (other, expression) ty name v heap = .ok (some v) := by
  rw [partValue, h, if_neg Bool.false_ne_true]

theorem partValue_spread {source : Expression} {span : Span} {v : Llvm.Value layout} {heap : Heap}
    {other : String} : partValue generator φ (other, .spread source span) ty name v heap =
      readField generator ((recordFields ty).getD []) name v heap := if_pos rfl

theorem lookup_of_isLatest (hlatest : IsLatest (provisions parts types) name index ty)
    (hpart : parts[index]? = some part) (htype : types[index]? = some partType) :
    (provided part partType).lookup name = some ty := by
  obtain ⟨found, hfound, hlookup⟩ := hlatest.gives
  rw [provisions, List.getElem?_zipWith, hpart, htype] at hfound
  obtain rfl := Option.some.inj hfound
  exact hlookup

theorem registered_of_isLatest (hgenerates : Generates generator oracle evaluate sound parts types)
    (hlatest : IsLatest (provisions parts types) name index ty) : Registered generator ty := by
  obtain ⟨table, htable, hlookup⟩ := hlatest.gives
  exact hgenerates.registered table (List.mem_of_getElem? htable) _ (mem_of_lookup hlookup)

/-- The value stored for a field is the one its latest provider has for it. -/
theorem fieldValue_spec (hgenerates : Generates generator oracle evaluate sound parts types)
    (hsound : sound memory) (hrun : evaluateAll evaluate memory parts = .ok (values, last))
    (hall : AllEnter generator φ sources values parts types entered)
    (hlatest : IsLatest (provisions parts types) name index ty)
    (hpart : parts[index]? = some part) (hpartType : types[index]? = some partType)
    (hvalue : values[index]? = some value)
    (hshape : ∀ shape, valueShape generator ty = some shape → type = shape) :
    ∃ v : Llvm.Value layout, v.type = type ∧
      (fieldValue sources (overlays [] entered) last.heap name type : Except (Failure φ) _) =
        .ok v ∧ partValue generator φ part partType name value.1 last.heap = .ok (some v) := by
  have hlookup := lookup_of_isLatest hlatest hpart hpartType
  obtain ⟨⟨before, hbefore, hevaluated⟩, hstill⟩ :=
    evaluated_of_evaluateAll hgenerates.kept hsound hrun hpart hvalue
  have hentered : index < entered.length := by
    have hlengths := congrArg List.length hall.1
    rw [List.length_map, List.length_map] at hlengths
    rw [hlengths]
    exact hlatest.lt_length
  have henters := hall.2 index part partType value entered[index] hpart hpartType hvalue
    (List.getElem?_eq_getElem hentered)
  -- the table of providers has the same latest part for the name
  obtain ⟨found, hfound⟩ := hlatest.transfer hall.1.symm
  have hdistinct : ∀ table ∈ entered, (table.map (·.1)).Nodup := by
    intro table htable
    have hmem : table.map (·.1) ∈ (provisions parts types).map (·.map (·.1)) := by
      rw [← hall.1]
      exact List.mem_map_of_mem htable
    obtain ⟨table', htable', hsame⟩ := List.mem_map.mp hmem
    rw [← hsame]
    exact hgenerates.distinct table' htable'
  have hprovider : (overlays [] entered).lookup name = some found :=
    (lookup_overlays_eq_some_iff hdistinct).mpr ⟨index, hfound⟩
  have hgives : entered[index].lookup name = some found := by
    obtain ⟨table, htable, hgives⟩ := hfound.gives
    rw [List.getElem?_eq_getElem hentered] at htable
    obtain rfl := Option.some.inj htable
    exact hgives
  rw [fieldValue, hprovider]
  generalize entered[index] = table at henters hgives
  cases henters with
  | @explicit other _ _ hexplicit =>
    rw [provided_explicit hexplicit, lookup_cons_ite] at hlookup
    rw [lookup_cons_ite] at hgives
    by_cases hname : name = other
    · rw [if_pos hname] at hlookup hgives
      obtain rfl := Option.some.inj hlookup
      obtain rfl := Option.some.inj hgives
      rw [operand_of_explicit hexplicit] at hevaluated
      have hemitted := hgenerates.emitted index _ partType before value.2 value.1 hpart hexplicit
        hpartType hevaluated
      exact ⟨value.1, (hshape _ hemitted).symm, rfl, partValue_explicit hexplicit⟩
    · rw [if_neg hname] at hlookup
      cases hlookup
  | @spread _ _ _ _ idx source hsource hptr hfields hstruct =>
    rw [provided_spread, hfields, Option.getD_some] at hlookup
    have hspread : found = .spread idx := by
      obtain ⟨_, _, hsame⟩ := List.mem_map.mp (mem_of_lookup hgives)
      exact (Prod.mk.inj hsame).2.symm
    obtain ⟨position, hposition, hfield⟩ := findIdx?_of_lookup hlookup
    obtain ⟨hlength, hslots⟩ := recordStructType_spec hstruct
    obtain ⟨slot, hslot, hrepr⟩ := hslots position _ hfield
    obtain rfl : type = slot := hshape slot
      (valueShape_of_valueReprType (registered_of_isLatest hgenerates hlatest) hrepr)
    obtain ⟨address, haddress, hpointer⟩ :=
      hgenerates.pointers index _ before value.2 value.1 hpart rfl hbefore hevaluated
    have hbound : position < source.structType.length := (List.getElem?_eq_some_iff.mp hslot).1
    obtain ⟨v, hv, -, hload⟩ := loadField_pointer (φ := φ) type (haddress.trans_le hstill) hbound
    refine ⟨v, hv, ?_, ?_⟩
    · rw [hspread]
      dsimp only
      rw [hsource]
      dsimp only
      rw [hposition]
      dsimp only
      rw [hptr, hpointer]
      exact hload
    · rw [partValue_spread, hfields, Option.getD_some, readField_eq hstruct hposition hslot,
        hpointer, hload]
      rfl

end Values

end Quilon.RecordUpdate
