import Quilon.Library.Results
import Quilon.Typechecker.RecordUpdate

/-!
# Correctness of `inferRecord`

Every part of a literal provides fields, a spread those of its source's type and an explicit field
its own (`provided`), and the merged fields are these tables written over one another
(`inferParts_spec`).  So the type of a literal gives each field the type of its latest provider, or
it is the named type of the first named source, whose fields are then the provided ones and
compatible with the latest types (`inferRecord_hasLatestTypes`).
-/

namespace Quilon.RecordUpdate

/-! ### What the parts provide -/

/-- The fields a part brings along when its type is `ty`. -/
def provided (part : String × Expression) (ty : Ty) : List (String × Ty) :=
  if isSpread part.2 then (recordFields ty).getD [] else [(part.1, ty)]

def provisions (parts : List (String × Expression)) (types : List Ty) :
    List (List (String × Ty)) :=
  List.zipWith provided parts types

/-- The type of a part that is a spread of a named record. -/
def namedSource (part : String × Expression) (ty : Ty) : Option Ty :=
  match ty with
  | .named name fields methods =>
    if isSpread part.2 then some (.named name fields methods) else none
  | _ => none

/-- The first of the named sources. -/
def firstNamed (parts : List (String × Expression)) (types : List Ty) : Option Ty :=
  (List.zipWith namedSource parts types).findSome? id

/-- What is spread is a record. -/
def SourcesAreRecords (parts : List (String × Expression)) (types : List Ty) : Prop :=
  ∀ (index : Nat) (part : String × Expression) (ty : Ty), parts[index]? = some part →
    isSpread part.2 = true → types[index]? = some ty → (recordFields ty).isSome

/-- The names written as a direct field. -/
def literalNames (parts : List (String × Expression)) : List String :=
  (parts.filter fun part => !isSpread part.2).map (·.1)

/-- The declared fields are the provided ones, each at a compatible type. -/
structure Reproduces (provisions : List (List (String × Ty))) (declared : List (String × Ty)) :
    Prop where
  names : ∀ name, name ∈ declared.map (·.1) ↔ ∃ index ty, IsLatest provisions name index ty
  types : ∀ name declaredType index ty, (name, declaredType) ∈ declared →
    IsLatest provisions name index ty → typesCompatible declaredType ty = true

/-- `fields` has each provided name once, with the type of its latest provider. -/
structure LatestTypes (provisions : List (List (String × Ty))) (fields : List (String × Ty)) :
    Prop where
  names : (fields.map (·.1)).Nodup
  types : ∀ name ty, (name, ty) ∈ fields ↔ ∃ index, IsLatest provisions name index ty

/-- The result is the named type where it is reproduced, and otherwise an anonymous record of the
latest types. -/
inductive HasLatestTypes (provisions : List (List (String × Ty))) (identity : Option Ty) :
    Ty → Prop where
  | named {name declared methods} (hidentity : identity = some (.named name declared methods))
      (hreproduces : Reproduces provisions declared) :
      HasLatestTypes provisions identity (.named name declared methods)
  | anonymous {merged}
      (hidentity : ∀ name declared methods, identity = some (.named name declared methods) →
        ¬ Reproduces provisions declared)
      (hlatest : LatestTypes provisions merged) :
      HasLatestTypes provisions identity (.record (canonicalRecordFieldOrder merged))

theorem provided_explicit {name : String} {value : Expression} (h : isSpread value = false)
    (ty : Ty) : provided (name, value) ty = [(name, ty)] := by
  rw [provided, h, if_neg Bool.false_ne_true]

theorem provided_spread {name : String} {source : Expression} {span : Span} {ty : Ty} :
    provided (name, .spread source span) ty = (recordFields ty).getD [] := if_pos rfl

theorem namedSource_explicit {name : String} {value : Expression} (h : isSpread value = false)
    (ty : Ty) : namedSource (name, value) ty = none := by
  cases ty with
  | named declaredName fields methods => rw [namedSource, h, if_neg Bool.false_ne_true]
  | _ => rfl

theorem eq_spread_of_isSpread {value : Expression} (h : isSpread value = true) :
    ∃ source span, value = .spread source span := by
  cases value with
  | spread source span => exact ⟨source, span, rfl⟩
  | _ => cases h

section Infer

variable {σ ε : Type} {infer : Expression → σ → Except ε (Ty × σ)}

/-- The types of the parts, inferred one after the other. -/
def inferAll (infer : Expression → σ → Except ε (Ty × σ)) (state : σ) :
    List (String × Expression) → Except ε (List Ty × σ)
  | [] => .ok ([], state)
  | (_, expression) :: rest => do
    let (ty, state) ← infer expression state
    let (types, state) ← inferAll infer state rest
    return (ty :: types, state)

variable {parts : List (String × Expression)} {types : List Ty} {merge merge' : Merge}
  {state state' : σ} {ty : Ty} {source : Expression} {span : Span} {name : String}
  {hasSpread : Bool}

theorem addSpread_spec (name : String)
    (h : (merge.addSpread source span ty : Except (RecordError ε) Merge) = .ok merge') :
    merge'.merged = overlay merge.merged (provided (name, .spread source span) ty) ∧
      merge'.namedIdentity =
        merge.namedIdentity.or (namedSource (name, .spread source span) ty) ∧
      merge'.literalFieldNames = merge.literalFieldNames ∧ (recordFields ty).isSome := by
  rw [Merge.addSpread] at h
  rw [provided_spread]
  cases ty with
  | record fields =>
    rw [Merge.enterSource] at h
    by_cases hpositional : recordFieldsArePositional fields = true
    · rw [if_pos hpositional] at h
      dsimp only at h
      split at h
      · cases h
      · obtain rfl := Except.ok.inj h
        exact ⟨rfl, (Option.or_none ..).symm, rfl, rfl⟩
    · rw [if_neg hpositional] at h
      dsimp only at h
      split at h
      · cases h
      · obtain rfl := Except.ok.inj h
        exact ⟨rfl, (Option.or_none ..).symm, rfl, rfl⟩
  | named declaredName fields methods =>
    rw [Merge.enterSource] at h
    dsimp only at h
    split at h
    · cases h
    · obtain rfl := Except.ok.inj h
      exact ⟨rfl, rfl, rfl, rfl⟩
  | _ => cases h

theorem enterLiteral_spec
    (h : (merge.enterLiteral hasSpread name span : Except (RecordError ε) Merge) = .ok merge') :
    merge'.merged = merge.merged ∧ merge'.namedIdentity = merge.namedIdentity ∧
      name ∉ merge.literalFieldNames ∧
        merge'.literalFieldNames = insert name merge.literalFieldNames := by
  rw [Merge.enterLiteral] at h
  split at h
  case isTrue => cases h
  case isFalse hnew =>
    dsimp only at h
    split at h
    · obtain rfl := Except.ok.inj h
      exact ⟨rfl, rfl, hnew, rfl⟩
    · obtain rfl := Except.ok.inj h
      exact ⟨rfl, rfl, hnew, rfl⟩

theorem inferPart_ok {expression : Expression} {result : Ty × σ}
    (h : inferPart infer state expression = .ok result) : infer expression state = .ok result := by
  rw [inferPart] at h
  split at h
  case h_1 hinfer =>
    obtain rfl := Except.ok.inj h
    exact hinfer
  case h_2 => cases h

theorem inferAll_cons {expression : Expression} {later : σ}
    (hinfer : infer expression state = .ok (ty, later))
    (hrest : inferAll infer later parts = .ok (types, state')) :
    inferAll infer state ((name, expression) :: parts) = .ok (ty :: types, state') := by
  rw [inferAll, hinfer]
  show (do let (types, state) ← inferAll infer later parts; return (ty :: types, state)) = _
  rw [hrest]
  rfl

/-- The first part has no say in what comes behind it. -/
theorem firstNamed_cons {part : String × Expression} :
    firstNamed (part :: parts) (ty :: types) =
      (namedSource part ty).or (firstNamed parts types) := by
  rw [firstNamed, List.zipWith_cons_cons, List.findSome?_cons, id]
  cases namedSource part ty with
  | none => rfl
  | some _ => rfl

theorem sourcesAreRecords_cons {part : String × Expression}
    (hhead : isSpread part.2 = true → (recordFields ty).isSome)
    (hrest : SourcesAreRecords parts types) : SourcesAreRecords (part :: parts) (ty :: types) := by
  intro index other otherType hpart hspread htype
  cases index with
  | zero =>
    obtain rfl : part = other := Option.some.inj hpart
    obtain rfl : ty = otherType := Option.some.inj htype
    exact hhead hspread
  | succ index => exact hrest index other otherType hpart hspread htype

/-- The loop writes what the parts provide over what is there. -/
theorem inferParts_spec (h : inferParts infer hasSpread merge state parts = .ok (merge', state')) :
    ∃ types, inferAll infer state parts = .ok (types, state') ∧
      merge'.merged = overlays merge.merged (provisions parts types) ∧
        merge'.namedIdentity = merge.namedIdentity.or (firstNamed parts types) ∧
          SourcesAreRecords parts types := by
  induction parts generalizing merge state with
  | nil =>
    obtain ⟨rfl, rfl⟩ := Prod.mk.inj (Except.ok.inj h)
    exact ⟨[], rfl, rfl, (Option.or_none ..).symm, nofun⟩
  | cons part rest ih =>
    obtain ⟨name, value⟩ := part
    cases hvalue : isSpread value with
    | true =>
      obtain ⟨source, span, rfl⟩ := eq_spread_of_isSpread hvalue
      rw [inferParts] at h
      obtain ⟨⟨ty, later⟩, hpart, h⟩ := bind_ok h
      obtain ⟨next, hadd, h⟩ := bind_ok h
      obtain ⟨types, hall, hmerged, hidentity, hsources⟩ := ih h
      obtain ⟨hoverlay, hnamed, -, hrecord⟩ := addSpread_spec name hadd
      refine ⟨ty :: types, inferAll_cons (inferPart_ok hpart) hall, ?_, ?_,
        sourcesAreRecords_cons (fun _ => hrecord) hsources⟩
      · rw [hmerged, hoverlay]
        rfl
      · rw [hidentity, hnamed, firstNamed_cons, Option.or_assoc]
    | false =>
      have hexplicit : ∀ source span, value = .spread source span → False := by
        rintro source span rfl
        cases hvalue
      rw [inferParts.eq_3 _ _ _ _ _ _ _ hexplicit] at h
      obtain ⟨next, henter, h⟩ := bind_ok h
      obtain ⟨⟨ty, later⟩, hpart, h⟩ := bind_ok h
      obtain ⟨types, hall, hmerged, hidentity, hsources⟩ := ih h
      obtain ⟨hkept, hsame, -, -⟩ := enterLiteral_spec henter
      have hnone : isSpread (name, value).2 = true → (recordFields ty).isSome := by
        intro hspread
        rw [hvalue] at hspread
        cases hspread
      refine ⟨ty :: types, inferAll_cons (inferPart_ok hpart) hall, ?_, ?_,
        sourcesAreRecords_cons hnone hsources⟩
      · rw [hmerged, Merge.addLiteral, hkept, provisions, provisions, List.zipWith_cons_cons,
          provided_explicit hvalue]
        rfl
      · rw [hidentity, firstNamed_cons, namedSource_explicit hvalue, Option.none_or,
          Merge.addLiteral, hsame]

/-- The names of the direct fields are distinct, and none of them has been met. -/
theorem inferParts_literalNames
    (h : inferParts infer hasSpread merge state parts = .ok (merge', state')) :
    (literalNames parts).Nodup ∧ ∀ name ∈ literalNames parts, name ∉ merge.literalFieldNames := by
  induction parts generalizing merge state with
  | nil => exact ⟨List.nodup_nil, nofun⟩
  | cons part rest ih =>
    obtain ⟨name, value⟩ := part
    cases hvalue : isSpread value with
    | true =>
      obtain ⟨source, span, rfl⟩ := eq_spread_of_isSpread hvalue
      rw [inferParts] at h
      obtain ⟨_, _, h⟩ := bind_ok h
      obtain ⟨next, hadd, h⟩ := bind_ok h
      obtain ⟨hnodup, hnew⟩ := ih h
      obtain ⟨-, -, hsame, -⟩ := addSpread_spec name hadd
      rw [hsame] at hnew
      exact ⟨hnodup, hnew⟩
    | false =>
      have hexplicit : ∀ source span, value = .spread source span → False := by
        rintro source span rfl
        cases hvalue
      rw [inferParts.eq_3 _ _ _ _ _ _ _ hexplicit] at h
      obtain ⟨next, henter, h⟩ := bind_ok h
      obtain ⟨_, _, h⟩ := bind_ok h
      obtain ⟨hnodup, hnew⟩ := ih h
      obtain ⟨-, -, hfresh, hinsert⟩ := enterLiteral_spec henter
      rw [Merge.addLiteral, hinsert] at hnew
      have hcons : literalNames ((name, value) :: rest) = name :: literalNames rest := by
        rw [literalNames, List.filter_cons, hvalue, Bool.not_false, if_pos rfl]
        rfl
      rw [hcons]
      refine ⟨List.nodup_cons.mpr ⟨fun hmem => ?_, hnodup⟩, fun other hother => ?_⟩
      · exact hnew name hmem (Finset.mem_insert_self name _)
      · rcases List.mem_cons.mp hother with rfl | hrest
        · exact hfresh
        · exact fun hmem => hnew other hrest (Finset.mem_insert_of_mem hmem)

theorem inferRecord_spec (h : inferRecord infer parts state = .ok (ty, state')) :
    ∃ types, inferAll infer state parts = .ok (types, state') ∧
      ty = resultType (overlays [] (provisions parts types)) (firstNamed parts types) ∧
        SourcesAreRecords parts types ∧ (literalNames parts).Nodup := by
  rw [inferRecord] at h
  obtain ⟨⟨merge, later⟩, hparts, h⟩ := bind_ok h
  obtain ⟨_, _, h⟩ := bind_ok h
  obtain ⟨rfl, rfl⟩ := Prod.mk.inj (Except.ok.inj h)
  obtain ⟨types, hall, hmerged, hidentity, hsources⟩ := inferParts_spec hparts
  refine ⟨types, hall, ?_, hsources, (inferParts_literalNames hparts).1⟩
  rw [hmerged, hidentity]
  rfl

theorem length_of_inferAll (h : inferAll infer state parts = .ok (types, state')) :
    types.length = parts.length := by
  induction parts generalizing state types with
  | nil =>
    obtain ⟨rfl, -⟩ := Prod.mk.inj (Except.ok.inj h)
    rfl
  | cons part rest ih =>
    rw [inferAll] at h
    obtain ⟨⟨ty, later⟩, _, h⟩ := bind_ok h
    obtain ⟨⟨others, last⟩, hrest, h⟩ := bind_ok h
    obtain ⟨rfl, rfl⟩ := Prod.mk.inj (Except.ok.inj h)
    rw [List.length_cons, List.length_cons, ih hrest]

end Infer

/-! ### The type of the literal -/

section ResultType

variable {parts : List (String × Expression)} {types : List Ty}
  {provisions : List (List (String × Ty))} {declared : List (String × Ty)}

theorem mem_names_overlays_iff (hdistinct : ∀ part ∈ provisions, (part.map (·.1)).Nodup)
    {name : String} : name ∈ (overlays [] provisions).map (·.1) ↔
      ∃ index ty, IsLatest provisions name index ty := by
  rw [← lookup_isSome_iff_mem_fst, Option.isSome_iff_exists, exists_comm]
  exact exists_congr fun ty => lookup_overlays_eq_some_iff hdistinct

theorem overlays_latestTypes (hdistinct : ∀ part ∈ provisions, (part.map (·.1)).Nodup) :
    LatestTypes provisions (overlays [] provisions) := by
  have hnames : ((overlays [] provisions).map (·.1)).Nodup := nodup_overlays List.nodup_nil
  refine ⟨hnames, fun name ty => ?_⟩
  rw [← lookup_eq_some_iff_mem hnames]
  exact lookup_overlays_eq_some_iff hdistinct

theorem reproducesNamed_iff (hdistinct : ∀ part ∈ provisions, (part.map (·.1)).Nodup)
    (hdeclared : (declared.map (·.1)).Nodup) :
    reproducesNamed (overlays [] provisions) declared = true ↔ Reproduces provisions declared := by
  have hmerged : ((overlays [] provisions).map (·.1)).Nodup := nodup_overlays List.nodup_nil
  rw [reproducesNamed, Bool.and_eq_true, decide_eq_true_eq, List.all_eq_true]
  constructor
  · rintro ⟨hlength, hall⟩
    have hlookup : ∀ name declaredType, (name, declaredType) ∈ declared →
        ∃ ty, (overlays [] provisions).lookup name = some ty ∧
          typesCompatible declaredType ty = true := by
      intro name declaredType hmem
      have hfield := hall _ hmem
      dsimp only at hfield
      split at hfield
      case h_1 ty hty => exact ⟨ty, hty, hfield⟩
      case h_2 => cases hfield
    have hsubset : declared.map (·.1) ⊆ (overlays [] provisions).map (·.1) := by
      intro name hname
      obtain ⟨⟨_, declaredType⟩, hmem, rfl⟩ := List.mem_map.mp hname
      obtain ⟨ty, hty, -⟩ := hlookup _ _ hmem
      exact lookup_isSome_iff_mem_fst.mp (by rw [hty]; rfl)
    have hperm : (declared.map (·.1)).Perm ((overlays [] provisions).map (·.1)) := by
      refine (List.subperm_of_subset hdeclared hsubset).perm_of_length_le ?_
      rw [List.length_map, List.length_map, hlength]
    refine ⟨fun name => ?_, fun name declaredType index ty hmem hlatest => ?_⟩
    · rw [hperm.mem_iff]
      exact mem_names_overlays_iff hdistinct
    · obtain ⟨ty', hty', hcompatible⟩ := hlookup name declaredType hmem
      have hty := (lookup_overlays_eq_some_iff hdistinct).mpr ⟨index, hlatest⟩
      obtain rfl := Option.some.inj (hty.symm.trans hty')
      exact hcompatible
  · intro h
    have hperm : (declared.map (·.1)).Perm ((overlays [] provisions).map (·.1)) := by
      refine (List.perm_ext_iff_of_nodup hdeclared hmerged).mpr fun name => ?_
      rw [h.names, mem_names_overlays_iff hdistinct]
    constructor
    · have hlength := hperm.length_eq
      rwa [List.length_map, List.length_map, eq_comm] at hlength
    · rintro ⟨name, declaredType⟩ hmem
      have hname : name ∈ declared.map (·.1) := List.mem_map_of_mem (f := (·.1)) hmem
      obtain ⟨index, ty, hlatest⟩ := (h.names name).mp hname
      have hty := (lookup_overlays_eq_some_iff hdistinct).mpr ⟨index, hlatest⟩
      dsimp only
      rw [hty]
      exact h.types name declaredType index ty hmem hlatest

/-- The fields of the first named source are among those provided. -/
theorem mem_provisions_of_firstNamed {name : String} {methods : List String}
    (h : firstNamed parts types = some (.named name declared methods)) :
    declared ∈ RecordUpdate.provisions parts types := by
  induction parts generalizing types with
  | nil => cases h
  | cons part rest ih =>
    cases types with
    | nil => cases h
    | cons ty later =>
      rw [firstNamed_cons, Option.or_eq_some_iff] at h
      rw [RecordUpdate.provisions, List.zipWith_cons_cons]
      rcases h with hhead | ⟨-, hrest⟩
      · cases ty with
        | named declaredName fields others =>
          rw [namedSource] at hhead
          by_cases hspread : isSpread part.2 = true
          · rw [if_pos hspread] at hhead
            injection Option.some.inj hhead with _ hfields _
            rw [provided, if_pos hspread, ← hfields]
            exact List.mem_cons_self
          · rw [if_neg hspread] at hhead
            cases hhead
        | _ => cases hhead
      · exact List.mem_cons_of_mem _ (ih hrest)

/-- Every field has the type of its latest provider, or the named type that is reproduced. -/
theorem resultType_hasLatestTypes
    (hdistinct : ∀ part ∈ RecordUpdate.provisions parts types, (part.map (·.1)).Nodup) :
    HasLatestTypes (RecordUpdate.provisions parts types) (firstNamed parts types)
      (resultType (overlays [] (RecordUpdate.provisions parts types)) (firstNamed parts types)) := by
  have hlatest := overlays_latestTypes hdistinct
  unfold resultType
  split
  case h_1 name declared methods hidentity =>
    have hdeclared := hdistinct _ (mem_provisions_of_firstNamed hidentity)
    have hiff := reproducesNamed_iff hdistinct hdeclared
    by_cases hreproduces : reproducesNamed
        (overlays [] (RecordUpdate.provisions parts types)) declared = true
    · rw [if_pos hreproduces]
      exact .named hidentity (hiff.mp hreproduces)
    · rw [if_neg hreproduces]
      refine .anonymous (fun other fields others hother => ?_) hlatest
      injection Option.some.inj (hidentity.symm.trans hother) with _ hfields _
      subst hfields
      exact mt hiff.mpr hreproduces
  case h_2 hanonymous =>
    exact .anonymous (fun name declared methods hidentity _ =>
      hanonymous name declared methods hidentity) hlatest

end ResultType

end Quilon.RecordUpdate
