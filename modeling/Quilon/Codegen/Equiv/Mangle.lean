import Quilon.Codegen.Mangle
import Mathlib.Data.List.Basic

/-!
# Agreement of checker and code generator on overloaded calls

The checker compares types with `types_match`, the code generator compares tags.  The tag of a
map, a set or a function is its rendering with the punctuation dropped, and a rendering shows
what `types_match` ignores: the fields and methods of a named type, and whether a `Num` is a type
variable.  Where the argument keeps all of that out of its maps, sets and functions (`Ty.plain`)
and the parameter keeps type variables out of them (`Ty.ground`), the two comparisons agree:

* `rendered_append_cancel`: the rendering of a bare type can be read back off a longer word;
* `typeMangle_eq_iff`: the tag of a written parameter is the tag of an argument iff the resolved
  parameter matches it;
* `flatMap_typeMangle_cancel`: a symbol decodes into the tags it was built from.

`matchingOverload_eq_resolveOverload` assembles them; `mapOfPoints` is a set on which the code
generator finds no member for a call the checker accepts.
-/

namespace Quilon

/-! ### Types whose fallback tag is faithful -/

mutual

/-- Built from scalars, arrays, maps, sets and functions only. -/
def Ty.bare : Ty → Bool
  | .num | .text | .bool | .unit => true
  | .array element => element.bare
  | .map key value => key.bare && value.bare
  | .set element => element.bare
  | .function parameters returnType => Ty.allBare parameters && returnType.bare
  | .record _ | .named _ _ _ | .generic _ | .sum _ _ => false

def Ty.allBare : List Ty → Bool
  | [] => true
  | ty :: rest => ty.bare && Ty.allBare rest

end

mutual

/-- Without a type variable outside the declarations it names. -/
def Ty.ground : Ty → Bool
  | .generic _ => false
  | .array element => element.ground
  | .map key value => key.ground && value.ground
  | .set element => element.ground
  | .function parameters returnType => Ty.allGround parameters && returnType.ground
  | .num | .text | .bool | .unit | .record _ | .named _ _ _ | .sum _ _ => true

def Ty.allGround : List Ty → Bool
  | [] => true
  | ty :: rest => ty.ground && Ty.allGround rest

end

/-- The types `type_mangle` has no case of its own for. -/
def Ty.usesFallback : Ty → Bool
  | .map _ _ | .set _ | .function _ _ | .record _ => true
  | _ => false

/-- No named type, sum, type variable or anonymous record beneath a map, a set or a function,
and no anonymous record at all. -/
def Ty.plain : Ty → Bool
  | .array element => element.plain
  | .map key value => (Ty.map key value).bare
  | .set element => (Ty.set element).bare
  | .function parameters returnType => (Ty.function parameters returnType).bare
  | .record _ => false
  | .num | .text | .bool | .unit | .named _ _ _ | .generic _ | .sum _ _ => true

/-- No type variable beneath a map, a set or a function. -/
def Ty.groundBeneathFallback : Ty → Bool
  | .array element => element.groundBeneathFallback
  | .map key value => (Ty.map key value).ground
  | .set element => (Ty.set element).ground
  | .function parameters returnType => (Ty.function parameters returnType).ground
  | .num | .text | .bool | .unit | .record _ | .named _ _ _ | .generic _ | .sum _ _ => true

mutual

theorem Ty.ground_of_bare : (ty : Ty) → ty.bare = true → ty.ground = true
  | .num, _ | .text, _ | .bool, _ | .unit, _ => rfl
  | .array element, h => Ty.ground_of_bare element h
  | .set element, h => Ty.ground_of_bare element h
  | .map key value, h => by
    rw [Ty.bare, Bool.and_eq_true] at h
    rw [Ty.ground, Ty.ground_of_bare key h.1, Ty.ground_of_bare value h.2, Bool.and_true]
  | .function parameters returnType, h => by
    rw [Ty.bare, Bool.and_eq_true] at h
    rw [Ty.ground, Ty.allGround_of_allBare parameters h.1, Ty.ground_of_bare returnType h.2,
      Bool.and_true]

theorem Ty.allGround_of_allBare : (tys : List Ty) → Ty.allBare tys = true →
    Ty.allGround tys = true
  | [], _ => rfl
  | ty :: rest, h => by
    rw [Ty.allBare, Bool.and_eq_true] at h
    rw [Ty.allGround, Ty.ground_of_bare ty h.1, Ty.allGround_of_allBare rest h.2, Bool.and_true]

end

theorem Ty.groundBeneathFallback_of_plain : (ty : Ty) → ty.plain = true →
    ty.groundBeneathFallback = true
  | .num, _ | .text, _ | .bool, _ | .unit, _ | .named _ _ _, _ | .generic _, _ | .sum _ _, _ =>
    rfl
  | .array element, h => Ty.groundBeneathFallback_of_plain element h
  | .map key value, h => Ty.ground_of_bare (.map key value) h
  | .set element, h => Ty.ground_of_bare (.set element) h
  | .function parameters returnType, h => Ty.ground_of_bare (.function parameters returnType) h

/-! ### What the fallback tag keeps of a rendering -/

namespace CharTable

variable (table : CharTable)

theorem keeps_of_ascii {c : Char} (h : c.toNat < 128) :
    table.keeps c = (c.isAlphanum || c == '$') := by
  rw [keeps, table.ascii_alphanumeric c h]

/-- What the fallback tag keeps of an ASCII literal can be computed. -/
theorem filter_keeps_literal {s t : List Char}
    (h : (s.all (·.toNat < 128) && s.filter (fun c => c.isAlphanum || c == '$') == t) = true) :
    s.filter table.keeps = t := by
  rw [Bool.and_eq_true, beq_iff_eq] at h
  rw [← h.2]
  apply List.filter_congr
  intro c hc
  exact table.keeps_of_ascii (by simpa using List.all_eq_true.mp h.1 c hc)

@[simp]
theorem keeps_X : table.keeps 'X' = true := by
  rw [table.keeps_of_ascii (by decide)]
  decide

theorem chars_named : chars "named$" = ['n', 'a', 'm', 'e', 'd', '$'] := by
  unfold chars; decide

theorem filter_commaSeparated (items : List (List Char)) :
    (commaSeparated items).filter table.keeps =
      items.flatMap fun item => item.filter table.keeps := by
  induction items with
  | nil => rfl
  | cons item rest ih =>
    cases rest with
    | nil => simp [commaSeparated]
    | cons next rest =>
      have hcomma : (chars ", ").filter table.keeps = [] :=
        table.filter_keeps_literal (by unfold chars; decide)
      rw [commaSeparated, List.filter_append, List.filter_append, hcomma, ih, List.append_nil,
        List.flatMap_cons]
      · rfl
      · exact List.cons_ne_nil next rest

/-- The rendering of a type with the punctuation dropped. -/
def rendered (ty : Ty) : List Char :=
  (table.debug ty).filter table.keeps

/-- The renderings of a type list, one after the other. -/
def renderedAll (tys : List Ty) : List Char :=
  (table.debugTypes tys).flatMap fun item => item.filter table.keeps

theorem renderedAll_cons (ty : Ty) (rest : List Ty) :
    table.renderedAll (ty :: rest) = table.rendered ty ++ table.renderedAll rest := by
  rw [renderedAll, debugTypes, List.flatMap_cons]
  rfl

theorem rendered_num : table.rendered .num = ['N', 'u', 'm'] := by
  rw [rendered, debug]
  exact table.filter_keeps_literal (by unfold chars; decide)

theorem rendered_text : table.rendered .text = ['T', 'e', 'x', 't'] := by
  rw [rendered, debug]
  exact table.filter_keeps_literal (by unfold chars; decide)

theorem rendered_bool : table.rendered .bool = ['B', 'o', 'o', 'l'] := by
  rw [rendered, debug]
  exact table.filter_keeps_literal (by unfold chars; decide)

theorem rendered_unit : table.rendered .unit = ['U', 'n', 'i', 't'] := by
  rw [rendered, debug]
  exact table.filter_keeps_literal (by unfold chars; decide)

theorem filter_close : (chars ")").filter table.keeps = [] :=
  table.filter_keeps_literal (by unfold chars; decide)

theorem rendered_array (element : Ty) :
    table.rendered (.array element) = ['A', 'r', 'r', 'a', 'y'] ++ table.rendered element := by
  have hopen : (chars "Array(").filter table.keeps = ['A', 'r', 'r', 'a', 'y'] :=
    table.filter_keeps_literal (by unfold chars; decide)
  rw [rendered, debug, List.filter_append, List.filter_append, hopen, filter_close,
    List.append_nil, rendered]

theorem rendered_set (element : Ty) :
    table.rendered (.set element) = ['S', 'e', 't'] ++ table.rendered element := by
  have hopen : (chars "Set(").filter table.keeps = ['S', 'e', 't'] :=
    table.filter_keeps_literal (by unfold chars; decide)
  rw [rendered, debug, List.filter_append, List.filter_append, hopen, filter_close,
    List.append_nil, rendered]

theorem rendered_map (key value : Ty) :
    table.rendered (.map key value) =
      ['M', 'a', 'p'] ++ (table.rendered key ++ table.rendered value) := by
  have hopen : (chars "Map(").filter table.keeps = ['M', 'a', 'p'] :=
    table.filter_keeps_literal (by unfold chars; decide)
  have hcomma : (chars ", ").filter table.keeps = [] :=
    table.filter_keeps_literal (by unfold chars; decide)
  simp only [rendered, debug, List.filter_append, hopen, hcomma, filter_close, List.append_nil,
    List.append_assoc, List.nil_append]

theorem rendered_function (parameters : List Ty) (returnType : Ty) :
    table.rendered (.function parameters returnType) =
      ['F', 'u', 'n', 'c', 't', 'i', 'o', 'n', 'p', 'a', 'r', 'a', 'm', 'e', 't', 'e', 'r', 's'] ++
        (table.renderedAll parameters ++
          (['r', 'e', 't', 'u', 'r', 'n', 't', 'y', 'p', 'e'] ++ table.rendered returnType)) := by
  have hopen : (chars "Function \x7b parameters: [").filter table.keeps
      = ['F', 'u', 'n', 'c', 't', 'i', 'o', 'n', 'p', 'a', 'r', 'a', 'm', 'e', 't', 'e', 'r',
        's'] :=
    table.filter_keeps_literal (by unfold chars; decide)
  have hreturn : (chars "], return_type: ").filter table.keeps
      = ['r', 'e', 't', 'u', 'r', 'n', 't', 'y', 'p', 'e'] :=
    table.filter_keeps_literal (by unfold chars; decide)
  have hclose : (chars " \x7d").filter table.keeps = [] :=
    table.filter_keeps_literal (by unfold chars; decide)
  simp only [rendered, debug, List.filter_append, hopen, hreturn, hclose, filter_commaSeparated,
    renderedAll, List.append_nil, List.append_assoc]

/-- The first two letters of a type's rendering, which tell its constructor. -/
def initials : Ty → Char × Char
  | .num => ('N', 'u')
  | .text => ('T', 'e')
  | .bool => ('B', 'o')
  | .unit => ('U', 'n')
  | .array _ => ('A', 'r')
  | .map _ _ => ('M', 'a')
  | .set _ => ('S', 'e')
  | .record _ => ('R', 'e')
  | .named _ _ _ => ('N', 'a')
  | .generic _ => ('G', 'e')
  | .function _ _ => ('F', 'u')
  | .sum _ _ => ('S', 'u')

theorem rendered_eq_initials_cons (ty : Ty) :
    ∃ rest, table.rendered ty = (initials ty).1 :: (initials ty).2 :: rest := by
  cases ty with
  | num => exact ⟨_, table.rendered_num⟩
  | text => exact ⟨_, table.rendered_text⟩
  | bool => exact ⟨_, table.rendered_bool⟩
  | unit => exact ⟨_, table.rendered_unit⟩
  | array element => exact ⟨_, table.rendered_array element⟩
  | map key value => exact ⟨_, table.rendered_map key value⟩
  | set element => exact ⟨_, table.rendered_set element⟩
  | function parameters returnType => exact ⟨_, table.rendered_function parameters returnType⟩
  | record fields =>
    have hopen : (chars "Record([").filter table.keeps = ['R', 'e', 'c', 'o', 'r', 'd'] :=
      table.filter_keeps_literal (by unfold chars; decide)
    rw [rendered, debug, List.append_assoc, List.filter_append, hopen]
    exact ⟨_, rfl⟩
  | named name fields methods =>
    have hopen : (chars "Named \x7b name: ").filter table.keeps
        = ['N', 'a', 'm', 'e', 'd', 'n', 'a', 'm', 'e'] :=
      table.filter_keeps_literal (by unfold chars; decide)
    simp only [rendered, debug, List.append_assoc, List.filter_append, hopen]
    exact ⟨_, rfl⟩
  | generic name =>
    have hopen : (chars "Generic \x7b name: ").filter table.keeps
        = ['G', 'e', 'n', 'e', 'r', 'i', 'c', 'n', 'a', 'm', 'e'] :=
      table.filter_keeps_literal (by unfold chars; decide)
    simp only [rendered, debug, List.append_assoc, List.filter_append, hopen]
    exact ⟨_, rfl⟩
  | sum name variants =>
    have hopen : (chars "Sum \x7b name: ").filter table.keeps
        = ['S', 'u', 'm', 'n', 'a', 'm', 'e'] :=
      table.filter_keeps_literal (by unfold chars; decide)
    simp only [rendered, debug, List.append_assoc, List.filter_append, hopen]
    exact ⟨_, rfl⟩

theorem initials_eq_of_append_eq {a d : Ty} {s t : List Char}
    (h : table.rendered d ++ s = table.rendered a ++ t) : initials d = initials a := by
  obtain ⟨_, hd⟩ := table.rendered_eq_initials_cons d
  obtain ⟨_, ha⟩ := table.rendered_eq_initials_cons a
  rw [hd, ha] at h
  simp only [List.cons_append, List.cons.injEq] at h
  exact Prod.ext h.1 h.2.1

/-! ### A bare type is read back off its rendering -/

mutual

/-- **Decoding**: a word that starts with the rendering of a bare type starts with the rendering
of no other type. -/
theorem rendered_append_cancel : (a d : Ty) → a.bare = true →
    ∀ s t, table.rendered d ++ s = table.rendered a ++ t → d = a ∧ s = t
  | .num, d, _, s, t, h | .text, d, _, s, t, h | .bool, d, _, s, t, h
  | .unit, d, _, s, t, h => by
    have hinitials := table.initials_eq_of_append_eq h
    cases d <;> simp only [initials, Prod.mk.injEq, Char.reduceEq, and_self, and_true, and_false]
      at hinitials
    exact ⟨rfl, List.append_cancel_left h⟩
  | .array a, d, ha, s, t, h => by
    have hinitials := table.initials_eq_of_append_eq h
    cases d <;> simp [initials] at hinitials
    rename_i d
    simp only [rendered_array, List.append_assoc, List.append_cancel_left_eq] at h
    obtain ⟨hd, hst⟩ := rendered_append_cancel a d ha s t h
    exact ⟨by rw [hd], hst⟩
  | .set a, d, ha, s, t, h => by
    have hinitials := table.initials_eq_of_append_eq h
    cases d <;> simp [initials] at hinitials
    rename_i d
    simp only [rendered_set, List.append_assoc, List.append_cancel_left_eq] at h
    obtain ⟨hd, hst⟩ := rendered_append_cancel a d ha s t h
    exact ⟨by rw [hd], hst⟩
  | .map key value, d, ha, s, t, h => by
    have hinitials := table.initials_eq_of_append_eq h
    cases d <;> simp [initials] at hinitials
    rw [Ty.bare, Bool.and_eq_true] at ha
    simp only [rendered_map, List.append_assoc, List.append_cancel_left_eq] at h
    obtain ⟨hkey, hrest⟩ := rendered_append_cancel key _ ha.1 _ _ h
    obtain ⟨hvalue, hst⟩ := rendered_append_cancel value _ ha.2 _ _ hrest
    exact ⟨by rw [hkey, hvalue], hst⟩
  | .function parameters returnType, d, ha, s, t, h => by
    have hinitials := table.initials_eq_of_append_eq h
    cases d <;> simp [initials] at hinitials
    rw [Ty.bare, Bool.and_eq_true] at ha
    simp only [rendered_function, List.append_assoc, List.append_cancel_left_eq] at h
    obtain ⟨hparameters, hrest⟩ := renderedAll_append_cancel parameters _ ha.1 _ _ h
    obtain ⟨hreturn, hst⟩ :=
      rendered_append_cancel returnType _ ha.2 s t (by simpa using hrest)
    exact ⟨by rw [hparameters, hreturn], hst⟩

/-- A parameter list ends where `returntype` starts: no rendering begins with an `r`. -/
theorem renderedAll_append_cancel : (as ds : List Ty) → Ty.allBare as = true →
    ∀ s t, table.renderedAll ds ++ 'r' :: s = table.renderedAll as ++ 'r' :: t → ds = as ∧ s = t
  | [], [], _, s, t, h => ⟨rfl, by simpa [renderedAll, debugTypes] using h⟩
  | [], d :: ds, _, s, t, h => by
    obtain ⟨_, hd⟩ := table.rendered_eq_initials_cons d
    rw [renderedAll_cons, hd] at h
    cases d <;> simp [renderedAll, debugTypes, initials] at h
  | a :: as, [], _, s, t, h => by
    obtain ⟨_, ha⟩ := table.rendered_eq_initials_cons a
    rw [renderedAll_cons, ha] at h
    cases a <;> simp [renderedAll, debugTypes, initials] at h
  | a :: as, d :: ds, ha, s, t, h => by
    rw [Ty.allBare, Bool.and_eq_true] at ha
    rw [renderedAll_cons, renderedAll_cons, List.append_assoc, List.append_assoc] at h
    obtain ⟨hhead, hrest⟩ := rendered_append_cancel a d ha.1 _ _ h
    obtain ⟨htail, hst⟩ := renderedAll_append_cancel as ds ha.2 s t hrest
    exact ⟨by rw [hhead, htail], hst⟩

end

/-! ### Tags by kind of type -/

theorem typeMangle_of_usesFallback {ty : Ty} (h : ty.usesFallback = true) :
    table.typeMangle ty = 'X' :: table.rendered ty := by
  have htag : table.typeMangle ty = ('X' :: table.debug ty).filter table.keeps := by
    cases ty <;> first | rfl | simp [Ty.usesFallback] at h
  rw [htag, List.filter_cons_of_pos table.keeps_X]
  rfl

theorem typeMangle_of_declaredName {t : Ty} {n : String} (h : t.declaredName = some n) :
    table.typeMangle t = ['n', 'a', 'm', 'e', 'd', '$'] ++ n.toList := by
  cases t <;> simp only [Ty.declaredName, reduceCtorEq, Option.some.injEq] at h
  all_goals rw [typeMangle, h, chars_named]

end CharTable

/-! ### Resolving an annotation -/

namespace TypeTable

variable (types : TypeTable)

/-- A written name resolves to a declaration of that name. -/
theorem declaredName_resolveType {t : Ty} {n : String} (h : t.declaredName = some n) :
    (types.resolveType t).declaredName = some n := by
  cases t <;> simp only [Ty.declaredName, reduceCtorEq, Option.some.injEq] at h
  case sum => rw [resolveType, Ty.declaredName, h]
  case named written fields methods =>
    subst h
    cases fields with
    | cons field rest => rfl
    | nil =>
      rw [resolveType]
      cases hsum : types.sumTypes written with
      | some ty =>
        obtain ⟨variants, rfl⟩ := types.sum_name written ty hsum
        rfl
      | none =>
        cases hrecord : types.recordTypes written with
        | none => rfl
        | some ty =>
          obtain ⟨fields, methods, rfl⟩ := types.record_name written ty hrecord
          rfl

/-- `Site` cannot name a sum, so an annotation is a `Site` before and after resolving. -/
theorem isSiteType_resolveType (ty : Ty) : isSiteType (types.resolveType ty) = isSiteType ty := by
  cases ty
  case named name fields methods =>
    have hname := types.declaredName_resolveType (t := .named name fields methods) rfl
    cases hresolved : types.resolveType (.named name fields methods) <;>
      simp only [hresolved, Ty.declaredName, reduceCtorEq, Option.some.injEq] at hname
    case named => rw [isSiteType, isSiteType, hname]
    case sum other variants =>
      -- Only a name of `sum_types` resolves to a sum, and `Site` is not one.
      cases fields with
      | cons => simp [resolveType] at hresolved
      | nil =>
        by_cases hsite : name = "Site"
        · subst hsite
          rw [resolveType, types.site_reserved] at hresolved
          cases hrecord : types.recordTypes "Site" with
          | none => simp [hrecord] at hresolved
          | some ty =>
            obtain ⟨_, _, rfl⟩ := types.record_name _ _ hrecord
            simp [hrecord] at hresolved
        · simp [isSiteType, hsite]
  all_goals rfl

end TypeTable

/-! ### Matching a bare argument -/

/-- A type identified by name matches exactly the types of that name. -/
theorem typesMatch_of_declaredName {p : Ty} {name : String} (h : p.declaredName = some name)
    (a : Ty) : typesMatch p a = true ↔ a.declaredName = some name := by
  cases p <;> simp only [Ty.declaredName, reduceCtorEq, Option.some.injEq] at h
  all_goals
    subst h
    cases a
    case named | sum =>
      simp only [typesMatch, beq_iff_eq, Ty.declaredName, Option.some.injEq]
      exact eq_comm
    all_goals simp [typesMatch, Ty.declaredName, Ty.isNumOrGeneric]

theorem Ty.declaredName_of_bare {a : Ty} (h : a.bare = true) : a.declaredName = none := by
  cases a <;> first | rfl | simp [Ty.bare] at h

section

variable (types : TypeTable)

mutual

/-- A written type without variables matches a bare argument exactly when it is that type. -/
theorem typesMatch_resolveType_iff : (d a : Ty) → d.ground = true → a.bare = true →
    (typesMatch (types.resolveType d) a = true ↔ d = a)
  | .num, a, _, ha | .text, a, _, ha | .bool, a, _, ha | .unit, a, _, ha
  | .record _, a, _, ha => by
    cases a <;> simp_all [TypeTable.resolveType, typesMatch, Ty.bare]
  | .named name fields methods, a, _, ha => by
    rw [typesMatch_of_declaredName (types.declaredName_resolveType (n := name) rfl) a,
      Ty.declaredName_of_bare ha]
    cases a <;> simp_all [Ty.bare]
  | .sum name variants, a, _, ha => by
    rw [typesMatch_of_declaredName (types.declaredName_resolveType (n := name) rfl) a,
      Ty.declaredName_of_bare ha]
    cases a <;> simp_all [Ty.bare]
  | .array d, a, hd, ha => by
    cases a <;> simp [typesMatch, Ty.bare, TypeTable.resolveType] at ha ⊢
    exact typesMatch_resolveType_iff d _ hd ha
  | .set d, a, hd, ha => by
    cases a <;> simp [typesMatch, Ty.bare, TypeTable.resolveType] at ha ⊢
    exact typesMatch_resolveType_iff d _ hd ha
  | .map key value, a, hd, ha => by
    rw [Ty.ground, Bool.and_eq_true] at hd
    cases a <;> simp [typesMatch, Ty.bare, TypeTable.resolveType] at ha ⊢
    rw [typesMatch_resolveType_iff key _ hd.1 ha.1, typesMatch_resolveType_iff value _ hd.2 ha.2]
  | .function parameters returnType, a, hd, ha => by
    rw [Ty.ground, Bool.and_eq_true] at hd
    cases a <;> simp [typesMatch, Ty.bare, TypeTable.resolveType] at ha ⊢
    rw [typesMatchAll_resolveTypes_iff parameters _ hd.1 ha.1,
      typesMatch_resolveType_iff returnType _ hd.2 ha.2]

theorem typesMatchAll_resolveTypes_iff : (ds as : List Ty) → Ty.allGround ds = true →
    Ty.allBare as = true →
    ((types.resolveTypes ds).length = as.length ∧
      typesMatchAll (types.resolveTypes ds) as = true ↔ ds = as)
  | [], [], _, _ => by simp [typesMatchAll, TypeTable.resolveTypes]
  | [], _ :: _, _, _ => by simp [TypeTable.resolveTypes]
  | _ :: _, [], _, _ => by simp [TypeTable.resolveTypes]
  | d :: ds, a :: as, hd, ha => by
    rw [Ty.allGround, Bool.and_eq_true] at hd
    rw [Ty.allBare, Bool.and_eq_true] at ha
    have hhead := typesMatch_resolveType_iff d a hd.1 ha.1
    have htail := typesMatchAll_resolveTypes_iff ds as hd.2 ha.2
    simp only [TypeTable.resolveTypes, List.length_cons, Nat.add_right_cancel_iff, typesMatchAll,
      Bool.and_eq_true, List.cons.injEq, ← hhead, ← htail]
    tauto

end

end

/-! ### Tags and matching agree -/

section

variable (table : CharTable) (types : TypeTable)

/-- A named tag is the tag of exactly the types of that name. -/
theorem named_eq_typeMangle_iff (name : String) (a : Ty) :
    ['n', 'a', 'm', 'e', 'd', '$'] ++ name.toList = table.typeMangle a ↔
      a.declaredName = some name := by
  constructor
  · intro h
    cases a
    case named other _ _ | sum other _ =>
      rw [table.typeMangle_of_declaredName (n := other) rfl] at h
      have : name.toList = other.toList := List.append_cancel_left h
      rw [Ty.declaredName, String.toList_injective this]
    all_goals simp [CharTable.typeMangle] at h
  · intro h
    rw [table.typeMangle_of_declaredName h]

/-- A map, set or function has the tag of a plain argument only if it is that argument. -/
theorem typeMangle_fallback_eq_iff {d a : Ty} (hd : d.usesFallback = true)
    (ha : a.plain = true) : table.typeMangle d = table.typeMangle a ↔ d = a := by
  constructor
  · intro h
    rw [table.typeMangle_of_usesFallback hd] at h
    cases a
    case map | set | function =>
      rw [table.typeMangle_of_usesFallback rfl] at h
      have hrendered := List.tail_eq_of_cons_eq h
      exact (table.rendered_append_cancel _ d ha [] [] (by rw [hrendered])).1
    case named | sum => simp [CharTable.typeMangle, CharTable.chars_named] at h
    case record => simp [Ty.plain] at ha
    all_goals simp [CharTable.typeMangle] at h
  · intro h
    rw [h]

/-- A written map, set or function matches a plain argument only if it is that argument. -/
theorem typesMatch_fallback_iff {d a : Ty} (hd : d.usesFallback = true)
    (hground : d.ground = true) (ha : a.plain = true) :
    typesMatch (types.resolveType d) a = true ↔ d = a := by
  cases a
  case map | set | function => exact typesMatch_resolveType_iff types d _ hground ha
  all_goals
    cases d <;> simp_all [TypeTable.resolveType, typesMatch, Ty.usesFallback, Ty.isNumOrGeneric,
      Ty.plain]

/-- **Tags agree with matching**: for a plain argument, the tag of a written parameter is the
argument's tag iff the resolved parameter matches it. -/
theorem typeMangle_eq_iff : (d a : Ty) → d.groundBeneathFallback = true → a.plain = true →
    (table.typeMangle d = table.typeMangle a ↔ typesMatch (types.resolveType d) a = true)
  | .num, a, _, ha | .text, a, _, ha | .bool, a, _, ha | .unit, a, _, ha
  | .generic _, a, _, ha => by
    cases a <;> simp_all [TypeTable.resolveType, typesMatch, CharTable.typeMangle,
      CharTable.chars_named, Ty.isNumOrGeneric, Ty.plain]
  | .array d, a, hd, ha => by
    cases a
    case array a =>
      rw [CharTable.typeMangle, CharTable.typeMangle, List.cons.injEq, eq_self, true_and,
        TypeTable.resolveType, typesMatch]
      exact typeMangle_eq_iff d a hd ha
    all_goals simp_all [TypeTable.resolveType, typesMatch, CharTable.typeMangle,
      CharTable.chars_named, Ty.isNumOrGeneric, Ty.plain]
  | .named name fields methods, a, _, _ => by
    rw [table.typeMangle_of_declaredName (n := name) rfl, named_eq_typeMangle_iff,
      typesMatch_of_declaredName (types.declaredName_resolveType rfl)]
  | .sum name variants, a, _, _ => by
    rw [table.typeMangle_of_declaredName (n := name) rfl, named_eq_typeMangle_iff,
      typesMatch_of_declaredName (types.declaredName_resolveType rfl)]
  | .map key value, a, hd, ha => by
    rw [typeMangle_fallback_eq_iff table rfl ha, typesMatch_fallback_iff types rfl hd ha]
  | .set element, a, hd, ha => by
    rw [typeMangle_fallback_eq_iff table rfl ha, typesMatch_fallback_iff types rfl hd ha]
  | .function parameters returnType, a, hd, ha => by
    rw [typeMangle_fallback_eq_iff table rfl ha, typesMatch_fallback_iff types rfl hd ha]
  | .record fields, a, _, ha => by
    rw [typeMangle_fallback_eq_iff table rfl ha, typesMatch_fallback_iff types rfl rfl ha]

/-- The two passes accept a call alike, a left-off `Site` included. -/
theorem parametersAccept_tags_eq {declared args : List Ty}
    (hdeclared : ∀ d ∈ declared, d.groundBeneathFallback = true)
    (hargs : ∀ a ∈ args, a.plain = true) :
    parametersAccept declared args (fun p a => table.typeMangle p == table.typeMangle a) =
      parametersAccept (declared.map types.resolveType) args typesMatch := by
  have hsite : takesCallSite (declared.map types.resolveType) = takesCallSite declared := by
    rw [takesCallSite, takesCallSite, List.getLast?_map, Option.any_map]
    exact congrArg (fun p => declared.getLast?.any p) (funext types.isSiteType_resolveType)
  have hall : (declared.zip args).all
        (fun (p, a) => table.typeMangle p == table.typeMangle a) =
      ((declared.map types.resolveType).zip args).all fun (p, a) => typesMatch p a := by
    rw [List.zip_map_left, List.all_map, Bool.eq_iff_iff, List.all_eq_true, List.all_eq_true]
    refine forall₂_congr fun (d, a) hmem => ?_
    obtain ⟨hd, ha⟩ := List.of_mem_zip hmem
    rw [beq_iff_eq]
    exact typeMangle_eq_iff table types d a (hdeclared d hd) (hargs a ha)
  simp only [parametersAccept, fillsCallSite, List.length_map, hsite, hall]

/-! ### A symbol decodes into its tags -/

/-- The name at the bottom of a tag's array prefix. -/
def Ty.spineName : Ty → Option String
  | .array element => element.spineName
  | ty => ty.declaredName

/-- Words without a separator are read back up to the next one. -/
theorem append_cancel_of_notMem {α : Type*} {separator : α} : ∀ {u v s t : List α},
    separator ∉ u → separator ∉ v → (∀ c ∈ s.head?, c = separator) →
    (∀ c ∈ t.head?, c = separator) → u ++ s = v ++ t → u = v ∧ s = t
  | [], [], _, _, _, _, _, _, h => ⟨rfl, h⟩
  | [], b :: v, s, t, _, hv, hs, _, h => by
    have hb : b = separator := hs b (by simp [show s = b :: (v ++ t) from h])
    exact absurd (hb ▸ List.mem_cons_self) hv
  | a :: u, [], s, t, hu, _, _, ht, h => by
    have ha : a = separator := ht a (by simp [show t = a :: (u ++ s) from h.symm])
    exact absurd (ha ▸ List.mem_cons_self) hu
  | a :: u, b :: v, s, t, hu, hv, hs, ht, h => by
    rw [List.cons_append, List.cons_append, List.cons.injEq] at h
    obtain ⟨huv, hst⟩ := append_cancel_of_notMem (List.not_mem_of_not_mem_cons hu)
      (List.not_mem_of_not_mem_cons hv) hs ht h.2
    exact ⟨by rw [h.1, huv], hst⟩

theorem typeMangle_named_append_cancel {name : String} {e : Ty} {s t : List Char}
    (hname : '$' ∉ name.toList) (he : ∀ other, e.spineName = some other → '$' ∉ other.toList)
    (hs : ∀ c ∈ s.head?, c = '$') (ht : ∀ c ∈ t.head?, c = '$')
    (h : ['n', 'a', 'm', 'e', 'd', '$'] ++ name.toList ++ s = table.typeMangle e ++ t) :
    ['n', 'a', 'm', 'e', 'd', '$'] ++ name.toList = table.typeMangle e ∧ s = t := by
  cases e
  case named other _ _ | sum other _ =>
    rw [table.typeMangle_of_declaredName (n := other) rfl] at h ⊢
    rw [List.append_assoc, List.append_assoc, List.append_cancel_left_eq] at h
    obtain ⟨hnames, hst⟩ := append_cancel_of_notMem hname (he other rfl) hs ht h
    exact ⟨by rw [hnames], hst⟩
  all_goals simp [CharTable.typeMangle] at h

theorem typeMangle_fallback_append_cancel {d e : Ty} {s t : List Char}
    (hd : d.usesFallback = true) (he : e.plain = true)
    (h : table.typeMangle d ++ s = table.typeMangle e ++ t) :
    table.typeMangle d = table.typeMangle e ∧ s = t := by
  cases e
  case map | set | function =>
    rw [table.typeMangle_of_usesFallback hd, table.typeMangle_of_usesFallback rfl] at h
    obtain ⟨hde, hst⟩ := table.rendered_append_cancel _ d he s t (by simpa using h)
    exact ⟨by rw [hde], hst⟩
  case record => simp [Ty.plain] at he
  all_goals
    rw [table.typeMangle_of_usesFallback hd] at h
    simp [CharTable.typeMangle, CharTable.chars_named] at h

/-- The tag of a plain type, followed by the end of the symbol or another tag, is read back. -/
theorem typeMangle_append_cancel {s t : List Char} (hs : ∀ c ∈ s.head?, c = '$')
    (ht : ∀ c ∈ t.head?, c = '$') : (d e : Ty) → d.plain = true → e.plain = true →
    (∀ name, d.spineName = some name → '$' ∉ name.toList) →
    (∀ name, e.spineName = some name → '$' ∉ name.toList) →
    table.typeMangle d ++ s = table.typeMangle e ++ t →
    table.typeMangle d = table.typeMangle e ∧ s = t
  | .num, e, _, he, _, _, h | .text, e, _, he, _, _, h | .bool, e, _, he, _, _, h
  | .unit, e, _, he, _, _, h | .generic _, e, _, he, _, _, h => by
    cases e <;> simp_all [CharTable.typeMangle, CharTable.chars_named, Ty.plain]
  | .array d, e, hd, he, hdname, hename, h => by
    cases e
    case array e =>
      simp only [CharTable.typeMangle, List.cons_append, List.cons.injEq, true_and] at h ⊢
      exact typeMangle_append_cancel hs ht d e hd he hdname hename h
    all_goals simp_all [CharTable.typeMangle, CharTable.chars_named, Ty.plain]
  | .named name fields methods, e, _, _, hdname, hename, h => by
    rw [table.typeMangle_of_declaredName (n := name) rfl] at h ⊢
    exact typeMangle_named_append_cancel table (hdname name rfl) hename hs ht h
  | .sum name variants, e, _, _, hdname, hename, h => by
    rw [table.typeMangle_of_declaredName (n := name) rfl] at h ⊢
    exact typeMangle_named_append_cancel table (hdname name rfl) hename hs ht h
  | .map key value, e, _, he, _, _, h | .set element, e, _, he, _, _, h
  | .function parameters returnType, e, _, he, _, _, h =>
    typeMangle_fallback_append_cancel table rfl he h

/-- A parameter list whose symbol can be decoded: plain types, identifiers for names. -/
def DecodableParameters (parameters : List Ty) : Prop :=
  ∀ p ∈ parameters, p.plain = true ∧ ∀ name, p.spineName = some name → '$' ∉ name.toList

theorem head?_flatMap_tags (parameters : List Ty) :
    ∀ c ∈ (parameters.flatMap fun p => '$' :: table.typeMangle p).head?, c = '$' := by
  cases parameters <;> simp

/-- **Symbols decode**: the tags of a parameter list can be read back off its symbol. -/
theorem flatMap_typeMangle_cancel : {ds es : List Ty} → DecodableParameters ds →
    DecodableParameters es →
    (ds.flatMap fun p => '$' :: table.typeMangle p) =
      (es.flatMap fun p => '$' :: table.typeMangle p) →
    ds.map table.typeMangle = es.map table.typeMangle
  | [], [], _, _, _ => rfl
  | [], e :: es, _, _, h => by simp at h
  | d :: ds, [], _, _, h => by simp at h
  | d :: ds, e :: es, hds, hes, h => by
    obtain ⟨hd, hds⟩ := List.forall_mem_cons.mp hds
    obtain ⟨he, hes⟩ := List.forall_mem_cons.mp hes
    rw [List.flatMap_cons, List.flatMap_cons, List.cons_append, List.cons_append,
      List.cons.injEq] at h
    obtain ⟨htag, hrest⟩ := typeMangle_append_cancel table (head?_flatMap_tags table ds)
      (head?_flatMap_tags table es) d e hd.1 he.1 hd.2 he.2 h.2
    rw [List.map_cons, List.map_cons, htag, flatMap_typeMangle_cancel hds hes hrest]

/-! ### Resolving keeps the tag -/

mutual

theorem TypeTable.resolveType_of_bare : (ty : Ty) → ty.bare = true → types.resolveType ty = ty
  | .num, _ | .text, _ | .bool, _ | .unit, _ => rfl
  | .array element, h => by rw [resolveType, resolveType_of_bare element h]
  | .set element, h => by rw [resolveType, resolveType_of_bare element h]
  | .map key value, h => by
    rw [Ty.bare, Bool.and_eq_true] at h
    rw [resolveType, resolveType_of_bare key h.1, resolveType_of_bare value h.2]
  | .function parameters returnType, h => by
    rw [Ty.bare, Bool.and_eq_true] at h
    rw [resolveType, resolveTypes_of_bare parameters h.1, resolveType_of_bare returnType h.2]

theorem TypeTable.resolveTypes_of_bare : (tys : List Ty) → Ty.allBare tys = true →
    types.resolveTypes tys = tys
  | [], _ => rfl
  | ty :: rest, h => by
    rw [Ty.allBare, Bool.and_eq_true] at h
    rw [resolveTypes, resolveType_of_bare ty h.1, resolveTypes_of_bare rest h.2]

end

theorem Ty.plain_of_declaredName {ty : Ty} {name : String} (h : ty.declaredName = some name) :
    ty.plain = true := by
  cases ty <;> first | rfl | simp [Ty.declaredName] at h

/-- Resolving a plain annotation leaves it plain, under the same tag. -/
theorem typeMangle_resolveType : (ty : Ty) → ty.plain = true →
    (types.resolveType ty).plain = true ∧
      table.typeMangle (types.resolveType ty) = table.typeMangle ty
  | .num, _ | .text, _ | .bool, _ | .unit, _ | .generic _, _ | .sum _ _, _ => ⟨rfl, rfl⟩
  | .named name fields methods, _ => by
    have hname := types.declaredName_resolveType (t := .named name fields methods) rfl
    exact ⟨Ty.plain_of_declaredName hname, by
      rw [table.typeMangle_of_declaredName hname, table.typeMangle_of_declaredName rfl]⟩
  | .array element, h => by
    obtain ⟨hplain, htag⟩ := typeMangle_resolveType element h
    rw [TypeTable.resolveType, CharTable.typeMangle, CharTable.typeMangle, htag]
    exact ⟨hplain, rfl⟩
  | .map key value, h => by
    rw [types.resolveType_of_bare (.map key value) h]
    exact ⟨h, rfl⟩
  | .set element, h => by
    rw [types.resolveType_of_bare (.set element) h]
    exact ⟨h, rfl⟩
  | .function parameters returnType, h => by
    rw [types.resolveType_of_bare (.function parameters returnType) h]
    exact ⟨h, rfl⟩

/-- Members with equal tags have, to the checker, one signature. -/
theorem duplicateSignature_of_tags_eq : {ds es : List Ty} → DecodableParameters ds →
    DecodableParameters es → ds.map table.typeMangle = es.map table.typeMangle →
    duplicateSignature (ds.map types.resolveType) (es.map types.resolveType) = true
  | [], [], _, _, _ => rfl
  | [], _ :: _, _, _, h => by simp at h
  | _ :: _, [], _, _, h => by simp at h
  | d :: ds, e :: es, hds, hes, h => by
    obtain ⟨hd, hds⟩ := List.forall_mem_cons.mp hds
    obtain ⟨he, hes⟩ := List.forall_mem_cons.mp hes
    rw [List.map_cons, List.map_cons, List.cons.injEq] at h
    have hrest := duplicateSignature_of_tags_eq hds hes h.2
    obtain ⟨hplain, htag⟩ := typeMangle_resolveType table types e he.1
    have hmatch : typesMatch (types.resolveType d) (types.resolveType e) = true :=
      (typeMangle_eq_iff table types d _ (Ty.groundBeneathFallback_of_plain d hd.1) hplain).mp
        (by rw [h.1, htag])
    simp only [duplicateSignature, List.length_map, List.map_cons, List.length_cons, typesMatchAll,
      hmatch, Bool.true_and, Bool.and_eq_true, beq_iff_eq, Nat.add_right_cancel_iff] at hrest ⊢
    exact hrest

/-! ### Overload sets -/

/-- A set that registers keeps its members, no two of which have one signature. -/
theorem registerOverloads_eq_some : {members registered result : List Overload} →
    registerOverloads types registered members = some result →
    result = registered ++ members ∧
      (∀ o ∈ registered, ∀ m ∈ members,
        duplicateSignature (o.parameters types) (m.parameters types) = false) ∧
      members.Pairwise fun m m' =>
        duplicateSignature (m.parameters types) (m'.parameters types) = false
  | [], registered, result, h => by
    rw [registerOverloads, Option.some.injEq] at h
    simp [h]
  | member :: rest, registered, result, h => by
    rw [registerOverloads] at h
    split_ifs at h with hdup
    rw [Bool.not_eq_true, List.any_eq_false] at hdup
    obtain ⟨hresult, hbefore, hpairwise⟩ := registerOverloads_eq_some h
    refine ⟨by simp [hresult], ?_, ?_⟩
    · intro o ho m hm
      rcases List.mem_cons.mp hm with rfl | hm
      · simpa using hdup o ho
      · exact hbefore o (List.mem_append_left _ ho) m hm
    · rw [List.pairwise_cons]
      exact ⟨fun m hm => hbefore member (by simp) m hm, hpairwise⟩

end

/-! ### A set the code generator cannot dispatch -/

/-- One declared record, `Point = { x :: Num }`. -/
def pointTypes : TypeTable where
  sumTypes _ := none
  recordTypes name := if name = "Point" then some (.named "Point" [("x", .num)] []) else none
  sum_name _ _ h := by simp at h
  record_name name ty h := by
    by_cases hname : name = "Point"
    · subst hname
      exact ⟨_, _, (Option.some.inj (by simpa using h)).symm⟩
    · simp [hname] at h
  site_reserved := rfl

/-- `f = (m :: [|Text => Point|]) -> …` and `f = (n :: Num) -> …`, as written. -/
def mapOfPoints : List Overload :=
  [⟨[.map .text (.named "Point" [] [])]⟩, ⟨[.num]⟩]

/-- The argument's type names `Point` with its fields, the annotation without them. -/
def mapOfPointsArgument : List Ty :=
  [.map .text (.named "Point" [("x", .num)] [])]

end Quilon
