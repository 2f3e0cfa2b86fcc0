import Quilon.Typechecker.TypeDeclarations

/-!
# What an accepted declaration is

A sum declaration the checker accepts has a new name and new variant names, and its payloads name only
itself and types declared before it (`checkSum_ok`).
-/

namespace Quilon

/-- A declared type that is accepted as a payload is a known one. -/
theorem TypeTable.known_of_acceptable {types : TypeTable} {ty : Ty} {name : String}
    (hann : ty.isWritten = true) (h : types.acceptablePayloadType (types.resolveType ty) = true)
    (hname : ty.declaredName = some name) :
    (types.sumTypes name).isSome = true ∨ (types.recordTypes name).isSome = true ∨
      name = "Result" := by
  cases ty with
  | named other fields methods =>
    obtain ⟨rfl, rfl⟩ : fields = [] ∧ methods = [] := by simpa [Ty.isWritten] using hann
    obtain rfl : other = name := Option.some.inj hname
    rw [resolveType] at h
    cases hsum : types.sumTypes other with
    | some sum => exact Or.inl rfl
    | none =>
      refine Or.inr (Or.inl ?_)
      cases hrecord : types.recordTypes other with
      | some record => rfl
      | none =>
        -- a name nothing declares stays a bare name, and no record has it
        rw [hsum, hrecord] at h
        simp only [Option.getD_none] at h
        rw [acceptablePayloadType, hrecord] at h
        exact absurd h (by simp)
  | sum other variants =>
    have hresult : Ty.sum other variants = .result := by simpa [Ty.isWritten] using hann
    cases hresult
    exact Or.inr (Or.inr (Option.some.inj hname).symm)
  | _ => exact absurd hname (by simp [Ty.declaredName])

namespace TypeChecker

variable {checker later : TypeChecker} {name : String} {variants resolved : List (String × List Ty)}

theorem define_ok (h : checker.define name = .ok later) :
    reservedFor name = none ∧ name ∉ checker.scope ∧
      later = { checker with scope := name :: checker.scope } := by
  rw [define] at h
  cases hreserved : reservedFor name with
  | some purpose => rw [hreserved] at h; exact absurd h (by simp)
  | none =>
    rw [hreserved] at h
    by_cases hscope : checker.scope.contains name = true
    · simp only [if_pos hscope, reduceCtorEq] at h
    · simp only [if_neg hscope, Except.ok.injEq] at h
      exact ⟨rfl, by simpa using hscope, h.symm⟩

/-- The resolved variants are the declared ones, each payload resolved and acceptable. -/
theorem resolveVariants_ok (harity : ∀ variant ∈ variants, variant.2.length ≤ 1)
    (h : checker.resolveVariants variants = .ok resolved) :
    resolved = variants.map (fun variant => (variant.1, variant.2.map checker.types.resolveType)) ∧
      ∀ variant ∈ variants, ∀ ty ∈ variant.2,
        checker.types.acceptablePayloadType (checker.types.resolveType ty) = true := by
  induction variants generalizing resolved with
  | nil =>
    obtain rfl : resolved = [] := (Except.ok.inj h).symm
    exact ⟨rfl, nofun⟩
  | cons variant rest ih =>
    obtain ⟨v, fields⟩ := variant
    rw [resolveVariants] at h
    cases hfirst : checker.resolveVariant (v, fields) with
    | error error => rw [hfirst] at h; exact absurd h (by simp)
    | ok first =>
      rw [hfirst] at h
      cases hrest : checker.resolveVariants rest with
      | error error => rw [hrest] at h; exact absurd h (by simp)
      | ok others =>
        rw [hrest] at h
        obtain rfl : resolved = first :: others := (Except.ok.inj h).symm
        obtain ⟨hothers, haccepted⟩ :=
          ih (fun variant hvariant => harity variant (List.mem_cons_of_mem _ hvariant)) hrest
        have hone : first = (v, fields.map checker.types.resolveType) ∧ ∀ ty ∈ fields,
            checker.types.acceptablePayloadType (checker.types.resolveType ty) = true := by
          have hlength : fields.length ≤ 1 := harity _ (List.mem_cons_self ..)
          rw [resolveVariant] at hfirst
          cases fields with
          | nil => exact ⟨(Except.ok.inj hfirst).symm, nofun⟩
          | cons ty others =>
            obtain rfl : others = [] := List.length_eq_zero_iff.mp (by simpa using hlength)
            simp only [List.head?_cons] at hfirst
            by_cases hty :
                checker.types.acceptablePayloadType (checker.types.resolveType ty) = true
            · rw [if_pos hty] at hfirst
              exact ⟨(Except.ok.inj hfirst).symm, by simpa using hty⟩
            · rw [if_neg hty] at hfirst
              exact absurd hfirst (by simp)
        refine ⟨by rw [hone.1, hothers]; rfl, fun variant hvariant => ?_⟩
        cases hvariant with
        | head => exact hone.2
        | tail _ hvariant => exact haccepted variant hvariant

/-- Accepted variant names are new, within the declaration and against every other sum. -/
theorem checkVariantNames_ok {seen : List String}
    (h : checker.checkVariantNames seen variants = .ok ()) :
    (variants.map (·.1)).Nodup ∧ ∀ v ∈ variants.map (·.1),
      v ∉ seen ∧ checker.sumVariantOwner v = none := by
  induction variants generalizing seen with
  | nil => exact ⟨List.nodup_nil, nofun⟩
  | cons variant rest ih =>
    obtain ⟨v, fields⟩ := variant
    rw [checkVariantNames] at h
    by_cases hseen : (seen.contains v || (checker.sumVariantOwner v).isSome) = true
    · rw [if_pos hseen] at h
      exact absurd h (by simp)
    · rw [if_neg hseen] at h
      obtain ⟨hnodup, hnew⟩ := ih h
      simp only [Bool.or_eq_true, not_or, List.contains_iff_mem, Bool.not_eq_true,
        Option.isSome_eq_false_iff, Option.isNone_iff_eq_none] at hseen
      rw [List.map_cons]
      refine ⟨List.nodup_cons.mpr ⟨fun hmem => (hnew v hmem).1 (List.mem_cons_self ..), hnodup⟩,
        fun other hother => ?_⟩
      cases hother with
      | head => exact hseen
      | tail _ hother =>
        obtain ⟨hout, howner⟩ := hnew other hother
        exact ⟨fun hmem => hout (List.mem_cons_of_mem _ hmem), howner⟩

/-- A name without an owner is a variant of no registered sum. -/
theorem notMem_of_owner_eq_none {variant : String} (h : checker.sumVariantOwner variant = none)
    {sum : String} (hsum : sum ∈ checker.sumNames) {n : String}
    (htype : checker.types.sumTypes sum = some (.sum n variants)) :
    variant ∉ variants.map (·.1) := by
  intro hmem
  rw [sumVariantOwner, List.find?_eq_none] at h
  have hno := h sum hsum
  rw [htype] at hno
  obtain ⟨pair, hpair, rfl⟩ := List.mem_map.mp hmem
  exact hno (List.any_eq_true.mpr ⟨pair, hpair, by simp⟩)

theorem defineConstants_ok (h : checker.defineConstants variants = .ok later) :
    later.sumNames = checker.sumNames ∧ later.types = checker.types ∧
      ∀ n ∈ checker.scope, n ∈ later.scope := by
  induction variants generalizing checker with
  | nil =>
    obtain rfl : checker = later := Except.ok.inj h
    exact ⟨rfl, rfl, fun _ hn => hn⟩
  | cons variant rest ih =>
    obtain ⟨v, fields⟩ := variant
    cases fields with
    | cons ty fields => exact ih (by simpa [defineConstants] using h)
    | nil =>
      rw [defineConstants] at h
      cases hdefine : checker.define v with
      | error error => rw [hdefine] at h; exact absurd h (by simp)
      | ok defined =>
        rw [hdefine] at h
        obtain ⟨-, -, rfl⟩ := define_ok hdefine
        obtain ⟨hnames, htypes, hscope⟩ := ih h
        exact ⟨hnames, htypes, fun n hn => hscope n (List.mem_cons_of_mem _ hn)⟩

/-- The checker behind an accepted sum, and what its acceptance says.  `seen` are the types its
payloads were resolved against. -/
structure SumAccepted (checker : TypeChecker) (name : String) (variants : List (String × List Ty))
    (later : TypeChecker) (seen : TypeTable) : Prop where
  sumNames : later.sumNames = name :: checker.sumNames
  scope : ∀ n ∈ checker.scope, n ∈ later.scope
  sumTypes : later.types.sumTypes = Function.update checker.types.sumTypes name
    (some (.sum name (variants.map fun v => (v.1, v.2.map seen.resolveType))))
  recordTypes : later.types.recordTypes = Function.update checker.types.recordTypes name none
  seenSums : seen.sumTypes = Function.update checker.types.sumTypes name (some (.sum name []))
  seenRecords : seen.recordTypes =
    Function.update checker.types.recordTypes name (some (.named name [] []))
  names : (variants.map (·.1)).Nodup
  fresh : ∀ v ∈ variants.map (·.1), ∀ sum ∈ checker.sumNames, sum ≠ name → ∀ n others,
    checker.types.sumTypes sum = some (.sum n others) → v ∉ others.map (·.1)
  acceptable : ∀ v ∈ variants, ∀ ty ∈ v.2,
    seen.acceptablePayloadType (seen.resolveType ty) = true

theorem checkSum_ok {h : name ≠ "Site"} (harity : ∀ variant ∈ variants, variant.2.length ≤ 1)
    (hok : checker.checkSum name h variants = .ok later) :
    ∃ seen, SumAccepted checker name variants later seen := by
  let seen := (checker.types.setRecord name (some ([], []))).setSum name [] h
  rw [checkSum] at hok
  dsimp only at hok
  split at hok
  case h_1 => cases hok
  case h_2 resolved hresolve =>
    obtain ⟨rfl, hacceptable⟩ := resolveVariants_ok harity hresolve
    split at hok
    case h_1 => cases hok
    case h_2 hnames =>
      obtain ⟨hnodup, hnew⟩ := checkVariantNames_ok hnames
      rw [List.map_map] at hnodup hnew
      split at hok
      case h_1 => cases hok
      case h_2 defined hdefine =>
        obtain rfl := Except.ok.inj hok
        obtain ⟨hsums, htypes, hscope⟩ := defineConstants_ok hdefine
        refine ⟨seen, hsums, hscope, ?_, ?_, rfl, rfl, hnodup, ?_, hacceptable⟩
        · rw [TypeTable.setRecord, htypes]
          exact Function.update_idem _ _ _
        · rw [TypeTable.setRecord, htypes]
          exact Function.update_idem _ _ _
        · intro v hv sum hsum hne n others htype
          refine notMem_of_owner_eq_none (hnew v hv).2 (List.mem_cons_of_mem _ hsum) (n := n) ?_
          rw [← htype]
          exact Function.update_of_ne hne _ _

/-- The checker behind an accepted record. -/
theorem checkRecord_ok {fields : List (String × Ty)} {methods : List String}
    (h : checker.checkRecord name fields methods = .ok later) :
    later.sumNames = checker.sumNames ∧ later.scope = checker.scope ∧
      later.types.sumTypes = checker.types.sumTypes ∧
      ∀ other, other ≠ name →
        later.types.recordTypes other = checker.types.recordTypes other := by
  rw [checkRecord] at h
  cases hfields : checkFields [] fields with
  | error error => simp only [hfields, reduceCtorEq] at h
  | ok _ =>
    simp only [hfields, Except.ok.injEq] at h
    subst h
    refine ⟨rfl, rfl, rfl, fun other hne => ?_⟩
    exact (Function.update_of_ne hne _ _).trans (Function.update_of_ne hne _ _)

end TypeChecker

end Quilon
