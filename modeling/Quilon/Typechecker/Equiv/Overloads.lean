import Mathlib.Data.List.Forall2
import Mathlib.Data.List.Perm.Basic
import Quilon.Typechecker.Registration

/-!
# Which calls an accepted overload set leaves open

`types_match` compares what dispatch sees of two types (`typesMatch_iff`), so two members that
accept the same arguments in full have one signature, and registration refuses the second of them.
What is left is a member that accepts the arguments in full beside one that has a trailing `Site`
filled in: those calls, and no others, are ambiguous (`registeredOverloads_disjoint`).  The order of
the registrations changes none of it (`registerMembers_perm`).
-/

namespace Quilon

/-! ### What dispatch sees of a type -/

mutual

/-- The type with everything left out that `types_match` does not compare; an anonymous record
matches nothing. -/
def Ty.dispatched : Ty → Option Ty
  | .num | .generic _ => some .num
  | .text => some .text
  | .bool => some .bool
  | .unit => some .unit
  | .array element => element.dispatched.map .array
  | .map key value => key.dispatched.bind fun key => value.dispatched.map (.map key)
  | .set element => element.dispatched.map .set
  | .record _ => none
  | .named name _ _ | .sum name _ => some (.named name [] [])
  | .function parameters returnType =>
    (Ty.dispatchedAll parameters).bind fun parameters =>
      returnType.dispatched.map (.function parameters)

def Ty.dispatchedAll : List Ty → Option (List Ty)
  | [] => some []
  | ty :: rest => ty.dispatched.bind fun ty => (Ty.dispatchedAll rest).map (ty :: ·)

end

/-- The same is seen of both. -/
def SameDispatch {α : Type*} (a b : Option α) : Prop := ∃ key, a = some key ∧ b = some key

section SameDispatch

variable {α β γ : Type*} {a b c : Option α} {a' b' : Option β}

theorem SameDispatch.symm (h : SameDispatch a b) : SameDispatch b a := by
  obtain ⟨key, ha, hb⟩ := h
  exact ⟨key, hb, ha⟩

theorem SameDispatch.trans (h : SameDispatch a b) (h' : SameDispatch b c) : SameDispatch a c := by
  obtain ⟨key, ha, hb⟩ := h
  obtain ⟨key', hb', hc⟩ := h'
  have hkey : key = key' := Option.some.inj (hb.symm.trans hb')
  exact ⟨key, ha, hkey ▸ hc⟩

@[simp] theorem sameDispatch_some_left {key : α} : SameDispatch (some key) b ↔ b = some key := by
  constructor
  · rintro ⟨key', hkey, hb⟩
    exact hkey ▸ hb
  · exact fun h => ⟨key, rfl, h⟩

@[simp] theorem sameDispatch_some_right {key : α} : SameDispatch a (some key) ↔ a = some key :=
  ⟨fun h => sameDispatch_some_left.mp h.symm, fun h => ⟨key, h, rfl⟩⟩

@[simp] theorem not_sameDispatch_none_left : ¬ SameDispatch none b :=
  fun ⟨_, h, _⟩ => absurd h (Option.some_ne_none _).symm

@[simp] theorem not_sameDispatch_none_right : ¬ SameDispatch a none :=
  fun h => not_sameDispatch_none_left h.symm

theorem sameDispatch_map {f : α → β} (hf : Function.Injective f) :
    SameDispatch (a.map f) (b.map f) ↔ SameDispatch a b := by
  constructor
  · rintro ⟨key, ha, hb⟩
    obtain ⟨x, hx, rfl⟩ := Option.map_eq_some_iff.mp ha
    obtain ⟨y, hy, hxy⟩ := Option.map_eq_some_iff.mp hb
    exact ⟨x, hx, hf hxy ▸ hy⟩
  · rintro ⟨key, rfl, rfl⟩
    exact ⟨f key, rfl, rfl⟩

theorem sameDispatch_bind {f : α → β → γ} (hf : Function.Injective2 f) :
    SameDispatch (a.bind fun x => a'.map (f x)) (b.bind fun x => b'.map (f x)) ↔
      SameDispatch a b ∧ SameDispatch a' b' := by
  constructor
  · rintro ⟨key, ha, hb⟩
    obtain ⟨x, hx, hrest⟩ := Option.bind_eq_some_iff.mp ha
    obtain ⟨x', hx', rfl⟩ := Option.map_eq_some_iff.mp hrest
    obtain ⟨y, hy, hrest⟩ := Option.bind_eq_some_iff.mp hb
    obtain ⟨y', hy', hxy⟩ := Option.map_eq_some_iff.mp hrest
    obtain ⟨rfl, rfl⟩ := hf hxy
    exact ⟨⟨y, hx, hy⟩, y', hx', hy'⟩
  · rintro ⟨⟨key, rfl, rfl⟩, key', rfl, rfl⟩
    exact ⟨f key key', rfl, rfl⟩

end SameDispatch

theorem Ty.length_dispatchedAll : {tys keys : List Ty} → Ty.dispatchedAll tys = some keys →
    keys.length = tys.length
  | [], keys, h => by
    rw [Ty.dispatchedAll, Option.some.injEq] at h
    rw [← h]
  | ty :: rest, keys, h => by
    rw [Ty.dispatchedAll] at h
    obtain ⟨key, -, hrest⟩ := Option.bind_eq_some_iff.mp h
    obtain ⟨keys, hkeys, rfl⟩ := Option.map_eq_some_iff.mp hrest
    rw [List.length_cons, List.length_cons, Ty.length_dispatchedAll hkeys]

/-- Types with the same dispatch are as many. -/
theorem SameDispatch.length_eq {as bs : List Ty}
    (h : SameDispatch (Ty.dispatchedAll as) (Ty.dispatchedAll bs)) : as.length = bs.length := by
  obtain ⟨keys, has, hbs⟩ := h
  rw [← Ty.length_dispatchedAll has, Ty.length_dispatchedAll hbs]

mutual

/-- Two types match exactly when dispatch sees the same of them. -/
theorem typesMatch_iff : (a b : Ty) →
    (typesMatch a b = true ↔ SameDispatch a.dispatched b.dispatched)
  | .num, b | .text, b | .bool, b | .unit, b | .generic _, b | .record _, b => by
    cases b <;> simp [typesMatch, Ty.isNumOrGeneric, Ty.dispatched, Option.bind_eq_some_iff]
  | .named _ _ _, b | .sum _ _, b => by
    cases b
    case named | sum =>
      simp only [typesMatch, Ty.dispatched, beq_iff_eq, sameDispatch_some_left, Option.some.injEq,
        Ty.named.injEq, and_true]
      exact eq_comm
    all_goals simp [typesMatch, Ty.isNumOrGeneric, Ty.dispatched, Option.bind_eq_some_iff]
  | .array a, b => by
    cases b
    case array b =>
      rw [typesMatch, typesMatch_iff a b]
      exact (sameDispatch_map fun _ _ h => Ty.array.inj h).symm
    all_goals
      simp [typesMatch, Ty.isNumOrGeneric, Ty.dispatched, SameDispatch, Option.bind_eq_some_iff]
  | .set a, b => by
    cases b
    case set b =>
      rw [typesMatch, typesMatch_iff a b]
      exact (sameDispatch_map fun _ _ h => Ty.set.inj h).symm
    all_goals
      simp [typesMatch, Ty.isNumOrGeneric, Ty.dispatched, SameDispatch, Option.bind_eq_some_iff]
  | .map key value, b => by
    cases b
    case map key' value' =>
      rw [typesMatch, Bool.and_eq_true, typesMatch_iff key key', typesMatch_iff value value']
      exact (sameDispatch_bind fun _ _ _ _ h => Ty.map.inj h).symm
    all_goals
      simp [typesMatch, Ty.isNumOrGeneric, Ty.dispatched, SameDispatch, Option.bind_eq_some_iff]
  | .function parameters returnType, b => by
    cases b
    case function parameters' returnType' =>
      rw [typesMatch, ← duplicateSignature, Bool.and_eq_true, duplicateSignature_iff,
        typesMatch_iff returnType returnType']
      exact (sameDispatch_bind fun _ _ _ _ h => Ty.function.inj h).symm
    all_goals
      simp [typesMatch, Ty.isNumOrGeneric, Ty.dispatched, SameDispatch, Option.bind_eq_some_iff]

theorem duplicateSignature_iff : (as bs : List Ty) →
    (duplicateSignature as bs = true ↔ SameDispatch (Ty.dispatchedAll as) (Ty.dispatchedAll bs))
  | [], [] => by simp [duplicateSignature, typesMatchAll, Ty.dispatchedAll]
  | [], b :: bs => by
    have hlength : ¬ SameDispatch (Ty.dispatchedAll []) (Ty.dispatchedAll (b :: bs)) :=
      fun h => Nat.succ_ne_zero _ h.length_eq.symm
    simp [duplicateSignature, hlength]
  | a :: as, [] => by
    have hlength : ¬ SameDispatch (Ty.dispatchedAll (a :: as)) (Ty.dispatchedAll []) :=
      fun h => Nat.succ_ne_zero _ h.length_eq
    simp [duplicateSignature, hlength]
  | a :: as, b :: bs => by
    have hhead := typesMatch_iff a b
    have htail := duplicateSignature_iff as bs
    rw [Ty.dispatchedAll, Ty.dispatchedAll, sameDispatch_bind fun _ _ _ _ => List.cons.inj,
      ← hhead, ← htail]
    simp only [duplicateSignature, List.length_cons, typesMatchAll, Bool.and_eq_true, beq_iff_eq,
      Nat.add_right_cancel_iff]
    exact and_left_comm

end

/-! ### What a member accepts -/

/-- The arguments match the parameters but for a trailing `Site`, which is filled in. -/
def AcceptsFilled (parameters argTypes : List Ty) : Prop :=
  ∃ front site, parameters = front ++ [site] ∧ isSiteType site = true ∧
    duplicateSignature front argTypes = true

section Signatures

variable {as bs cs as' bs' : List Ty}

theorem typesMatchAll_eq_all : (as bs : List Ty) →
    typesMatchAll as bs = (as.zip bs).all fun (a, b) => typesMatch a b
  | [], _ => by rw [typesMatchAll, List.zip_nil_left, List.all_nil]; simp
  | _ :: _, [] => by rw [typesMatchAll, List.zip_nil_right, List.all_nil]; simp
  | a :: as, b :: bs => by
    rw [typesMatchAll, List.zip_cons_cons, List.all_cons, typesMatchAll_eq_all as bs]

theorem duplicateSignature_symm (h : duplicateSignature as bs = true) :
    duplicateSignature bs as = true :=
  (duplicateSignature_iff _ _).mpr ((duplicateSignature_iff _ _).mp h).symm

theorem duplicateSignature_trans (h : duplicateSignature as bs = true)
    (h' : duplicateSignature bs cs = true) : duplicateSignature as cs = true :=
  (duplicateSignature_iff _ _).mpr
    (((duplicateSignature_iff _ _).mp h).trans ((duplicateSignature_iff _ _).mp h'))

theorem length_eq_of_duplicateSignature (h : duplicateSignature as bs = true) :
    as.length = bs.length :=
  ((duplicateSignature_iff _ _).mp h).length_eq

theorem duplicateSignature_iff_forall₂ :
    duplicateSignature as bs = true ↔ List.Forall₂ (fun a b => typesMatch a b = true) as bs := by
  rw [List.forall₂_iff_zip, duplicateSignature, Bool.and_eq_true, beq_iff_eq, typesMatchAll_eq_all,
    List.all_eq_true, Prod.forall]

theorem typesMatch_site {site site' : Ty} (h : isSiteType site = true)
    (h' : isSiteType site' = true) : typesMatch site site' = true := by
  cases site <;> simp only [isSiteType, beq_iff_eq, Bool.false_eq_true] at h
  cases site' <;> simp only [isSiteType, beq_iff_eq, Bool.false_eq_true] at h'
  rw [typesMatch, h, h', beq_self_eq_true]

/-- Members that have a `Site` filled in for the same arguments have one signature. -/
theorem duplicateSignature_of_acceptsFilled (h : AcceptsFilled as cs) (h' : AcceptsFilled bs cs) :
    duplicateSignature as bs = true := by
  obtain ⟨front, site, rfl, hsite, hfront⟩ := h
  obtain ⟨front', site', rfl, hsite', hfront'⟩ := h'
  have hfronts := duplicateSignature_iff_forall₂.mp
    (duplicateSignature_trans hfront (duplicateSignature_symm hfront'))
  rw [duplicateSignature_iff_forall₂]
  exact List.rel_append hfronts (.cons (typesMatch_site hsite hsite') .nil)

theorem AcceptsFilled.length_eq (h : AcceptsFilled as bs) : as.length = bs.length + 1 := by
  obtain ⟨front, site, rfl, -, hfront⟩ := h
  rw [List.length_append, length_eq_of_duplicateSignature hfront, List.length_singleton]

/-- A member that has a `Site` filled in, beside one that takes the same arguments in full. -/
theorem AcceptsFilled.of_duplicateSignature (h : AcceptsFilled as bs)
    (h' : duplicateSignature cs bs = true) : AcceptsFilled as cs := by
  obtain ⟨front, site, rfl, hsite, hfront⟩ := h
  exact ⟨front, site, rfl, hsite, duplicateSignature_trans hfront (duplicateSignature_symm h')⟩

theorem takesCallSite_iff :
    takesCallSite as = true ↔ ∃ front site, as = front ++ [site] ∧ isSiteType site = true := by
  rw [takesCallSite, Option.any_eq_true]
  constructor
  · rintro ⟨site, hlast, hsite⟩
    obtain ⟨front, rfl⟩ := List.getLast?_eq_some_iff.mp hlast
    exact ⟨front, site, rfl, hsite⟩
  · rintro ⟨front, site, rfl, hsite⟩
    exact ⟨site, List.getLast?_concat, hsite⟩

/-- A member accepts arguments in full, or with a trailing `Site` filled in. -/
theorem parametersAccept_iff :
    parametersAccept as bs typesMatch = true ↔
      duplicateSignature as bs = true ∨ AcceptsFilled as bs := by
  have hall : ((as.zip bs).all fun (a, b) => typesMatch a b) = typesMatchAll as bs :=
    (typesMatchAll_eq_all as bs).symm
  rw [parametersAccept, hall]
  by_cases hlength : as.length = bs.length
  · have hfilled : ¬ AcceptsFilled as bs := fun h => by have := h.length_eq; omega
    simp [hlength, hfilled, duplicateSignature]
  · have hexact : ¬ duplicateSignature as bs = true := fun h =>
      hlength (length_eq_of_duplicateSignature h)
    by_cases hfills : fillsCallSite as bs.length = true
    · rw [fillsCallSite, Bool.and_eq_true, beq_iff_eq, takesCallSite_iff] at hfills
      obtain ⟨hlast, front, site, rfl, hsite⟩ := hfills
      have hfront : front.length = bs.length := by
        rw [List.length_append, List.length_singleton] at hlast
        omega
      -- The arguments are as many as the parameters before the `Site`, so the `zip` stops there.
      have hzip : typesMatchAll (front ++ [site]) bs = duplicateSignature front bs := by
        rw [typesMatchAll_eq_all, ← List.append_nil bs, List.zip_append hfront, List.zip_nil_right,
          List.append_nil, List.append_nil, ← typesMatchAll_eq_all, duplicateSignature, hfront,
          beq_self_eq_true, Bool.true_and]
      have hfilled : AcceptsFilled (front ++ [site]) bs ↔ duplicateSignature front bs = true := by
        constructor
        · rintro ⟨front', site', heq, -, hmatch⟩
          exact (List.append_inj_left' heq rfl).symm ▸ hmatch
        · exact fun hmatch => ⟨front, site, rfl, hsite, hmatch⟩
      have htakes : takesCallSite (front ++ [site]) = true :=
        takesCallSite_iff.mpr ⟨front, site, rfl, hsite⟩
      simp [fillsCallSite, hlast, htakes, hzip, hfilled, hexact]
    · have hfilled : ¬ AcceptsFilled as bs := by
        rintro ⟨front, site, rfl, hsite, hfront⟩
        have hlast := length_eq_of_duplicateSignature hfront
        have htakes : takesCallSite (front ++ [site]) = true :=
          takesCallSite_iff.mpr ⟨front, site, rfl, hsite⟩
        simp [fillsCallSite, hlast, htakes] at hfills
      simp [hlength, hfills, hexact, hfilled]

end Signatures

/-! ### Members one by one -/

/-- No two members have one signature. -/
def DistinctMembers (members : List RegisteredOverload) : Prop :=
  members.Pairwise fun m m' => duplicateSignature m.parameters m'.parameters = false

/-- Both ways of accepting the arguments are open. -/
structure AmbiguousPair (m m' : RegisteredOverload) (argTypes : List Ty) : Prop where
  exact : duplicateSignature m.parameters argTypes = true
  filled : AcceptsFilled m'.parameters argTypes

section Matches

variable {tables : OverloadTables} {name : String} {argTypes : List Ty}
  {m m' : RegisteredOverload}

theorem mem_matches : m ∈ tables.matches name argTypes ↔ m ∈ tables.overloads name ∧
    (duplicateSignature m.parameters argTypes = true ∨ AcceptsFilled m.parameters argTypes) := by
  rw [OverloadTables.matches, List.mem_filter, parametersAccept_iff]

/-- Two members that accept the same arguments in the same way have one signature. -/
theorem ways_ne_of_distinct (h : duplicateSignature m.parameters m'.parameters = false)
    (argTypes : List Ty) :
    ¬ (duplicateSignature m.parameters argTypes = true ∧
        duplicateSignature m'.parameters argTypes = true) ∧
      ¬ (AcceptsFilled m.parameters argTypes ∧ AcceptsFilled m'.parameters argTypes) := by
  have hne : ¬ duplicateSignature m.parameters m'.parameters = true := by simp [h]
  constructor
  · rintro ⟨hm, hm'⟩
    exact hne (duplicateSignature_trans hm (duplicateSignature_symm hm'))
  · rintro ⟨hm, hm'⟩
    exact hne (duplicateSignature_of_acceptsFilled hm hm')

/-- The members that accept the arguments are one or none, or a pair that differs in a `Site`. -/
theorem matches_cases (h : DistinctMembers (tables.overloads name)) (argTypes : List Ty) :
    (tables.matches name argTypes).length ≤ 1 ∨ ∃ m m', AmbiguousPair m m' argTypes ∧
      (tables.matches name argTypes = [m, m'] ∨ tables.matches name argTypes = [m', m]) := by
  have hpairwise : DistinctMembers (tables.matches name argTypes) := h.filter _
  have hways : ∀ o ∈ tables.matches name argTypes,
      duplicateSignature o.parameters argTypes = true ∨ AcceptsFilled o.parameters argTypes :=
    fun o ho => (mem_matches.mp ho).2
  match tables.matches name argTypes, hpairwise, hways with
  | [], _, _ | [_], _, _ => exact .inl (by simp)
  | m :: m' :: rest, hpairwise, hways =>
    obtain ⟨hm, hrest⟩ := List.pairwise_cons.mp hpairwise
    obtain ⟨hm', -⟩ := List.pairwise_cons.mp hrest
    have hpair := ways_ne_of_distinct (hm m' (by simp)) argTypes
    have hfirst := hways m (by simp)
    have hsecond := hways m' (by simp)
    -- A third member would accept the arguments in the way of one of the first two.
    have hnil : rest = [] := by
      by_contra hne
      obtain ⟨o, ho⟩ := List.exists_mem_of_ne_nil rest hne
      have hthird := hways o (by simp [ho])
      have hmo := ways_ne_of_distinct (hm o (by simp [ho])) argTypes
      have hmo' := ways_ne_of_distinct (hm' o ho) argTypes
      tauto
    subst hnil
    rcases hfirst with hexact | hfilled
    · have hfilled' : AcceptsFilled m'.parameters argTypes := by tauto
      exact .inr ⟨m, m', ⟨hexact, hfilled'⟩, .inl rfl⟩
    · have hexact' : duplicateSignature m'.parameters argTypes = true := by tauto
      exact .inr ⟨m', m, ⟨hexact', hfilled⟩, .inr rfl⟩

/-- A pair of the set that accepts the arguments both ways is all that accepts them. -/
theorem length_matches_of_pair (h : AmbiguousPair m m' argTypes)
    (hm : m ∈ tables.overloads name) (hm' : m' ∈ tables.overloads name) :
    1 < (tables.matches name argTypes).length := by
  have hmem : m ∈ tables.matches name argTypes := mem_matches.mpr ⟨hm, .inl h.exact⟩
  have hmem' : m' ∈ tables.matches name argTypes := mem_matches.mpr ⟨hm', .inr h.filled⟩
  have hne : m ≠ m' := by
    rintro rfl
    have hexact := length_eq_of_duplicateSignature h.exact
    have hfilled := h.filled.length_eq
    omega
  match tables.matches name argTypes, hmem, hmem' with
  | [only], hmem, hmem' =>
    exact absurd ((List.mem_singleton.mp hmem).trans (List.mem_singleton.mp hmem').symm) hne
  | _ :: _ :: _, _, _ => simp

/-- Where several members accept the arguments, a pair of them does so both ways. -/
theorem exists_pair_of_one_lt (h : DistinctMembers (tables.overloads name))
    (hlength : 1 < (tables.matches name argTypes).length) :
    ∃ m ∈ tables.overloads name, ∃ m' ∈ tables.overloads name, AmbiguousPair m m' argTypes := by
  rcases matches_cases h argTypes with hone | ⟨m, m', hpair, hmatches⟩
  · omega
  · have hmem : m ∈ tables.matches name argTypes := by rcases hmatches with h | h <;> simp [h]
    have hmem' : m' ∈ tables.matches name argTypes := by rcases hmatches with h | h <;> simp [h]
    exact ⟨m, (mem_matches.mp hmem).1, m', (mem_matches.mp hmem').1, hpair⟩

end Matches

/-! ### What registration leaves in the tables -/

def Registration.member (registration : Registration) : RegisteredOverload :=
  ⟨registration.parameters, registration.ret, registration.isStatic, false⟩

/-- A comparison's return type is `Bool` or left out. -/
def Registration.ReturnsBool (registration : Registration) : Prop :=
  isComparisonOperator registration.name = true → ∀ ret ∈ registration.ret, ret.isBool = true

/-- The members added under a name, in order. -/
def addedTo (name : String) (registrations : List Registration) : List RegisteredOverload :=
  (registrations.filter (·.name = name)).map Registration.member

/-- What `add_builtin_overloads` has put into the set of a name. -/
def builtinsOf (name : String) : List RegisteredOverload :=
  (addedBuiltins.filter (·.1 = name)).map (·.2)

theorem overloads_addOverload (tables : OverloadTables) (added name : String)
    (overload : RegisteredOverload) : (tables.addOverload added overload).overloads name =
      tables.overloads name ++ if added = name then [overload] else [] := by
  by_cases h : added = name
  · subst h
    simp [OverloadTables.addOverload]
  · simp [OverloadTables.addOverload, Function.update_of_ne (Ne.symm h), h]

theorem overloads_foldl_addOverload (added : List (String × RegisteredOverload))
    (tables : OverloadTables) (name : String) :
    (added.foldl (fun tables added => tables.addOverload added.1 added.2) tables).overloads name =
      tables.overloads name ++ (added.filter (·.1 = name)).map (·.2) := by
  induction added generalizing tables with
  | nil => simp
  | cons first added ih =>
    rw [List.foldl_cons, ih, overloads_addOverload, List.append_assoc]
    by_cases h : first.1 = name <;> simp [h]

theorem overloads_builtins (name : String) :
    OverloadTables.empty.addBuiltinOverloads.overloads name = builtinsOf name := by
  rw [OverloadTables.addBuiltinOverloads, overloads_foldl_addOverload]
  exact List.nil_append _

/-- No built-in name has two members of one signature. -/
theorem distinct_builtinsOf (name : String) : DistinctMembers (builtinsOf name) := by
  have hall : addedBuiltins.Pairwise fun added added' => added.1 = added'.1 →
      duplicateSignature added.2.parameters added'.2.parameters = false := by
    decide +kernel
  unfold DistinctMembers builtinsOf
  rw [List.pairwise_map]
  refine (hall.filter _).imp_of_mem fun {a b} ha hb h => h ?_
  have hfirst := (List.mem_filter.mp ha).2
  have hsecond := (List.mem_filter.mp hb).2
  simp only [decide_eq_true_eq] at hfirst hsecond
  rw [hfirst, hsecond]

/-- What one registration does: it is refused, or its member stands last in its set. -/
theorem finishOverloadRegistration_cases (tables : OverloadTables) (r : Registration) :
    (∃ e, tables.finishOverloadRegistration r = .error e) ∧
        ¬ (r.ReturnsBool ∧ ∀ o ∈ tables.overloads r.name,
          duplicateSignature o.parameters r.parameters = false) ∨
      (∃ tables', tables.finishOverloadRegistration r = .ok tables' ∧
          ∀ name, tables'.overloads name = tables.overloads name ++ addedTo name [r]) ∧
        r.ReturnsBool ∧ ∀ o ∈ tables.overloads r.name,
          duplicateSignature o.parameters r.parameters = false := by
  have hbool : r.ReturnsBool ↔ (r.ret.filter fun ret =>
      isComparisonOperator r.name && !ret.isBool) = none := by
    rw [Option.filter_eq_none_iff]
    unfold Registration.ReturnsBool
    simp only [Bool.and_eq_true, Bool.not_eq_true', not_and, Bool.not_eq_false]
    exact ⟨fun h ret hret hname => h hname ret hret, fun h hname ret hret => h ret hret hname⟩
  unfold OverloadTables.finishOverloadRegistration
  cases hret : r.ret.filter fun ret => isComparisonOperator r.name && !ret.isBool with
  | some ret =>
    refine .inl ⟨⟨_, rfl⟩, fun h => ?_⟩
    rw [hbool.mp h.1] at hret
    cases hret
  | none =>
    by_cases hdup : ((tables.overloads r.name).any fun o =>
        duplicateSignature o.parameters r.parameters) = true
    · refine .inl ⟨⟨_, if_pos hdup⟩, fun h => ?_⟩
      obtain ⟨o, ho, hsame⟩ := List.any_eq_true.mp hdup
      rw [h.2 o ho] at hsame
      cases hsame
    · refine .inr ⟨⟨_, if_neg hdup, fun name => ?_⟩, hbool.mpr hret, ?_⟩
      · rw [overloads_addOverload]
        by_cases hname : r.name = name <;> simp [addedTo, hname, Registration.member]
      · rw [Bool.not_eq_true, List.any_eq_false] at hdup
        exact fun o ho => by simpa using hdup o ho

theorem addedTo_cons (name : String) (r : Registration) (rest : List Registration) :
    addedTo name (r :: rest) = addedTo name [r] ++ addedTo name rest := by
  by_cases h : r.name = name <;> simp [addedTo, h]

/-- A sequence is accepted when its comparisons return `Bool` and no set gets two members of one
signature; then each set has its members added in order. -/
theorem foldlM_register (registrations : List Registration) (tables : OverloadTables)
    (hdistinct : ∀ name, DistinctMembers (tables.overloads name)) :
    ((∃ result, registrations.foldlM OverloadTables.finishOverloadRegistration tables =
          .ok result) ↔
        (∀ r ∈ registrations, r.ReturnsBool) ∧
          ∀ name, DistinctMembers (tables.overloads name ++ addedTo name registrations)) ∧
      ∀ result, registrations.foldlM OverloadTables.finishOverloadRegistration tables =
        .ok result →
          ∀ name, result.overloads name = tables.overloads name ++ addedTo name registrations := by
  induction registrations generalizing tables with
  | nil =>
    constructor
    · have haccepted : ∀ name, DistinctMembers (tables.overloads name ++ addedTo name []) := by
        intro name
        rw [addedTo, List.filter_nil, List.map_nil, List.append_nil]
        exact hdistinct name
      exact ⟨fun _ => ⟨by simp, haccepted⟩, fun _ => ⟨tables, rfl⟩⟩
    · intro result h name
      rw [List.foldlM_nil] at h
      rw [← Except.ok.inj h, addedTo, List.filter_nil, List.map_nil, List.append_nil]
  | cons r rest ih =>
    rw [List.foldlM_cons]
    -- The new member is apart from those before it exactly when the set stays distinct.
    have hstep : (∀ o ∈ tables.overloads r.name,
          duplicateSignature o.parameters r.parameters = false) ↔
        ∀ name, DistinctMembers (tables.overloads name ++ addedTo name [r]) := by
      constructor
      · intro h name
        by_cases hname : r.name = name
        · subst hname
          simp only [addedTo, DistinctMembers, List.pairwise_append]
          refine ⟨hdistinct r.name, by simp, ?_⟩
          intro o ho m hm
          simp only [List.filter_cons, decide_true, if_true, List.filter_nil, List.map_cons,
            List.map_nil, List.mem_singleton] at hm
          subst hm
          exact h o ho
        · simpa [addedTo, hname] using hdistinct name
      · intro h o ho
        have hset := h r.name
        simp only [addedTo, DistinctMembers, List.pairwise_append] at hset
        exact hset.2.2 o ho r.member (by simp)
    rcases finishOverloadRegistration_cases tables r with ⟨⟨e, herror⟩, hrefused⟩ |
      ⟨⟨tables', hok, hsets⟩, hreturns, hapart⟩
    · rw [herror]
      constructor
      · constructor
        · rintro ⟨result, hresult⟩
          cases hresult
        · rintro ⟨hreturns, hsets⟩
          refine absurd ⟨hreturns r (by simp), hstep.mpr fun name => ?_⟩ hrefused
          have hset := hsets name
          rw [addedTo_cons, ← List.append_assoc] at hset
          exact hset.sublist (List.sublist_append_left _ _)
      · intro result hresult
        cases hresult
    · rw [hok]
      have hdistinct' : ∀ name, DistinctMembers (tables'.overloads name) :=
        fun name => hsets name ▸ hstep.mp hapart name
      obtain ⟨hiff, hresult⟩ := ih tables' hdistinct'
      have hset : ∀ name, tables'.overloads name ++ addedTo name rest =
          tables.overloads name ++ addedTo name (r :: rest) := by
        intro name
        rw [hsets, List.append_assoc, ← addedTo_cons]
      constructor
      · refine Iff.trans hiff ?_
        simp only [hset, List.forall_mem_cons, hreturns, true_and]
      · intro result h name
        rw [← hset]
        exact hresult result h name

/-- When a sequence is accepted, and what the sets are then. -/
theorem registerMembers_ok (registrations : List Registration) :
    ((∃ tables, registerMembers registrations = .ok tables) ↔
        (∀ r ∈ registrations, r.ReturnsBool) ∧
          ∀ name, DistinctMembers (builtinsOf name ++ addedTo name registrations)) ∧
      ∀ tables, registerMembers registrations = .ok tables →
        ∀ name, tables.overloads name = builtinsOf name ++ addedTo name registrations := by
  have h := foldlM_register registrations OverloadTables.empty.addBuiltinOverloads fun name => by
    rw [overloads_builtins]
    exact distinct_builtinsOf name
  simp only [overloads_builtins] at h
  exact h

theorem distinct_of_registerMembers {registrations : List Registration} {tables : OverloadTables}
    (h : registerMembers registrations = .ok tables) (name : String) :
    DistinctMembers (tables.overloads name) := by
  obtain ⟨hiff, hsets⟩ := registerMembers_ok registrations
  rw [hsets tables h name]
  exact (hiff.mp ⟨tables, h⟩).2 name

/-! ### The order of the registrations -/

section Order

variable {registrations registrations' : List Registration} {tables tables' : OverloadTables}

/-- Members of a set in another order. -/
theorem DistinctMembers.perm {members members' : List RegisteredOverload}
    (hperm : members.Perm members') (h : DistinctMembers members) : DistinctMembers members' := by
  refine (hperm.pairwise_iff fun {m m'} hne => ?_).mp h
  rw [← Bool.not_eq_true] at hne ⊢
  exact fun hsame => hne (duplicateSignature_symm hsame)

theorem addedTo_perm (h : registrations'.Perm registrations) (name : String) :
    (addedTo name registrations').Perm (addedTo name registrations) :=
  (h.filter _).map _

/-- Any order of an accepted sequence is accepted, with the same members in every set. -/
theorem registerMembers_perm (hperm : registrations'.Perm registrations)
    (h : registerMembers registrations = .ok tables) :
    ∃ tables', registerMembers registrations' = .ok tables' ∧
      ∀ name, (tables'.overloads name).Perm (tables.overloads name) := by
  obtain ⟨hiff, hsets⟩ := registerMembers_ok registrations
  obtain ⟨hiff', hsets'⟩ := registerMembers_ok registrations'
  obtain ⟨hreturns, hdistinct⟩ := hiff.mp ⟨tables, h⟩
  have hset : ∀ name, (builtinsOf name ++ addedTo name registrations').Perm
      (builtinsOf name ++ addedTo name registrations) :=
    fun name => (addedTo_perm hperm name).append_left _
  obtain ⟨tables', htables'⟩ := hiff'.mpr
    ⟨fun r hr => hreturns r (hperm.subset hr), fun name => (hdistinct name).perm (hset name).symm⟩
  refine ⟨tables', htables', fun name => ?_⟩
  rw [hsets tables h, hsets' tables' htables']
  exact hset name

theorem matches_perm {name : String} (h : (tables'.overloads name).Perm (tables.overloads name))
    (argTypes : List Ty) :
    (tables'.matches name argTypes).Perm (tables.matches name argTypes) :=
  h.filter _

/-- The one member of a signature is found in any order. -/
theorem overloadMember_eq_some_iff {name : String} {parameterTypes : List Ty}
    (hdistinct : DistinctMembers (tables.overloads name)) (m : RegisteredOverload) :
    tables.overloadMember name parameterTypes = some m ↔
      m ∈ tables.overloads name ∧ duplicateSignature m.parameters parameterTypes = true := by
  unfold OverloadTables.overloadMember
  generalize tables.overloads name = members at hdistinct ⊢
  induction members with
  | nil => simp
  | cons first members ih =>
    obtain ⟨hfirst, hrest⟩ := List.pairwise_cons.mp hdistinct
    rw [List.find?_cons, List.mem_cons]
    by_cases hsame : duplicateSignature first.parameters parameterTypes = true
    · simp only [hsame, Option.some.injEq]
      constructor
      · rintro rfl
        exact ⟨.inl rfl, hsame⟩
      · rintro ⟨rfl | hm, hm'⟩
        · rfl
        · have hne := hfirst m hm
          rw [duplicateSignature_trans hsame (duplicateSignature_symm hm')] at hne
          cases hne
    · simp only [hsame, ih hrest]
      constructor
      · exact fun h => ⟨.inr h.1, h.2⟩
      · rintro ⟨rfl | hm, hm'⟩
        · exact absurd hm' hsame
        · exact ⟨hm, hm'⟩

end Order

/-! ### Calls of an accepted set -/

/-- The call is reported as ambiguous. -/
def OverloadTables.Ambiguous (tables : OverloadTables) (types : TypeTable) (name : String)
    (argTypes : List Ty) (argSpans : List Span) (span : Span) : Prop :=
  (tables.resolveOverload types name argTypes argSpans span).1 =
    .error (.ambiguousOverload name argTypes (tables.candidates name) span)

theorem ambiguous_iff {tables : OverloadTables} {types : TypeTable} {name : String}
    {argTypes : List Ty} {argSpans : List Span} {span : Span} :
    tables.Ambiguous types name argTypes argSpans span ↔
      1 < (tables.matches name argTypes).length := by
  unfold OverloadTables.Ambiguous OverloadTables.resolveOverload
  cases tables.matches name argTypes with
  | nil => simp
  | cons only rest =>
    cases rest with
    | nil => cases hret : only.ret <;> simp [hret]
    | cons second rest => simp

theorem resolveOverload_ok_iff {tables : OverloadTables} {types : TypeTable} {name : String}
    {argTypes : List Ty} {argSpans : List Span} {span : Span} {ty : Ty} :
    (tables.resolveOverload types name argTypes argSpans span).1 = .ok ty ↔
      ∃ only ret, tables.matches name argTypes = [only] ∧ only.ret = some ret ∧
        types.resolveType ret = ty := by
  unfold OverloadTables.resolveOverload
  cases tables.matches name argTypes with
  | nil => simp
  | cons only rest =>
    cases rest with
    | nil => cases hret : only.ret <;> simp [hret]
    | cons second rest => simp

/-- **Accepted overload sets.**  At most one member accepts a call's arguments, unless one accepts
them in full and one other with a trailing `Site` filled in: those calls, and only those, are
ambiguous, and a set has none of them when no member is another with a `Site` behind.  In any other
order the registrations are accepted too, and every call and every signature finds the same
member. -/
theorem registeredOverloads_disjoint {registrations : List Registration} {tables : OverloadTables}
    (h : registerMembers registrations = .ok tables) :
    (∀ name argTypes, (tables.matches name argTypes).length ≤ 1 ∨
      ∃ m m', AmbiguousPair m m' argTypes ∧
        (tables.matches name argTypes = [m, m'] ∨ tables.matches name argTypes = [m', m])) ∧
    (∀ types name argTypes argSpans span,
      tables.Ambiguous types name argTypes argSpans span ↔
        ∃ m ∈ tables.overloads name, ∃ m' ∈ tables.overloads name,
          AmbiguousPair m m' argTypes) ∧
    (∀ name, (∀ m ∈ tables.overloads name, ∀ m' ∈ tables.overloads name,
        ¬ AcceptsFilled m'.parameters m.parameters) →
      ∀ argTypes, (tables.matches name argTypes).length ≤ 1 ∧
        ∀ types argSpans span, ¬ tables.Ambiguous types name argTypes argSpans span) ∧
    ∀ registrations', registrations'.Perm registrations →
      ∃ tables', registerMembers registrations' = .ok tables' ∧
        ∀ name argTypes, (tables'.matches name argTypes).Perm (tables.matches name argTypes) ∧
          tables'.overloadMember name argTypes = tables.overloadMember name argTypes ∧
          ∀ types argSpans span,
            (tables'.Ambiguous types name argTypes argSpans span ↔
              tables.Ambiguous types name argTypes argSpans span) ∧
            ∀ ty, (tables'.resolveOverload types name argTypes argSpans span).1 = .ok ty ↔
              (tables.resolveOverload types name argTypes argSpans span).1 = .ok ty := by
  have hdistinct := distinct_of_registerMembers h
  refine ⟨fun name => matches_cases (hdistinct name), fun types name argTypes argSpans span => ?_,
    fun name hsites argTypes => ?_, fun registrations' hperm => ?_⟩
  · rw [ambiguous_iff]
    constructor
    · exact exists_pair_of_one_lt (hdistinct name)
    · rintro ⟨m, hm, m', hm', hpair⟩
      exact length_matches_of_pair hpair hm hm'
  · have hone : ¬ 1 < (tables.matches name argTypes).length := by
      intro hlength
      obtain ⟨m, hm, m', hm', hpair⟩ := exists_pair_of_one_lt (hdistinct name) hlength
      exact hsites m hm m' hm' (hpair.filled.of_duplicateSignature hpair.exact)
    exact ⟨Nat.le_of_not_lt hone, fun types argSpans span h => hone (ambiguous_iff.mp h)⟩
  · obtain ⟨tables', h', hsets⟩ := registerMembers_perm hperm h
    refine ⟨tables', h', fun name argTypes => ?_⟩
    have hmatches := matches_perm (hsets name) argTypes
    have hsingle : ∀ only, tables'.matches name argTypes = [only] ↔
        tables.matches name argTypes = [only] := by
      intro only
      rw [← List.perm_singleton, ← List.perm_singleton]
      exact ⟨hmatches.symm.trans, hmatches.trans⟩
    refine ⟨hmatches, ?_, fun types argSpans span => ⟨?_, fun ty => ?_⟩⟩
    · apply Option.ext
      intro m
      rw [overloadMember_eq_some_iff (hdistinct name),
        overloadMember_eq_some_iff (distinct_of_registerMembers h' name), (hsets name).mem_iff]
    · rw [ambiguous_iff, ambiguous_iff, hmatches.length_eq]
    · simp only [resolveOverload_ok_iff, hsingle]

/-- `f = (n :: Num) -> Num => …` and `f = (t :: Text) -> Num => …` -/
def numAndText : List Registration :=
  [⟨"f", ⟨0, 26, 0⟩, [.num], some .num, false⟩, ⟨"f", ⟨27, 54, 0⟩, [.text], some .num, false⟩]

def numAndTextTables : OverloadTables := ((registerMembers numAndText).toOption).getD .empty

theorem registeredOverloads_numAndText :
    (numAndTextTables.matches "f" [.generic "T"]).length ≤ 1 := by
  have hregistered : registerMembers numAndText = .ok numAndTextTables := rfl
  have hlength : ∀ m ∈ numAndTextTables.overloads "f", m.parameters.length = 1 := by decide +kernel
  refine ((registeredOverloads_disjoint hregistered).2.2.1 "f" (fun m hm m' hm' hfilled => ?_)
    [.generic "T"]).1
  have := hfilled.length_eq
  have := hlength m hm
  have := hlength m' hm'
  omega

/-- `f = (n :: Num) -> Num => …` and `f = (n :: Num, site :: Site) -> Num => …` -/
def withAndWithoutSite : List Registration :=
  [⟨"f", ⟨0, 26, 0⟩, [.num], some .num, false⟩,
    ⟨"f", ⟨27, 67, 0⟩, [.num, .named "Site" [] []], some .num, false⟩]

theorem ambiguous_withAndWithoutSite :
    ¬ ∀ (registrations : List Registration) (tables : OverloadTables) (name : String)
      (argTypes : List Ty), registerMembers registrations = .ok tables →
      (tables.matches name argTypes).length ≤ 1 := by
  intro h
  have hone := h withAndWithoutSite ((registerMembers withAndWithoutSite).toOption.getD .empty)
    "f" [.num] rfl
  revert hone
  decide +kernel

end Quilon
