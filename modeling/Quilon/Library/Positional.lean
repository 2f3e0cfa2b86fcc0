import Mathlib.Data.List.Basic

/-!
# Reading tokens one by one, or each on its own

A token may take the one behind it for its value, or have a value of its own.  `positional` reads
from left to right, so what was taken is not read again; `independent` gives for each token what the
token would give on its own.

A reading on its own that misses nothing is the positional one exactly if each token gives what it
says and none that gives anything stands behind one that takes (`positional_eq_independent_iff`).
-/

namespace Quilon

variable {T V : Type*} (takes : T → Bool) (asValue : T → V) (own : T → Option V)
  (yields : T → Option T → Option V)

/-- What a token says where it is read. -/
def alone (t : T) (next : Option T) : Option V :=
  if takes t then next.map asValue else own t

def positional : List T → List V
  | [] => []
  | [t] => if takes t then [] else (own t).toList
  | t :: next :: rest =>
    if takes t then asValue next :: positional rest
    else (own t).toList ++ positional (next :: rest)

def independent : List T → List V
  | [] => []
  | t :: rest => (yields t rest.head?).toList ++ independent rest

/-- Every token gives what it says, and no token that gives anything stands behind one that
takes. -/
def Fits (tokens : List T) : Prop :=
  ∀ front t rest, tokens = front ++ t :: rest →
    yields t rest.head? = alone takes asValue own t rest.head? ∧
      ((yields t rest.head?).isSome → ∀ last ∈ front.getLast?, takes last = false)

variable {takes asValue own yields} {t next : T} {rest tokens : List T}

theorem fits_nil : Fits takes asValue own yields [] := by
  intro front t rest h
  exact absurd h (by simp)

theorem fits_cons : Fits takes asValue own yields (t :: rest) ↔
    yields t rest.head? = alone takes asValue own t rest.head? ∧
      (∀ next ∈ rest.head?, (yields next rest.tail.head?).isSome → takes t = false) ∧
        Fits takes asValue own yields rest := by
  constructor
  · intro h
    refine ⟨(h [] t rest rfl).1, fun next hnext hsome => ?_, fun front t' rest' hrest => ?_⟩
    · obtain ⟨rest', rfl⟩ := List.head?_eq_some_iff.mp hnext
      exact (h [t] next rest' rfl).2 hsome t rfl
    · obtain ⟨hyields, hlast⟩ := h (t :: front) t' rest' (by rw [hrest]; rfl)
      refine ⟨hyields, fun hsome last hmem => hlast hsome last ?_⟩
      rw [List.getLast?_cons]
      obtain ⟨before, hbefore⟩ := List.getLast?_eq_some_iff.mp hmem
      rw [hbefore]
      simp
  · rintro ⟨hyields, hnext, hrest⟩ front t' rest' hsplit
    cases front with
    | nil =>
      injection hsplit with hhead htail
      subst hhead htail
      exact ⟨hyields, fun _ _ hmem => by cases hmem⟩
    | cons first front =>
      injection hsplit with hhead htail
      subst hhead
      obtain ⟨hyields', hlast⟩ := hrest front t' rest' htail
      refine ⟨hyields', fun hsome last hmem => ?_⟩
      cases front with
      | nil =>
        obtain rfl : t = last := Option.some.inj hmem
        refine hnext t' (by rw [htail]; rfl) ?_
        rw [htail]
        exact hsome
      | cons second front => exact hlast hsome last (by rwa [List.getLast?_cons_cons] at hmem)

theorem fits_singleton :
    Fits takes asValue own yields [t] ↔ yields t none = alone takes asValue own t none := by
  rw [fits_cons]
  exact ⟨fun h => h.1, fun h => ⟨h, (fun _ hnext => by cases hnext), fits_nil⟩⟩

/-- Where tokens fit, both readings are one. -/
theorem positional_eq_of_fits (h : Fits takes asValue own yields tokens) :
    positional takes asValue own tokens = independent yields tokens := by
  induction tokens using positional.induct takes with
  | case1 => rfl
  | case2 t htakes =>
    have halone := (fits_cons.mp h).1
    rw [positional, if_pos htakes, independent, halone, alone, if_pos htakes]
    rfl
  | case3 t htakes =>
    have halone := (fits_cons.mp h).1
    rw [positional, if_neg htakes, independent, halone, alone, if_neg htakes]
    exact (List.append_nil _).symm
  | case4 t next rest htakes ih =>
    obtain ⟨halone, hnext, hrest⟩ := fits_cons.mp h
    have hnone : yields next rest.head? = none := by
      rw [← Option.not_isSome_iff_eq_none]
      intro hsome
      exact absurd htakes (Bool.not_eq_true _ ▸ hnext next rfl hsome)
    rw [positional, if_pos htakes, independent, halone, alone, if_pos htakes, independent, hnone,
      ih (fits_cons.mp hrest).2.2]
    rfl
  | case5 t next rest htakes ih =>
    obtain ⟨halone, _, hrest⟩ := fits_cons.mp h
    rw [positional, if_neg htakes, independent, halone, alone, if_neg htakes, ih hrest]

/-- Every token that says something where it is read gives something. -/
def MissesNothing (takes : T → Bool) (asValue : T → V) (own : T → Option V)
    (yields : T → Option T → Option V) : Prop :=
  ∀ t next, (alone takes asValue own t next).isSome → (yields t next).isSome

theorem length_positional_le (hfound : MissesNothing takes asValue own yields) :
    (positional takes asValue own tokens).length ≤ (independent yields tokens).length := by
  induction tokens using positional.induct takes with
  | case1 => exact Nat.le_refl _
  | case2 t htakes =>
    rw [positional, if_pos htakes]
    exact Nat.zero_le _
  | case3 t htakes =>
    have hsome := hfound t none
    rw [alone, if_neg htakes] at hsome
    rw [positional, if_neg htakes, independent, independent, List.append_nil]
    cases hown : own t with
    | none => exact Nat.zero_le _
    | some v =>
      rw [hown] at hsome
      obtain ⟨w, hw⟩ := Option.isSome_iff_exists.mp (hsome rfl)
      rw [List.head?_nil, hw]
      exact Nat.le_refl _
  | case4 t next rest htakes ih =>
    have hsome := hfound t (some next)
    rw [alone, if_pos htakes] at hsome
    obtain ⟨w, hw⟩ := Option.isSome_iff_exists.mp (hsome rfl)
    rw [positional, if_pos htakes, independent, List.head?_cons, hw, independent]
    simp only [Option.toList_some, List.singleton_append, List.length_cons, List.length_append]
    omega
  | case5 t next rest htakes ih =>
    have hsome := hfound t (some next)
    rw [alone, if_neg htakes] at hsome
    rw [positional, if_neg htakes, independent, List.head?_cons, List.length_append,
      List.length_append]
    cases hown : own t with
    | none =>
      rw [Option.toList_none, List.length_nil]
      omega
    | some v =>
      rw [hown] at hsome
      obtain ⟨w, hw⟩ := Option.isSome_iff_exists.mp (hsome rfl)
      rw [hw]
      simp only [Option.toList_some, List.length_singleton]
      omega

theorem toList_injective {a b : Option V} (h : a.toList = b.toList) : a = b := by
  have hhead := congrArg List.head? h
  rwa [Option.head?_toList, Option.head?_toList] at hhead

/-- Where both readings are one, the tokens fit: a token too many would make the reading on its own
the longer one. -/
theorem fits_of_positional_eq (hfound : MissesNothing takes asValue own yields)
    (h : positional takes asValue own tokens = independent yields tokens) :
    Fits takes asValue own yields tokens := by
  induction tokens using positional.induct takes with
  | case1 => exact fits_nil
  | case2 t htakes =>
    rw [positional, if_pos htakes, independent, independent, List.append_nil, List.head?_nil] at h
    have hnone : yields t none = none := Option.toList_eq_nil_iff.mp h.symm
    rw [fits_singleton, hnone, alone, if_pos htakes]
    rfl
  | case3 t htakes =>
    rw [positional, if_neg htakes, independent, independent, List.append_nil, List.head?_nil] at h
    rw [fits_singleton, alone, if_neg htakes]
    exact toList_injective h.symm
  | case4 t next rest htakes ih =>
    have hsome := hfound t (some next)
    rw [alone, if_pos htakes] at hsome
    obtain ⟨w, hw⟩ := Option.isSome_iff_exists.mp (hsome rfl)
    rw [positional, if_pos htakes, independent, List.head?_cons, hw, independent,
      Option.toList_some, List.singleton_append, List.cons.injEq] at h
    obtain ⟨rfl, hrest⟩ := h
    have hnone : yields next rest.head? = none := by
      cases hyields : yields next rest.head? with
      | none => rfl
      | some v =>
        have hle := @length_positional_le _ _ takes asValue own yields rest hfound
        rw [hyields, Option.toList_some, List.singleton_append] at hrest
        rw [hrest, List.length_cons] at hle
        omega
    have halone : alone takes asValue own next rest.head? = none := by
      rw [← Option.not_isSome_iff_eq_none]
      intro hsays
      have hgives := hfound next rest.head? hsays
      rw [hnone] at hgives
      cases hgives
    rw [hnone, Option.toList_none, List.nil_append] at hrest
    refine fits_cons.mpr ⟨?_, fun next' hnext hgives => ?_, fits_cons.mpr ⟨?_, ?_, ih hrest⟩⟩
    · rw [List.head?_cons, hw, alone, if_pos htakes]
      rfl
    · obtain rfl : next = next' := Option.some.inj hnext
      rw [List.tail_cons, hnone] at hgives
      cases hgives
    · rw [hnone, halone]
    · intro last hlast _
      rw [hlast, alone] at halone
      by_contra htakes'
      rw [if_pos (Bool.not_eq_false _ ▸ htakes')] at halone
      cases halone
  | case5 t next rest htakes ih =>
    have hsome := hfound t (some next)
    rw [alone, if_neg htakes] at hsome
    rw [positional, if_neg htakes, independent, List.head?_cons] at h
    obtain ⟨heq, hrest⟩ : own t = yields t (some next) ∧
        positional takes asValue own (next :: rest) = independent yields (next :: rest) := by
      cases hown : own t with
      | some v =>
        rw [hown] at hsome h
        obtain ⟨w, hw⟩ := Option.isSome_iff_exists.mp (hsome rfl)
        rw [hw, Option.toList_some, Option.toList_some, List.singleton_append,
          List.singleton_append, List.cons.injEq] at h
        obtain ⟨rfl, hrest⟩ := h
        exact ⟨hw.symm, hrest⟩
      | none =>
        rw [hown, Option.toList_none, List.nil_append] at h
        cases hyields : yields t (some next) with
        | none =>
          rw [hyields] at h
          exact ⟨rfl, h⟩
        | some v =>
          have hle := @length_positional_le _ _ takes asValue own yields (next :: rest) hfound
          rw [hyields, Option.toList_some, List.singleton_append] at h
          rw [h, List.length_cons] at hle
          omega
    refine fits_cons.mpr ⟨?_, fun _ _ _ => Bool.not_eq_true _ ▸ htakes, ih hrest⟩
    rw [List.head?_cons, alone, if_neg htakes, heq]

/-- Where nothing is given, the tokens fit if nothing is said. -/
theorem fits_of_positional_nil (hnone : ∀ t next, yields t next = none)
    (h : positional takes asValue own tokens = []) : Fits takes asValue own yields tokens := by
  induction tokens using positional.induct takes with
  | case1 => exact fits_nil
  | case2 t htakes =>
    rw [fits_singleton, hnone, alone, if_pos htakes]
    rfl
  | case3 t htakes =>
    rw [positional, if_neg htakes] at h
    rw [fits_singleton, hnone, alone, if_neg htakes, Option.toList_eq_nil_iff.mp h]
  | case4 t next rest htakes ih =>
    rw [positional, if_pos htakes] at h
    cases h
  | case5 t next rest htakes ih =>
    rw [positional, if_neg htakes, List.append_eq_nil_iff] at h
    refine fits_cons.mpr ⟨?_, fun _ _ hgives => ?_, ih h.2⟩
    · rw [hnone, alone, if_neg htakes, Option.toList_eq_nil_iff.mp h.1]
    · rw [hnone] at hgives
      cases hgives

theorem independent_of_none (hnone : ∀ t next, yields t next = none) :
    independent yields tokens = [] := by
  induction tokens with
  | nil => rfl
  | cons t rest ih =>
    rw [independent, hnone, ih]
    rfl

/-- **Reading each token on its own is reading from left to right** exactly where the tokens fit, if
it misses nothing, or gives nothing at all. -/
theorem positional_eq_independent_iff
    (hfound : MissesNothing takes asValue own yields ∨ ∀ t next, yields t next = none) :
    positional takes asValue own tokens = independent yields tokens ↔
      Fits takes asValue own yields tokens := by
  refine ⟨fun h => ?_, positional_eq_of_fits⟩
  rcases hfound with hfound | hnone
  · exact fits_of_positional_eq hfound h
  · exact fits_of_positional_nil hnone (h.trans (independent_of_none hnone))

end Quilon
