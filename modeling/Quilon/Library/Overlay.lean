import Mathlib.Data.List.Induction
import Mathlib.Data.List.Nodup
import Quilon.Library.Lookup

/-!
# Tables written over one another

`overwrite` gives a key its value, in place where the key is there already and at the end otherwise;
`overlays` writes the entries of one table after the other.  A key then has what the last table with
it says (`lookup_overlays_eq_some_iff`), and which table that is depends on the keys alone
(`IsLatest.transfer`): tables with the same keys agree on it, whatever their values are.
-/

namespace Quilon

section Overwrite

variable {α β : Type*} [DecidableEq α]

def overwrite : List (α × β) → α → β → List (α × β)
  | [], key, value => [(key, value)]
  | (k, v) :: rest, key, value =>
    if k = key then (k, value) :: rest else (k, v) :: overwrite rest key value

def overlay (table part : List (α × β)) : List (α × β) :=
  part.foldl (fun table entry => overwrite table entry.1 entry.2) table

def overlays (table : List (α × β)) (parts : List (List (α × β))) : List (α × β) :=
  parts.foldl overlay table

variable {table part : List (α × β)} {key k : α} {value : β}

theorem lookup_overwrite :
    (overwrite table key value).lookup k = if k = key then some value else table.lookup k := by
  induction table with
  | nil =>
    rw [overwrite, lookup_cons_ite]
  | cons entry rest ih =>
    obtain ⟨other, v⟩ := entry
    rw [overwrite]
    by_cases hother : other = key
    · subst hother
      rw [if_pos rfl, lookup_cons_ite, lookup_cons_ite]
      by_cases hk : k = other
      · rw [if_pos hk, if_pos hk]
      · rw [if_neg hk, if_neg hk, if_neg hk]
    · rw [if_neg hother, lookup_cons_ite, lookup_cons_ite, ih]
      by_cases hk : k = other
      · subst hk
        rw [if_pos rfl, if_neg hother, if_pos rfl]
      · rw [if_neg hk, if_neg hk]

/-- The keys stay in their places, and a new one comes last. -/
theorem map_fst_overwrite :
    (overwrite table key value).map (·.1) =
      if key ∈ table.map (·.1) then table.map (·.1) else table.map (·.1) ++ [key] := by
  induction table with
  | nil => simp [overwrite]
  | cons entry rest ih =>
    obtain ⟨other, v⟩ := entry
    rw [overwrite]
    by_cases hother : other = key
    · subst hother
      simp
    · rw [if_neg hother, List.map_cons, ih, List.map_cons]
      have hmem : key ∈ other :: rest.map (·.1) ↔ key ∈ rest.map (·.1) := by
        rw [List.mem_cons]
        exact or_iff_right (Ne.symm hother)
      by_cases hrest : key ∈ rest.map (·.1)
      · rw [if_pos hrest, if_pos (hmem.mpr hrest)]
      · rw [if_neg hrest, if_neg (mt hmem.mp hrest), List.cons_append]

theorem nodup_overwrite (h : (table.map (·.1)).Nodup) :
    ((overwrite table key value).map (·.1)).Nodup := by
  rw [map_fst_overwrite]
  by_cases hkey : key ∈ table.map (·.1)
  · rw [if_pos hkey]
    exact h
  · rw [if_neg hkey]
    exact List.nodup_append.mpr ⟨h, List.nodup_singleton key, fun a ha b hb => by
      rw [List.mem_singleton.mp hb]
      rintro rfl
      exact hkey ha⟩

/-- Where the keys of a part are distinct, the part speaks first. -/
theorem lookup_overlay (h : (part.map (·.1)).Nodup) :
    (overlay table part).lookup k = (part.lookup k).or (table.lookup k) := by
  induction part generalizing table with
  | nil => rfl
  | cons entry rest ih =>
    obtain ⟨key, value⟩ := entry
    rw [List.map_cons, List.nodup_cons] at h
    have hfold : overlay table ((key, value) :: rest) = overlay (overwrite table key value) rest :=
      rfl
    rw [hfold, ih h.2, lookup_overwrite, lookup_cons_ite]
    by_cases hk : k = key
    · subst hk
      have hrest : rest.lookup k = none := by
        rw [← Option.not_isSome_iff_eq_none, lookup_isSome_iff_mem_fst]
        exact h.1
      rw [hrest, if_pos rfl, if_pos rfl]
      rfl
    · rw [if_neg hk, if_neg hk]

theorem nodup_overlay (h : (table.map (·.1)).Nodup) : ((overlay table part).map (·.1)).Nodup := by
  induction part generalizing table with
  | nil => exact h
  | cons entry rest ih => exact ih (nodup_overwrite h)

theorem nodup_overlays {parts : List (List (α × β))} (h : (table.map (·.1)).Nodup) :
    ((overlays table parts).map (·.1)).Nodup := by
  induction parts generalizing table with
  | nil => exact h
  | cons part rest ih => exact ih (nodup_overlay h)

end Overwrite

section Latest

variable {α β γ : Type*} [DecidableEq α]

/-- The part at `index` is the last one with the key, and gives it `value`. -/
structure IsLatest (parts : List (List (α × β))) (key : α) (index : Nat) (value : β) : Prop where
  gives : ∃ part, parts[index]? = some part ∧ part.lookup key = some value
  last : ∀ later part, index < later → parts[later]? = some part → part.lookup key = none

variable {parts : List (List (α × β))} {part : List (α × β)} {key : α} {index : Nat} {value : β}

theorem IsLatest.lt_length (h : IsLatest parts key index value) : index < parts.length := by
  obtain ⟨part, hpart, _⟩ := h.gives
  exact (List.getElem?_eq_some_iff.mp hpart).1

/-- One more part: it speaks, or it is silent and the ones before it count. -/
theorem isLatest_append_singleton : IsLatest (parts ++ [part]) key index value ↔
    (index = parts.length ∧ part.lookup key = some value) ∨
      (part.lookup key = none ∧ IsLatest parts key index value) := by
  have hlast : (parts ++ [part])[parts.length]? = some part := List.getElem?_concat_length ..
  constructor
  · intro h
    obtain ⟨found, hfound, hvalue⟩ := h.gives
    have hindex : index < (parts ++ [part]).length := h.lt_length
    rw [List.length_append, List.length_singleton] at hindex
    rcases Nat.lt_or_eq_of_le (Nat.lt_succ_iff.mp hindex) with hlt | rfl
    · refine Or.inr ⟨h.last _ _ hlt hlast, ?_, fun later other hlater hother => ?_⟩
      · rw [List.getElem?_append_left hlt] at hfound
        exact ⟨found, hfound, hvalue⟩
      · refine h.last later other hlater ?_
        rw [List.getElem?_append_left (List.getElem?_eq_some_iff.mp hother).1]
        exact hother
    · rw [hlast] at hfound
      obtain rfl := Option.some.inj hfound
      exact Or.inl ⟨rfl, hvalue⟩
  · rintro (⟨rfl, hvalue⟩ | ⟨hnone, h⟩)
    · refine ⟨⟨part, hlast, hvalue⟩, fun later other hlater hother => ?_⟩
      have hbound := (List.getElem?_eq_some_iff.mp hother).1
      rw [List.length_append, List.length_singleton] at hbound
      omega
    · obtain ⟨found, hfound, hvalue⟩ := h.gives
      refine ⟨⟨found, ?_, hvalue⟩, fun later other hlater hother => ?_⟩
      · rw [List.getElem?_append_left h.lt_length]
        exact hfound
      · have hbound := (List.getElem?_eq_some_iff.mp hother).1
        rw [List.length_append, List.length_singleton] at hbound
        rcases Nat.lt_or_eq_of_le (Nat.lt_succ_iff.mp hbound) with hlt | rfl
        · rw [List.getElem?_append_left hlt] at hother
          exact h.last later other hlater hother
        · rw [hlast] at hother
          obtain rfl := Option.some.inj hother
          exact hnone

/-- A key that is anywhere has a last part. -/
theorem exists_isLatest (hpart : part ∈ parts) (hkey : key ∈ part.map (·.1)) :
    ∃ index value, IsLatest parts key index value := by
  induction parts using List.reverseRecOn with
  | nil => cases hpart
  | append_singleton parts last ih =>
    cases hlookup : last.lookup key with
    | some value =>
      exact ⟨parts.length, value, isLatest_append_singleton.mpr (Or.inl ⟨rfl, hlookup⟩)⟩
    | none =>
      have hbefore : part ∈ parts := by
        rcases List.mem_append.mp hpart with hbefore | hlast
        · exact hbefore
        · rw [List.mem_singleton.mp hlast, ← lookup_isSome_iff_mem_fst, hlookup] at hkey
          cases hkey
      obtain ⟨index, value, hlatest⟩ := ih hbefore
      exact ⟨index, value, isLatest_append_singleton.mpr (Or.inr ⟨hlookup, hlatest⟩)⟩

/-- A key has what the last part with it says. -/
theorem lookup_overlays_eq_some_iff (h : ∀ part ∈ parts, (part.map (·.1)).Nodup) :
    (overlays [] parts).lookup key = some value ↔ ∃ index, IsLatest parts key index value := by
  induction parts using List.reverseRecOn with
  | nil =>
    constructor
    · intro hlookup
      cases hlookup
    · rintro ⟨index, hlatest⟩
      exact absurd hlatest.lt_length (by simp)
  | append_singleton parts part ih =>
    have hparts : ∀ part ∈ parts, (part.map (·.1)).Nodup :=
      fun other hother => h other (List.mem_append_left _ hother)
    have hpart : (part.map (·.1)).Nodup := h part (by simp)
    have hfold : overlays [] (parts ++ [part]) = overlay (overlays [] parts) part := by
      rw [overlays, List.foldl_append]
      rfl
    rw [hfold, lookup_overlay hpart]
    simp only [isLatest_append_singleton]
    cases hlookup : part.lookup key with
    | none =>
      rw [Option.none_or, ih hparts]
      simp
    | some found =>
      rw [Option.some_or]
      simp

/-- Which part is the last one depends on the keys alone. -/
theorem IsLatest.transfer {others : List (List (α × γ))}
    (hkeys : parts.map (·.map (·.1)) = others.map (·.map (·.1)))
    (h : IsLatest parts key index value) : ∃ other, IsLatest others key index other := by
  have hpart : ∀ position : Nat, parts[position]?.map (·.map (·.1)) =
      others[position]?.map (·.map (·.1)) := by
    intro position
    rw [← List.getElem?_map, ← List.getElem?_map, hkeys]
  obtain ⟨part, hfound, hvalue⟩ := h.gives
  have hindex := hpart index
  rw [hfound, Option.map_some] at hindex
  obtain ⟨other, hother, hsame⟩ := Option.map_eq_some_iff.mp hindex.symm
  have hmem : key ∈ other.map Prod.fst := by
    rw [hsame]
    exact lookup_isSome_iff_mem_fst.mp (by rw [hvalue]; rfl)
  obtain ⟨v, hv⟩ := Option.isSome_iff_exists.mp (lookup_isSome_iff_mem_fst.mpr hmem)
  refine ⟨v, ⟨other, hother, hv⟩, fun later found hlater hfound => ?_⟩
  have hlaterPart := hpart later
  rw [hfound, Option.map_some] at hlaterPart
  obtain ⟨part', hpart', hsame'⟩ := Option.map_eq_some_iff.mp hlaterPart
  have hnone := h.last later part' hlater hpart'
  rw [← Option.not_isSome_iff_eq_none, lookup_isSome_iff_mem_fst] at hnone ⊢
  rw [← hsame']
  exact hnone

theorem IsLatest.unique {other : Nat} {v : β} (h : IsLatest parts key index value)
    (h' : IsLatest parts key other v) : index = other ∧ value = v := by
  obtain ⟨part, hpart, hvalue⟩ := h.gives
  obtain ⟨part', hpart', hvalue'⟩ := h'.gives
  rcases Nat.lt_trichotomy index other with hlt | rfl | hgt
  · rw [h.last other part' hlt hpart'] at hvalue'
    cases hvalue'
  · obtain rfl := Option.some.inj (hpart.symm.trans hpart')
    exact ⟨rfl, Option.some.inj (hvalue.symm.trans hvalue')⟩
  · rw [h'.last index part hgt hpart] at hvalue
    cases hvalue

end Latest

end Quilon
