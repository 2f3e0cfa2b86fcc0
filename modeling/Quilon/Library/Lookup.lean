import Mathlib.Data.List.Basic

/-!
# Association lists

How `List.lookup` goes through the ways a table is put together: entries of some keys only, one table
before another, a stack of tables.
-/

namespace Quilon

variable {α β : Type*} [DecidableEq α]

theorem lookup_cons_ite (key k : α) (value : β) (table : List (α × β)) :
    ((key, value) :: table).lookup k = if k = key then some value else table.lookup k := by
  rw [List.lookup_cons]
  by_cases h : k = key
  · subst h
    simp
  · rw [beq_false_of_ne h]
    simp [h]

/-- The entries of some keys only. -/
theorem lookup_filter_fst (p : α → Bool) (table : List (α × β)) (k : α) :
    (table.filter (p ·.1)).lookup k = if p k then table.lookup k else none := by
  induction table with
  | nil => simp
  | cons entry rest ih =>
    obtain ⟨key, value⟩ := entry
    by_cases hkey : p key = true
    · rw [List.filter_cons, if_pos hkey, lookup_cons_ite, lookup_cons_ite, ih]
      by_cases hk : k = key
      · subst hk
        simp [hkey]
      · simp [hk]
    · rw [List.filter_cons, if_neg hkey, ih, lookup_cons_ite]
      by_cases hk : k = key
      · subst hk
        simp [hkey]
      · simp [hk]

theorem lookup_isSome_iff_mem_fst {table : List (α × β)} {k : α} :
    (table.lookup k).isSome ↔ k ∈ table.map Prod.fst := by
  rw [List.lookup_isSome_iff]
  simp

/-- Where every key stands once, its entry is found. -/
theorem lookup_eq_some_of_mem {table : List (α × β)} {k : α} {value : β}
    (hkeys : (table.map (·.1)).Nodup) (h : (k, value) ∈ table) : table.lookup k = some value := by
  induction table with
  | nil => exact absurd h (by simp)
  | cons entry rest ih =>
    obtain ⟨key, other⟩ := entry
    rw [List.map_cons, List.nodup_cons] at hkeys
    rw [lookup_cons_ite]
    rcases List.mem_cons.mp h with heq | hrest
    · obtain ⟨rfl, rfl⟩ := Prod.mk.injEq .. ▸ heq
      exact if_pos rfl
    · have hne : k ≠ key := by
        rintro rfl
        exact hkeys.1 (List.mem_map.mpr ⟨_, hrest, rfl⟩)
      rw [if_neg hne]
      exact ih hkeys.2 hrest

theorem mem_of_lookup {table : List (α × β)} {k : α} {value : β}
    (h : table.lookup k = some value) : (k, value) ∈ table := by
  obtain ⟨front, rest, rfl, _⟩ := List.lookup_eq_some_iff.mp h
  exact List.mem_append_right _ List.mem_cons_self

/-- Where the entries of a key agree, it does not matter how many there are. -/
theorem lookup_eq_some_of_unique {table : List (α × β)} {k : α} {value : β}
    (h : (k, value) ∈ table) (hunique : ∀ other, (k, other) ∈ table → other = value) :
    table.lookup k = some value := by
  have hsome : (table.lookup k).isSome :=
    lookup_isSome_iff_mem_fst.mpr (List.mem_map.mpr ⟨_, h, rfl⟩)
  obtain ⟨other, hother⟩ := Option.isSome_iff_exists.mp hsome
  rw [hother, hunique other (mem_of_lookup hother)]

theorem lookup_eq_some_iff_mem {table : List (α × β)} {k : α} {value : β}
    (hkeys : (table.map (·.1)).Nodup) : table.lookup k = some value ↔ (k, value) ∈ table :=
  ⟨mem_of_lookup, lookup_eq_some_of_mem hkeys⟩

end Quilon
