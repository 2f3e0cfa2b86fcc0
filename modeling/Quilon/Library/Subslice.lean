import Mathlib.Data.List.Infix

/-!
# Where a list first occurs in another

`firstIndexOf needle list` is the least place `needle` is found at (`firstIndexOf_eq_some_iff`).
What has been found stays where it is when the list goes on (`firstIndexOf_append`); one item is
found at its first index (`firstIndexOf_singleton`).
-/

namespace Quilon

variable {α : Type*} {needle list suffix : List α} {i : Nat}

/-- An occurrence ends within the list. -/
theorem add_length_le_of_prefix_drop (h : needle <+: list.drop i) (hneedle : needle ≠ []) :
    i + needle.length ≤ list.length := by
  have hlength := h.length_le
  rw [List.length_drop] at hlength
  have hpos := List.length_pos_iff.mpr hneedle
  omega

/-- What stands in the list stands there in a longer one too. -/
theorem prefix_drop_append (h : needle <+: list.drop i) : needle <+: (list ++ suffix).drop i := by
  rw [List.drop_append]
  exact h.trans (List.prefix_append _ _)

/-- What ends within the list stands there without the rest. -/
theorem prefix_drop_of_append (h : needle <+: (list ++ suffix).drop i)
    (hend : i + needle.length ≤ list.length) : needle <+: list.drop i := by
  rw [List.drop_append] at h
  refine List.prefix_of_prefix_length_le h (List.prefix_append _ _) ?_
  rw [List.length_drop]
  omega

variable [DecidableEq α]

/-- The least index from which on `needle` stands in the list. -/
def firstIndexOf (needle : List α) : List α → Option Nat
  | [] => none
  | a :: rest => if needle <+: a :: rest then some 0 else (firstIndexOf needle rest).map (· + 1)

theorem firstIndexOf_eq_some_iff (hneedle : needle ≠ []) :
    firstIndexOf needle list = some i ↔
      needle <+: list.drop i ∧ ∀ j < i, ¬ needle <+: list.drop j := by
  induction list generalizing i with
  | nil =>
    simp [firstIndexOf, hneedle]
  | cons a rest ih =>
    unfold firstIndexOf
    by_cases hhere : needle <+: a :: rest
    · rw [if_pos hhere]
      constructor
      · intro h
        obtain rfl := Option.some.inj h
        exact ⟨hhere, fun j hj => absurd hj (Nat.not_lt_zero j)⟩
      · rintro ⟨_, hleast⟩
        by_contra hi
        have hpos : 0 < i := Nat.pos_of_ne_zero fun hzero => hi (by rw [hzero])
        exact hleast 0 hpos hhere
    · rw [if_neg hhere]
      cases i with
      | zero => simp [hhere]
      | succ i =>
        have hmap : (firstIndexOf needle rest).map (· + 1) = some (i + 1) ↔
            firstIndexOf needle rest = some i := by
          cases firstIndexOf needle rest <;> simp
        rw [hmap, ih, List.drop_succ_cons]
        refine and_congr_right fun _ => ⟨fun hleast j hj => ?_, fun hleast j hj => ?_⟩
        · cases j with
          | zero => exact hhere
          | succ j => exact hleast j (Nat.lt_of_succ_lt_succ hj)
        · exact hleast (j + 1) (Nat.succ_lt_succ hj)

theorem firstIndexOf_eq_none_iff (hneedle : needle ≠ []) :
    firstIndexOf needle list = none ↔ ∀ j, ¬ needle <+: list.drop j := by
  induction list with
  | nil => simp [firstIndexOf, hneedle]
  | cons a rest ih =>
    unfold firstIndexOf
    by_cases hhere : needle <+: a :: rest
    · rw [if_pos hhere]
      simp only [reduceCtorEq, false_iff]
      exact fun hnone => hnone 0 hhere
    · rw [if_neg hhere, Option.map_eq_none_iff, ih]
      constructor
      · intro hnone j
        cases j with
        | zero => exact hhere
        | succ j => exact hnone j
      · exact fun hnone j => hnone (j + 1)

theorem firstIndexOf_append (hneedle : needle ≠ []) (h : firstIndexOf needle list = some i) :
    firstIndexOf needle (list ++ suffix) = some i := by
  rw [firstIndexOf_eq_some_iff hneedle] at h ⊢
  obtain ⟨hfound, hleast⟩ := h
  refine ⟨prefix_drop_append hfound, fun j hj hearlier => hleast j hj ?_⟩
  have hend := add_length_le_of_prefix_drop hfound hneedle
  exact prefix_drop_of_append hearlier (by omega)

/-- One item is found where it first stands. -/
theorem firstIndexOf_singleton (a : α) (list : List α) :
    firstIndexOf [a] list = if a ∈ list then some (list.idxOf a) else none := by
  induction list with
  | nil => rfl
  | cons b rest ih =>
    unfold firstIndexOf
    rw [ih]
    by_cases hb : b = a
    · subst hb
      simp
    · have hne : ¬ [a] <+: b :: rest := fun h => hb (List.cons_prefix_cons.mp h).1.symm
      rw [if_neg hne, List.idxOf_cons_ne _ hb]
      by_cases hmem : a ∈ rest
      · rw [if_pos hmem, if_pos (List.mem_cons_of_mem _ hmem)]
        rfl
      · rw [if_neg hmem, if_neg (by simp [hmem, Ne.symm hb])]
        rfl

/-- Behind a list without the needle's first item the needle is found. -/
theorem firstIndexOf_append_of_notMem {a : α} {before behind : List α} (h : a ∉ before) :
    firstIndexOf (a :: needle) (before ++ a :: (needle ++ behind)) = some before.length := by
  rw [firstIndexOf_eq_some_iff (List.cons_ne_nil _ _)]
  constructor
  · rw [List.drop_left]
    exact List.prefix_append (a :: needle) behind
  · intro j hj hprefix
    rw [List.drop_append_of_le_length (Nat.le_of_lt hj)] at hprefix
    have hdrop : before.drop j = before[j] :: before.drop (j + 1) := List.drop_eq_getElem_cons hj
    rw [hdrop] at hprefix
    have heq := (List.cons_prefix_cons.mp hprefix).1
    exact h (heq ▸ List.getElem_mem hj)

end Quilon
