import Mathlib.Data.List.Basic

/-!
# Taking the segments of a list in turn

A list with separators in it is read segment by segment: the reader looks for the first separator,
takes what stands before it and goes on behind it, and takes what is left when there is no separator
any more.  What it has not read yet is the rest of the segments of the whole list.

Main results:

* `remaining_of_terminated` — a separator ends the next segment;
* `remaining_of_not_mem` — with no separator left, what remains is the last segment.
-/

namespace Quilon

variable {α : Type*} [BEq α] [LawfulBEq α] {separator : α} {entries segment rest : List α} {n : Nat}

/-- The list from its `n`-th segment on. -/
def remaining (separator : α) (entries : List α) (n : Nat) : List α :=
  [separator].intercalate ((entries.splitOn separator).drop n)

theorem remaining_zero : remaining separator entries 0 = entries :=
  List.intercalate_splitOn separator

theorem not_mem_of_mem_splitOn (h : segment ∈ entries.splitOn separator) :
    separator ∉ segment := by
  induction entries generalizing segment with
  | nil =>
    rw [List.splitOn_nil, List.mem_singleton] at h
    exact h ▸ List.not_mem_nil
  | cons entry entries ih =>
    rw [List.splitOn_cons_eq_if_modifyHead] at h
    split at h
    case isTrue =>
      rcases List.mem_cons.mp h with rfl | h
      · exact List.not_mem_nil
      · exact ih h
    case isFalse hne =>
      obtain ⟨first, others, hsplit⟩ := List.exists_cons_of_ne_nil
        (List.splitOn_ne_nil separator entries)
      rw [hsplit] at h ih
      rcases List.mem_cons.mp h with rfl | h
      · have hfirst := ih List.mem_cons_self
        simp only [List.mem_cons, not_or]
        exact ⟨fun heq => hne (beq_iff_eq.mpr heq.symm), hfirst⟩
      · exact ih (List.mem_cons_of_mem _ h)

/-- The segments of what remains are the segments that remain. -/
theorem splitOn_remaining (h : (entries.splitOn separator).drop n ≠ []) :
    (remaining separator entries n).splitOn separator = (entries.splitOn separator).drop n :=
  List.splitOn_intercalate separator
    (fun _ hmem => not_mem_of_mem_splitOn (List.mem_of_mem_drop hmem)) h

theorem remaining_of_terminated (h : remaining separator entries n = segment ++ separator :: rest)
    (hsegment : separator ∉ segment) :
    (entries.splitOn separator)[n]? = some segment ∧
      n + 1 < (entries.splitOn separator).length ∧
        remaining separator entries (n + 1) = rest := by
  have hsome : (entries.splitOn separator).drop n ≠ [] := by
    intro hnone
    rw [remaining, hnone] at h
    simp at h
  have hsplit := splitOn_remaining hsome
  rw [h, List.splitOn_append_cons_self_of_not_mem hsegment] at hsplit
  have htail : (entries.splitOn separator).drop (n + 1) = rest.splitOn separator := by
    rw [← List.drop_drop, ← hsplit, List.drop_one, List.tail_cons]
  refine ⟨?_, ?_, ?_⟩
  · rw [← List.head?_drop, ← hsplit, List.head?_cons]
  · have hne := List.splitOn_ne_nil separator rest
    rw [← htail] at hne
    exact Nat.lt_of_not_le fun hle => hne (List.drop_eq_nil_of_le hle)
  · rw [remaining, htail, List.intercalate_splitOn]

theorem remaining_of_not_mem (h : separator ∉ remaining separator entries n) :
    (entries.splitOn separator).length ≤ n + 1 ∧
      (entries.splitOn separator)[n]?.getD [] = remaining separator entries n ∧
        remaining separator entries (n + 1) = [] := by
  by_cases hnone : (entries.splitOn separator).drop n = []
  · have hlength := List.drop_eq_nil_iff.mp hnone
    refine ⟨by omega, ?_, ?_⟩
    · rw [remaining, hnone, List.getElem?_eq_none hlength]
      rfl
    · rw [remaining, List.drop_eq_nil_of_le (by omega)]
      rfl
  · have hsplit := splitOn_remaining hnone
    rw [List.splitOn_eq_singleton h] at hsplit
    have hlength := congrArg List.length hsplit
    rw [List.length_singleton, List.length_drop] at hlength
    refine ⟨by omega, ?_, ?_⟩
    · rw [← List.head?_drop, ← hsplit]
      rfl
    · rw [remaining, List.drop_eq_nil_of_le (by omega)]
      rfl

end Quilon
