import Mathlib.Order.Basic
import Mathlib.Data.List.Basic
import Mathlib.Order.Lattice

/-!
# Binary search

The halving loop over a sorted list.  Whatever it answers tells the last item that is not above the one
sought (`binarySearch_spec`).
-/

namespace Quilon

variable {α : Type*} [LinearOrder α]

/-- The place left of `size` many from `base` on: the half behind the middle goes if what stands there is
above `x`. -/
def narrow (list : List α) (x : α) (size base : Nat) : Nat :=
  if 1 < size then
    let half := size / 2
    let mid := base + half
    narrow list x (size - half) (if list[mid]?.any (x < ·) then base else mid)
  else base
termination_by size
decreasing_by omega

/-- The place of `x`, or else the one it would have. -/
def binarySearch (list : List α) (x : α) : Except Nat Nat :=
  let base := narrow list x list.length 0
  match list[base]? with
  | none => .error 0
  | some found => if found = x then .ok base else .error (if found < x then base + 1 else base)

variable {list : List α} {x : α} {size base : Nat}

/-- What lies behind the places left is above `x`, and what stands at the first of them is not, unless it is
the first of all. -/
structure Narrowed (list : List α) (x : α) (size base : Nat) : Prop where
  within : base + size ≤ list.length
  some_left : 0 < size
  first : base = 0 ∨ ∀ found ∈ list[base]?, found ≤ x
  behind : ∀ i, base + size ≤ i → ∀ found ∈ list[i]?, x < found

theorem narrowed_narrow (hsorted : list.Pairwise (· < ·)) (h : Narrowed list x size base) :
    Narrowed list x 1 (narrow list x size base) := by
  induction size using Nat.strongRecOn generalizing base with
  | ind size ih =>
    have hwithin := h.within
    unfold narrow
    by_cases hmore : 1 < size
    · rw [if_pos hmore]
      apply ih _ (by omega)
      have hlt : base + size / 2 < list.length := by omega
      have hmid : list[base + size / 2]? = some list[base + size / 2] := List.getElem?_eq_getElem hlt
      by_cases habove : x < list[base + size / 2]
      · -- what stands behind the middle is above `x` too
        rw [hmid, Option.any_some, decide_eq_true habove, if_pos rfl]
        refine ⟨by omega, by omega, h.first, fun i hi found hfound => ?_⟩
        obtain ⟨hi', rfl⟩ := List.getElem?_eq_some_iff.mp hfound
        rcases Nat.lt_or_eq_of_le (show base + size / 2 ≤ i by omega) with hbehind | rfl
        · exact habove.trans (List.pairwise_iff_getElem.mp hsorted _ _ hlt hi' hbehind)
        · exact habove
      · rw [hmid, Option.any_some, decide_eq_false habove, if_neg Bool.false_ne_true]
        refine ⟨by omega, by omega, .inr fun found hfound => ?_, fun i hi => h.behind i (by omega)⟩
        rw [hmid] at hfound
        rw [← Option.some.inj hfound]
        exact not_lt.mp habove
    · rw [if_neg hmore]
      have hone : size = 1 := by
        have := h.some_left
        omega
      rw [← hone]
      exact h

/-- The answer tells the last place that holds nothing above `x`. -/
theorem binarySearch_spec (hsorted : list.Pairwise (· < ·)) {first : α}
    (hfirst : list[0]? = some first) (hle : first ≤ x) :
    ∃ base, (binarySearch list x = .ok base ∨ binarySearch list x = .error (base + 1)) ∧
      (∃ found, list[base]? = some found ∧ found ≤ x) ∧
        ∀ i, base < i → ∀ found ∈ list[i]?, x < found := by
  obtain ⟨hlength, -⟩ := List.getElem?_eq_some_iff.mp hfirst
  have hall : Narrowed list x list.length 0 := by
    refine ⟨by omega, hlength, .inl rfl, fun i hi found hfound => ?_⟩
    rw [List.getElem?_eq_none (by omega)] at hfound
    cases hfound
  have hnarrowed := narrowed_narrow hsorted hall
  have hbehind : ∀ i, narrow list x list.length 0 < i → ∀ found ∈ list[i]?, x < found :=
    fun i hi => hnarrowed.behind i hi
  unfold binarySearch
  generalize narrow list x list.length 0 = base at hnarrowed hbehind ⊢
  have hlt : base < list.length := hnarrowed.within
  have hfound : list[base]? = some list[base] := List.getElem?_eq_getElem hlt
  have hbase : ∀ found ∈ list[base]?, found ≤ x := by
    rcases hnarrowed.first with rfl | hbase
    · intro found hfound
      obtain rfl : first = found := Option.some.inj (hfirst.symm.trans hfound)
      exact hle
    · exact hbase
  refine ⟨base, ?_, ⟨_, hfound, hbase _ hfound⟩, hbehind⟩
  simp only [hfound]
  by_cases heq : list[base] = x
  · exact .inl (if_pos heq)
  · have hbelow : list[base] < x := lt_of_le_of_ne (hbase _ hfound) heq
    rw [if_neg heq, if_pos hbelow]
    exact .inr rfl

end Quilon
