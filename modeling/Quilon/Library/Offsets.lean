import Mathlib.Data.List.Basic

/-!
# Offsets in a list of sized items

Items of positive sizes laid side by side: where each begins, and which of them begins at an offset.
-/

namespace Quilon

variable {α : Type*} (size : α → Nat)

/-- The room the items take. -/
def extent : List α → Nat
  | [] => 0
  | a :: rest => size a + extent rest

/-- How many items end at or before `offset`, if one ends just there. -/
def indexAt : List α → Nat → Option Nat
  | _, 0 => some 0
  | [], _ + 1 => none
  | a :: rest, offset + 1 =>
    if size a ≤ offset + 1 then (indexAt rest (offset + 1 - size a)).map (· + 1) else none

/-- Where each item begins, behind `offset`. -/
def starts (offset : Nat) : List α → List Nat
  | [] => []
  | a :: rest => offset :: starts (offset + size a) rest

variable {size} {list front back : List α} {offset i j : Nat}

@[simp] theorem extent_nil : extent size [] = 0 := rfl

@[simp] theorem extent_cons {a : α} : extent size (a :: list) = size a + extent size list := rfl

@[simp] theorem extent_append : extent size (front ++ back) = extent size front + extent size back := by
  induction front with
  | nil => rw [List.nil_append, extent_nil, Nat.zero_add]
  | cons a front ih => rw [List.cons_append, extent_cons, extent_cons, ih, Nat.add_assoc]

theorem extent_reverse (list : List α) : extent size list.reverse = extent size list := by
  induction list with
  | nil => rfl
  | cons a list ih =>
    rw [List.reverse_cons, extent_append, ih, extent_cons, extent_cons, extent_nil, Nat.add_zero,
      Nat.add_comm]

theorem extent_replicate (n : Nat) (a : α) : extent size (List.replicate n a) = n * size a := by
  induction n with
  | zero => rw [List.replicate_zero, extent_nil, Nat.zero_mul]
  | succ n ih => rw [List.replicate_succ, extent_cons, ih, Nat.succ_mul, Nat.add_comm]

theorem extent_flatten {lists : List (List α)} :
    extent size lists.flatten = extent (extent size) lists := by
  induction lists with
  | nil => rfl
  | cons part lists ih => rw [List.flatten_cons, extent_append, extent_cons, ih]

section Positive

variable (hpos : ∀ a, 0 < size a)
include hpos

theorem extent_pos (hne : list ≠ []) : 0 < extent size list := by
  obtain ⟨a, rest, rfl⟩ := List.exists_cons_of_ne_nil hne
  exact Nat.lt_of_lt_of_le (hpos a) (Nat.le_add_right _ _)

theorem indexAt_extent (front back : List α) :
    indexAt size (front ++ back) (extent size front) = some front.length := by
  induction front with
  | nil => cases back <;> rfl
  | cons a front ih =>
    have hroom : size a + extent size front ≠ 0 := by
      have := hpos a
      omega
    obtain ⟨room, hroom⟩ := Nat.exists_eq_succ_of_ne_zero hroom
    have hle : size a ≤ room + 1 := by omega
    have hrest : room + 1 - size a = extent size front := by omega
    rw [List.cons_append, extent_cons, hroom, Nat.succ_eq_add_one, indexAt, if_pos hle, hrest, ih]
    rfl

theorem indexAt_eq_some_iff :
    indexAt size list offset = some i ↔ i ≤ list.length ∧ extent size (list.take i) = offset := by
  constructor
  · intro h
    induction list generalizing offset i with
    | nil =>
      cases offset with
      | zero =>
        obtain rfl : 0 = i := Option.some.inj h
        exact ⟨Nat.le_refl 0, rfl⟩
      | succ offset => cases h
    | cons a rest ih =>
      cases offset with
      | zero =>
        obtain rfl : 0 = i := Option.some.inj h
        exact ⟨Nat.zero_le _, rfl⟩
      | succ offset =>
        rw [indexAt] at h
        split at h
        case isFalse => cases h
        case isTrue hle =>
          obtain ⟨k, hk, rfl⟩ := Option.map_eq_some_iff.mp h
          obtain ⟨hlength, hextent⟩ := ih hk
          refine ⟨Nat.succ_le_succ hlength, ?_⟩
          rw [List.take_succ_cons, extent_cons, hextent]
          omega
  · rintro ⟨hi, rfl⟩
    have hindex := indexAt_extent hpos (list.take i) (list.drop i)
    rwa [List.take_append_drop, List.length_take, Nat.min_eq_left hi] at hindex

end Positive

theorem length_starts (size : α → Nat) (list : List α) (offset : Nat) :
    (starts size offset list).length = list.length := by
  induction list generalizing offset with
  | nil => rfl
  | cons a rest ih => rw [starts, List.length_cons, List.length_cons, ih]

theorem getElem?_starts (hi : i < list.length) :
    (starts size offset list)[i]? = some (offset + extent size (list.take i)) := by
  induction list generalizing offset i with
  | nil => exact absurd hi (Nat.not_lt_zero i)
  | cons a rest ih =>
    cases i with
    | zero => rfl
    | succ i =>
      rw [starts, List.getElem?_cons_succ, ih (Nat.lt_of_succ_lt_succ hi), List.take_succ_cons,
        extent_cons, Nat.add_assoc]

/-- An item that lies in the middle of three lists. -/
theorem exists_of_middle {before middle after : List α} {a : α} (hsize : ∀ a, 0 < size a)
    (h : before ++ (middle ++ after) = front ++ a :: back)
    (hstart : extent size before ≤ extent size front)
    (hstop : extent size front < extent size before + extent size middle) :
    ∃ front' back', front = before ++ front' ∧ middle = front' ++ a :: back' := by
  obtain ⟨front', rfl, hrest⟩ | ⟨more, rfl, hmore⟩ := List.append_eq_append_iff.mp h
  · refine ⟨front', ?_⟩
    obtain ⟨back', hback, hpost⟩ | ⟨more, hmiddle, hmore⟩ := List.append_eq_append_iff.mp hrest
    · exfalso
      rw [hback, extent_append, extent_append] at hstop
      omega
    · cases more with
      | nil =>
        exfalso
        rw [hmiddle, List.append_nil, extent_append] at hstop
        omega
      | cons b more =>
        obtain ⟨rfl, -⟩ := List.cons.inj hmore
        exact ⟨more, rfl, hmiddle⟩
  · cases more with
    | nil =>
      rw [List.append_nil] at hstart hstop ⊢
      refine ⟨[], ?_⟩
      cases middle with
      | nil =>
        rw [extent_nil] at hstop
        omega
      | cons b middle =>
        obtain ⟨rfl, -⟩ := List.cons.inj hmore
        exact ⟨middle, by rw [List.append_nil], rfl⟩
    | cons b more =>
      exfalso
      have hpos := hsize b
      rw [extent_append, extent_cons] at hstart
      omega

end Quilon
