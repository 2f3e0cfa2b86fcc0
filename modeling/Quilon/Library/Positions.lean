import Mathlib.Data.List.Basic
import Mathlib.Data.List.Nodup
import Mathlib.Data.List.Perm.Basic

/-!
# Entries taken in another order

The entries of a list carry keys, and a second list of keys gives the order they are taken in.
`positions key order entries` lists where each entry is found; `filter_positions_eq_iff` says when
taking them so is taking them from left to right, as far as a condition can tell.
-/

namespace Quilon

variable {α β : Type*} [DecidableEq α]

/-- The positions of the entries, in the order of their keys. -/
def positions (key : β → α) (order : List α) (entries : List β) : List Nat :=
  order.filterMap fun a => entries.findIdx? (key · == a)

variable {key : β → α} {order : List α} {entries : List β}

/-- The key that comes first in the order is found first. -/
def Precedes (key : β → α) (order : List α) (a b : β) : Prop :=
  order.idxOf (key a) < order.idxOf (key b)

theorem key_of_findIdx? {a : α} {i : Nat} (h : entries.findIdx? (key · == a) = some i) :
    ∃ b, entries[i]? = some b ∧ key b = a := by
  obtain ⟨hlt, hkey, _⟩ := List.findIdx?_eq_some_iff_getElem.mp h
  exact ⟨entries[i], List.getElem?_eq_getElem hlt, by simpa using hkey⟩

theorem findIdx?_of_getElem? (hkeys : (entries.map key).Nodup) {b : β} {i : Nat}
    (h : entries[i]? = some b) : entries.findIdx? (key · == key b) = some i := by
  obtain ⟨hlt, rfl⟩ := List.getElem?_eq_some_iff.mp h
  refine List.findIdx?_eq_some_iff_getElem.mpr ⟨hlt, by simp, fun j hj => ?_⟩
  have hne : key entries[j] ≠ key entries[i] := by
    have := List.pairwise_iff_getElem.mp hkeys j i (by simp; omega) (by simpa using hlt) hj
    simpa using this
  simpa using hne

theorem mem_positions {i : Nat} :
    i ∈ positions key order entries → ∃ b, entries[i]? = some b ∧ key b ∈ order := by
  intro h
  obtain ⟨a, ha, hi⟩ := List.mem_filterMap.mp h
  obtain ⟨b, hb, rfl⟩ := key_of_findIdx? hi
  exact ⟨b, hb, ha⟩

theorem mem_positions_of_getElem? (hkeys : (entries.map key).Nodup) {b : β} {i : Nat}
    (h : entries[i]? = some b) (hb : key b ∈ order) : i ∈ positions key order entries :=
  List.mem_filterMap.mpr ⟨key b, hb, findIdx?_of_getElem? hkeys h⟩

/-- Positions come in the order of their keys. -/
theorem pairwise_positions (horder : order.Nodup) :
    (positions key order entries).Pairwise fun i j =>
      ∀ a b, entries[i]? = some a → entries[j]? = some b → Precedes key order a b := by
  have hsorted : order.Pairwise fun a b => order.idxOf a < order.idxOf b := by
    rw [List.pairwise_iff_getElem]
    intro i j hi hj hlt
    rw [horder.idxOf_getElem i hi, horder.idxOf_getElem j hj]
    exact hlt
  refine hsorted.filterMap _ fun a b hab i hi j hj c d hc hd => ?_
  obtain ⟨c', hc', rfl⟩ := key_of_findIdx? hi
  obtain ⟨d', hd', rfl⟩ := key_of_findIdx? hj
  obtain rfl := Option.some.inj (hc.symm.trans hc')
  obtain rfl := Option.some.inj (hd.symm.trans hd')
  exact hab

theorem nodup_positions (horder : order.Nodup) : (positions key order entries).Nodup := by
  refine (List.pairwise_iff_forall_sublist.mpr fun {i j} hsub => ?_)
  have hij := List.pairwise_iff_forall_sublist.mp (pairwise_positions horder) hsub
  obtain ⟨b, hb, _⟩ := mem_positions (hsub.subset List.mem_cons_self)
  rintro rfl
  exact Nat.lt_irrefl _ (hij b b hb hb)

/-- The positions of the entries that meet a condition. -/
def meeting (p : β → Bool) (entries : List β) (i : Nat) : Bool :=
  (entries[i]?).any p

theorem meeting_iff {p : β → Bool} {i : Nat} :
    meeting p entries i = true ↔ ∃ b, entries[i]? = some b ∧ p b = true := by
  simp [meeting, Option.any_eq_true]

/-- Taken in the order of their keys, the entries that meet the condition come from left to right. -/
theorem filter_positions_eq_iff (horder : order.Nodup) (hkeys : (entries.map key).Nodup)
    (p : β → Bool) :
    (positions key order entries).filter (meeting p entries) =
        (List.range entries.length).filter (meeting p entries) ↔
      (∀ b ∈ entries, p b → key b ∈ order) ∧
        entries.Pairwise fun a b => p a → p b → Precedes key order a b := by
  have hpairwise : (positions key order entries).Pairwise _ := pairwise_positions horder
  have hrange : ∀ {b i}, entries[i]? = some b → i ∈ List.range entries.length :=
    fun hi => List.mem_range.mpr (List.getElem?_eq_some_iff.mp hi).1
  constructor
  · intro heq
    constructor
    · intro b hb hp
      obtain ⟨i, hi⟩ := List.mem_iff_getElem?.mp hb
      have hmem := List.mem_filter.mpr ⟨hrange hi, meeting_iff.mpr ⟨b, hi, hp⟩⟩
      rw [← heq] at hmem
      obtain ⟨b', hb', hkey⟩ := mem_positions (List.mem_filter.mp hmem).1
      obtain rfl := Option.some.inj (hi.symm.trans hb')
      exact hkey
    · have hfiltered := List.Pairwise.filter (meeting p entries) hpairwise
      rw [heq, List.pairwise_filter, List.pairwise_iff_getElem] at hfiltered
      rw [List.pairwise_iff_getElem]
      intro i j hi hj hlt hpi hpj
      have hij := hfiltered i j (by simpa using hi) (by simpa using hj) hlt
      simp only [List.getElem_range] at hij
      have hi' := List.getElem?_eq_getElem hi
      have hj' := List.getElem?_eq_getElem hj
      exact hij (meeting_iff.mpr ⟨_, hi', hpi⟩) (meeting_iff.mpr ⟨_, hj', hpj⟩) _ _ hi' hj'
  · rintro ⟨hdeclared, hwritten⟩
    -- Both lists hold the same positions, and both in the order of their keys.
    have hordered : (List.range entries.length).Pairwise fun i j =>
        meeting p entries i → meeting p entries j →
          ∀ a b, entries[i]? = some a → entries[j]? = some b → Precedes key order a b := by
      rw [List.pairwise_iff_getElem] at hwritten ⊢
      intro i j hi hj hlt hpi hpj a b ha hb
      simp only [List.getElem_range, List.length_range] at hi hj hpi hpj ha hb
      obtain ⟨a', ha', hpa⟩ := meeting_iff.mp hpi
      obtain ⟨b', hb', hpb⟩ := meeting_iff.mp hpj
      obtain rfl := Option.some.inj (ha.symm.trans ha')
      obtain rfl := Option.some.inj (hb.symm.trans hb')
      obtain ⟨_, rfl⟩ := List.getElem?_eq_some_iff.mp ha
      obtain ⟨_, rfl⟩ := List.getElem?_eq_some_iff.mp hb
      exact hwritten i j hi hj hlt hpa hpb
    refine List.Perm.eq_of_pairwise ?_ (List.Pairwise.filter _ hpairwise)
      (List.pairwise_filter.mpr hordered) ?_
    · intro i j hi hj hij hji
      obtain ⟨a, ha, _⟩ := meeting_iff.mp (List.mem_filter.mp hi).2
      obtain ⟨b, hb, _⟩ := meeting_iff.mp (List.mem_filter.mp hj).2
      have hlt : order.idxOf (key a) < order.idxOf (key b) := hij a b ha hb
      have hgt : order.idxOf (key b) < order.idxOf (key a) := hji b a hb ha
      omega
    · have hnodup : (positions key order entries).Nodup := nodup_positions horder
      refine (List.perm_ext_iff_of_nodup (hnodup.filter _) (List.nodup_range.filter _)).mpr fun i => ?_
      simp only [List.mem_filter]
      refine and_congr_left fun hi => ?_
      obtain ⟨b, hb, hp⟩ := meeting_iff.mp hi
      have hkey := hdeclared b (List.mem_of_getElem? hb) hp
      exact iff_of_true (mem_positions_of_getElem? hkeys hb hkey) (hrange hb)

end Quilon
