import Mathlib.Data.Finset.Card

/-!
# Saturating a set

A set grows round by round by all that a monotone rule gives and the set does not hold yet.  The
loop runs on fuel.

Main results:

* `saturate_eq_some` — where the rule gives members of a finite support only, the loop ends;
* `closed_of_saturate`, `saturate_subset` — the result is the least set closed under the rule;
* `rule_of_saturate` — and all of it is given by the rule.
-/

namespace Quilon.Saturation

variable {α : Type*} (rule : List α → α → Prop)

/-- One round: what the rule gives that is new. -/
def IsRound (round : List α → List α) : Prop :=
  ∀ set a, a ∈ round set ↔ rule set a ∧ a ∉ set

def IsMonotone : Prop := ∀ set set' : List α, set ⊆ set' → ∀ a, rule set a → rule set' a

/-- All that the rule gives is there. -/
def Closed (set : List α) : Prop := ∀ a, rule set a → a ∈ set

/-- `none` when the fuel runs out. -/
def saturate (round : List α → List α) : Nat → List α → Option (List α)
  | 0, _ => none
  | fuel + 1, set =>
    if (round set).isEmpty then some set else saturate round fuel (round set ++ set)

variable {rule} {round : List α → List α} {fuel : Nat} {set result : List α}

theorem closed_iff (hround : IsRound rule round) : round set = [] ↔ Closed rule set := by
  rw [List.eq_nil_iff_forall_not_mem]
  constructor
  · intro h a hrule
    by_contra hnot
    exact h a ((hround set a).mpr ⟨hrule, hnot⟩)
  · intro h a ha
    obtain ⟨hrule, hnot⟩ := (hround set a).mp ha
    exact hnot (h a hrule)

theorem round_of_saturate (h : saturate round fuel set = some result) : round result = [] := by
  induction fuel generalizing set with
  | zero => cases h
  | succ fuel ih =>
    rw [saturate] at h
    by_cases hdone : (round set).isEmpty = true
    · rw [if_pos hdone] at h
      obtain rfl := Option.some.inj h
      exact List.isEmpty_iff.mp hdone
    · rw [if_neg hdone] at h
      exact ih h

theorem closed_of_saturate (hround : IsRound rule round)
    (h : saturate round fuel set = some result) : Closed rule result :=
  (closed_iff hround).mp (round_of_saturate h)

/-- Every closed set that holds the first one holds the result. -/
theorem saturate_subset (hround : IsRound rule round) (hmono : IsMonotone rule)
    {closed : List α} (hclosed : Closed rule closed) (hset : set ⊆ closed)
    (h : saturate round fuel set = some result) : result ⊆ closed := by
  induction fuel generalizing set with
  | zero => cases h
  | succ fuel ih =>
    rw [saturate] at h
    by_cases hdone : (round set).isEmpty = true
    · rw [if_pos hdone] at h
      obtain rfl := Option.some.inj h
      exact hset
    · rw [if_neg hdone] at h
      have hnew : round set ⊆ closed := by
        intro a ha
        obtain ⟨hrule, -⟩ := (hround set a).mp ha
        exact hclosed a (hmono set closed hset a hrule)
      exact ih (List.append_subset.mpr ⟨hnew, hset⟩) h

/-- What is in the result is there by the rule. -/
theorem rule_of_saturate (hround : IsRound rule round) (hmono : IsMonotone rule)
    (hset : ∀ a ∈ set, rule set a) (h : saturate round fuel set = some result) :
    ∀ a ∈ result, rule result a := by
  induction fuel generalizing set with
  | zero => cases h
  | succ fuel ih =>
    rw [saturate] at h
    by_cases hdone : (round set).isEmpty = true
    · rw [if_pos hdone] at h
      obtain rfl := Option.some.inj h
      exact hset
    · rw [if_neg hdone] at h
      refine ih (fun a ha => ?_) h
      have hmore : set ⊆ round set ++ set := List.subset_append_right _ _
      obtain hnew | hold := List.mem_append.mp ha
      · exact hmono _ _ hmore a ((hround set a).mp hnew).1
      · exact hmono _ _ hmore a (hset a hold)

theorem saturate_mono (h : saturate round fuel set = some result) {more : Nat}
    (hmore : fuel ≤ more) : saturate round more set = some result := by
  induction fuel generalizing set more with
  | zero => cases h
  | succ fuel ih =>
    obtain ⟨more, rfl⟩ := Nat.exists_eq_succ_of_ne_zero (Nat.ne_of_gt (Nat.lt_of_lt_of_le
      (Nat.succ_pos fuel) hmore))
    rw [saturate] at h ⊢
    by_cases hdone : (round set).isEmpty = true
    · rw [if_pos hdone] at h ⊢
      exact h
    · rw [if_neg hdone] at h ⊢
      exact ih h (Nat.le_of_succ_le_succ hmore)

variable [DecidableEq α]

/-- What a round adds is not to be added any more. -/
theorem card_lt {support set : List α} (hsupport : round set ⊆ support)
    (hnew : ∀ a ∈ round set, a ∉ set) (hne : round set ≠ []) :
    (support.toFinset \ (round set ++ set).toFinset).card <
      (support.toFinset \ set.toFinset).card := by
  obtain ⟨a, ha⟩ := List.exists_mem_of_ne_nil _ hne
  refine Finset.card_lt_card ?_
  rw [Finset.ssubset_iff_of_subset]
  · refine ⟨a, ?_, ?_⟩
    · rw [Finset.mem_sdiff, List.mem_toFinset, List.mem_toFinset]
      exact ⟨hsupport ha, hnew a ha⟩
    · rw [Finset.mem_sdiff, List.mem_toFinset, List.mem_toFinset]
      exact fun h => h.2 (List.mem_append_left set ha)
  · intro b hb
    rw [Finset.mem_sdiff, List.mem_toFinset, List.mem_toFinset] at hb ⊢
    exact ⟨hb.1, fun hset => hb.2 (List.mem_append_right _ hset)⟩

theorem saturate_eq_some (hround : IsRound rule round) {support : List α}
    (hsupport : ∀ set a, rule set a → a ∈ support)
    (hfuel : (support.toFinset \ set.toFinset).card < fuel) :
    ∃ result, saturate round fuel set = some result := by
  induction fuel generalizing set with
  | zero => exact absurd hfuel (Nat.not_lt_zero _)
  | succ fuel ih =>
    rw [saturate]
    by_cases hdone : (round set).isEmpty = true
    · exact ⟨set, if_pos hdone⟩
    · rw [if_neg hdone]
      have hsubset : round set ⊆ support := fun a ha =>
        hsupport set a ((hround set a).mp ha).1
      have hnew : ∀ a ∈ round set, a ∉ set := fun a ha => ((hround set a).mp ha).2
      have hless := card_lt hsubset hnew (mt List.isEmpty_iff.mpr hdone)
      exact ih (Nat.lt_of_lt_of_le hless (Nat.le_of_lt_succ hfuel))

end Quilon.Saturation
