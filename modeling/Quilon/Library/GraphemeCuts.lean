import Quilon.Library.Graphemes

/-!
# Cutting a text between clusters

A place in a text is a cut if whole clusters stand before it.  That is told from the rules at the
place alone (`isCut_append_iff`), and a text cut at such places has the clusters of its parts
(`Seamless.graphemes_flatten`).
-/

namespace Quilon

variable {α : Type*} (classOf : α → GraphemeClass)

/-- Whole clusters take the first `k` items of the text. -/
def IsCut (text : List α) (k : Nat) : Prop :=
  ∃ j, ((graphemes classOf text).take j).flatten.length = k

/-- No rule joins what `back` begins with to what stands before it. -/
def Apart (front back : List α) : Prop :=
  ∀ c ∈ back.head?, joins (after classOf [] front) (classOf c) = false

instance decidableApart (front back : List α) : Decidable (Apart classOf front back) := by
  unfold Apart
  infer_instance

/-- No rule joins any of the parts to what stands before it. -/
def Seamless (front : List α) : List (List α) → Prop
  | [] => True
  | part :: rest => (part ≠ [] → Apart classOf front part) ∧ Seamless (front ++ part) rest

variable {classOf} {front part back : List α} {parts : List (List α)}

theorem apart_nil : Apart classOf front [] := fun _ hc => by cases hc

theorem apart_append (hne : part ≠ []) :
    Apart classOf front (part ++ back) ↔ Apart classOf front part := by
  unfold Apart
  rw [List.head?_append_of_ne_nil _ hne]

/-- The clusters of two texts with no rule to join them stand side by side. -/
theorem Apart.graphemes (h : Apart classOf front back) :
    graphemes classOf (front ++ back) = graphemes classOf front ++ graphemes classOf back := by
  cases hback : back.head? with
  | none =>
    rw [List.head?_eq_none_iff] at hback
    rw [hback, List.append_nil]
    exact (List.append_nil _).symm
  | some c => exact graphemes_append_of_not_joins (h c hback) hback

/-- The rules at a place tell whether a cluster ends there. -/
theorem isCut_append_iff :
    IsCut classOf (front ++ back) front.length ↔ Apart classOf front back := by
  constructor
  · rintro ⟨j, hj⟩ c hc
    have hsegmented := segmented_graphemes classOf (front ++ back)
    have hflatten := flatten_graphemes classOf (front ++ back)
    rw [← List.take_append_drop j (graphemes classOf (front ++ back))] at hsegmented hflatten
    rw [List.flatten_append] at hflatten
    obtain ⟨hfront, hback⟩ := List.append_inj hflatten hj
    rw [segmented_append, hfront] at hsegmented
    have hbehind := hsegmented.2
    -- the first of the clusters behind the place begins with `c`
    cases hclusters : (graphemes classOf (front ++ back)).drop j with
    | nil =>
      rw [hclusters] at hback
      rw [← hback] at hc
      cases hc
    | cons g gs =>
      rw [hclusters] at hbehind hback
      cases g with
      | nil => exact hbehind.1.elim
      | cons c' g =>
        rw [← hback] at hc
        obtain rfl : c' = c := Option.some.inj hc
        exact (isCluster_cons.mp hbehind.1).1
  · intro h
    refine ⟨(graphemes classOf front).length, ?_⟩
    rw [h.graphemes, List.take_left, flatten_graphemes]

/-- A part with no rule to join it to what stands around it. -/
theorem graphemes_of_apart (hfront : Apart classOf front (part ++ back))
    (hback : Apart classOf (front ++ part) back) :
    graphemes classOf (front ++ part ++ back) =
      graphemes classOf front ++ graphemes classOf part ++ graphemes classOf back := by
  rw [hback.graphemes]
  by_cases hne : part = []
  · subst hne
    rw [List.append_nil]
    exact congrArg (· ++ graphemes classOf back) (List.append_nil _).symm
  · rw [((apart_append hne).mp hfront).graphemes]

theorem isCut_length (text : List α) : IsCut classOf text text.length := by
  have hcut := isCut_append_iff.mpr (@apart_nil _ classOf text)
  rwa [List.append_nil] at hcut

/-- The text before the last cluster of a part ends at a cut, whatever stands behind the part. -/
theorem isCut_dropLast (h : Apart classOf front (part ++ back)) :
    IsCut classOf (front ++ (part ++ back))
      (front ++ (graphemes classOf part).dropLast.flatten).length := by
  cases hlast : (graphemes classOf part).getLast? with
  | none =>
    rw [List.getLast?_eq_none_iff.mp hlast]
    show IsCut classOf _ (front ++ []).length
    rw [List.append_nil]
    exact isCut_append_iff.mpr h
  | some g =>
    obtain ⟨gs, hgs⟩ := List.getLast?_eq_some_iff.mp hlast
    rw [hgs, List.dropLast_concat]
    have hg : g ≠ [] :=
      (segmented_graphemes classOf part).ne_nil g (List.mem_of_getLast? hlast)
    have hpart : part = gs.flatten ++ g := by
      rw [← flatten_graphemes classOf part, hgs, List.flatten_append, List.flatten_singleton]
    have hne : part ≠ [] := by
      rw [hpart]
      exact List.append_ne_nil_of_right_ne_nil _ hg
    have hclusters := ((apart_append hne).mp h).graphemes
    -- without what stands behind, `g` is the last cluster
    have hcut : IsCut classOf (front ++ gs.flatten ++ g) (front ++ gs.flatten).length := by
      refine ⟨(graphemes classOf front ++ gs).length, ?_⟩
      rw [List.append_assoc, ← hpart, hclusters, hgs, ← List.append_assoc, List.take_left,
        List.flatten_append, flatten_graphemes]
    have hapart : Apart classOf (front ++ gs.flatten) (g ++ back) :=
      (apart_append hg).mpr (isCut_append_iff.mp hcut)
    have htext : front ++ (part ++ back) = front ++ gs.flatten ++ (g ++ back) := by
      rw [hpart]
      simp only [List.append_assoc]
    rw [htext]
    exact isCut_append_iff.mpr hapart

theorem Seamless.graphemes_flatten (h : Seamless classOf front parts) :
    graphemes classOf (front ++ parts.flatten) =
      graphemes classOf front ++ parts.flatMap (graphemes classOf) := by
  induction parts generalizing front with
  | nil =>
    rw [List.flatten_nil, List.append_nil, List.flatMap_nil, List.append_nil]
  | cons part parts ih =>
    rw [List.flatten_cons, ← List.append_assoc, ih h.2, List.flatMap_cons, ← List.append_assoc]
    by_cases hne : part = []
    · subst hne
      rw [List.append_nil]
      exact congrArg (· ++ parts.flatMap (graphemes classOf)) (List.append_nil _).symm
    · rw [(h.1 hne).graphemes]

theorem Seamless.filter [DecidableEq α] (h : Seamless classOf front parts) :
    Seamless classOf front (parts.filter (· ≠ [])) := by
  induction parts generalizing front with
  | nil => exact trivial
  | cons part parts ih =>
    rw [List.filter_cons]
    split
    case isTrue => exact ⟨h.1, ih h.2⟩
    case isFalse hempty =>
      have hnil : part = [] := by simpa using hempty
      have hrest := h.2
      rw [hnil, List.append_nil] at hrest
      exact ih hrest

end Quilon
