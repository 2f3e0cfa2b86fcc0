import Mathlib.Data.List.Basic

/-!
# Extended grapheme clusters

The rules GB1 to GB999 of UAX #29 over classes of characters: whether a character joins the cluster
before it is decided by the class of the character and the classes before it, nearest first
(`joins`).  `graphemes` cuts a text where no rule joins.

* `graphemes_eq_iff`: the clusters are the only division of the text whose pieces begin where no
  rule joins and have no such place inside;
* `context_of_not_joins`: behind a place where a cluster begins, nothing depends any more on what
  stands before it;
* `graphemes_flatten_take`, `graphemes_flatten_drop`: a text made of some of the clusters in a row
  has these clusters.
-/

namespace Quilon

/-- `Indic_Conjunct_Break` of a character that extends. -/
inductive ConjunctRole where
  | none
  | extend
  | linker
deriving DecidableEq

/-- `Grapheme_Cluster_Break`, with the two properties that GB9c and GB11 read beside it. -/
inductive GraphemeClass where
  | cr
  | lf
  | control
  | extend (conjunct : ConjunctRole)
  | zwj
  | regionalIndicator
  | prepend
  | spacingMark
  | l
  | v
  | t
  | lv
  | lvt
  | pictographic
  | consonant
  | other
deriving DecidableEq

namespace GraphemeClass

def isControl : GraphemeClass → Bool
  | cr | lf | control => true
  | _ => false

/-- GB9 -/
def isExtender : GraphemeClass → Bool
  | extend _ | zwj => true
  | _ => false

/-- GB6 to GB8 -/
def hangulJoins : GraphemeClass → GraphemeClass → Bool
  | l, l | l, v | l, lv | l, lvt => true
  | lv, v | lv, t | v, v | v, t => true
  | lvt, t | t, t => true
  | _, _ => false

end GraphemeClass

open GraphemeClass

/-- GB9c: a consonant, and behind it extending characters with a linker among them. -/
def afterConsonant (linked : Bool) : List GraphemeClass → Bool
  | .extend .linker :: before => afterConsonant true before
  | .extend .extend :: before | .zwj :: before => afterConsonant linked before
  | .consonant :: _ => linked
  | _ => false

/-- A pictograph, and behind it extending characters. -/
def afterPictograph : List GraphemeClass → Bool
  | .extend _ :: before => afterPictograph before
  | .pictographic :: _ => true
  | _ => false

/-- GB11 -/
def afterJoiner : List GraphemeClass → Bool
  | .zwj :: before => afterPictograph before
  | _ => false

/-- GB12, GB13 -/
def oddIndicators : List GraphemeClass → Bool
  | .regionalIndicator :: before => !oddIndicators before
  | _ => false

/-- Whether a character stands in the cluster of the one before it. -/
def joins (before : List GraphemeClass) (next : GraphemeClass) : Bool :=
  match before with
  | [] => false
  | last :: _ =>
    if last = cr ∧ next = lf then true
    else if last.isControl || next.isControl then false
    else
      hangulJoins last next || next.isExtender || next = spacingMark || last = prepend ||
        (next = consonant && afterConsonant false before) ||
        (next = pictographic && afterJoiner before) ||
        (next = regionalIndicator && oddIndicators before)

/-! ### What the rules read of the characters before -/

/-- Everything of the characters before that a rule asks for. -/
structure GraphemeContext where
  last : Option GraphemeClass
  pictograph : Bool
  joiner : Bool
  consonant : Bool
  linked : Bool
  odd : Bool
deriving DecidableEq

def context (before : List GraphemeClass) : GraphemeContext where
  last := before.head?
  pictograph := afterPictograph before
  joiner := afterJoiner before
  consonant := afterConsonant false before
  linked := afterConsonant true before
  odd := oddIndicators before

variable {before before' : List GraphemeClass} {c : GraphemeClass}

theorem context_eq_iff :
    context before = context before' ↔
      before.head? = before'.head? ∧ afterPictograph before = afterPictograph before' ∧
        afterJoiner before = afterJoiner before' ∧
        (∀ linked, afterConsonant linked before = afterConsonant linked before') ∧
        oddIndicators before = oddIndicators before' := by
  rw [context, context, GraphemeContext.mk.injEq, Bool.forall_bool]
  tauto

theorem joins_congr (h : context before = context before') : joins before c = joins before' c := by
  obtain ⟨hlast, _, hjoiner, hconsonant, hodd⟩ := context_eq_iff.mp h
  cases before with
  | nil =>
    cases before' with
    | nil => rfl
    | cons => cases hlast
  | cons last before =>
    cases before' with
    | nil => cases hlast
    | cons last' before' =>
      obtain rfl : last = last' := Option.some.inj hlast
      unfold joins
      rw [hjoiner, hconsonant, hodd]

theorem context_cons_congr (h : context before = context before') :
    context (c :: before) = context (c :: before') := by
  obtain ⟨_, hpictograph, _, hconsonant, hodd⟩ := context_eq_iff.mp h
  rw [context_eq_iff]
  refine ⟨rfl, ?_, ?_, fun linked => ?_, ?_⟩
  · cases c <;> first | rfl | exact hpictograph
  · cases c <;> first | rfl | exact hpictograph
  · cases c with
    | extend role => cases role <;> first | rfl | exact hconsonant _
    | zwj => exact hconsonant _
    | _ => rfl
  · cases c <;> first | rfl | exact congrArg not hodd

/-- Behind a character that neither extends nor pairs, what stands before it is forgotten. -/
theorem context_cons_of_not_isExtender (hextender : c.isExtender = false)
    (hindicator : c = .regionalIndicator → oddIndicators before = oddIndicators before') :
    context (c :: before) = context (c :: before') := by
  rw [context_eq_iff]
  refine ⟨rfl, ?_, ?_, fun linked => ?_, ?_⟩
  · cases c <;> first | rfl | cases hextender
  · cases c <;> first | rfl | cases hextender
  · cases c <;> first | rfl | cases hextender
  · cases c <;> first | rfl | exact congrArg not (hindicator rfl)

theorem not_isExtender_of_isControl (h : c.isControl = true) : c.isExtender = false := by
  cases c <;> first | rfl | cases h

theorem context_cons_of_isControl (h : c.isControl = true) :
    context (c :: before) = context (c :: before') := by
  apply context_cons_of_not_isExtender (not_isExtender_of_isControl h)
  rintro rfl
  cases h

theorem afterPictograph_of_isControl (h : ∀ last ∈ before.head?, last.isControl = true) :
    afterPictograph before = false := by
  cases before with
  | nil => rfl
  | cons last before =>
    have hlast : last.isControl = true := h last rfl
    cases last <;> first | rfl | cases hlast

theorem afterConsonant_of_isControl (h : ∀ last ∈ before.head?, last.isControl = true)
    (linked : Bool) : afterConsonant linked before = false := by
  cases before with
  | nil => rfl
  | cons last before =>
    have hlast : last.isControl = true := h last rfl
    cases last <;> first | rfl | cases hlast

/-- What extends has nothing to extend behind a control character. -/
theorem context_cons_of_isExtender (hextender : c.isExtender = true)
    (hcontrol : ∀ last ∈ before.head?, last.isControl = true) :
    context (c :: before) = context [c] := by
  have hpictograph := afterPictograph_of_isControl hcontrol
  have hconsonant := afterConsonant_of_isControl hcontrol
  rw [context_eq_iff]
  refine ⟨rfl, ?_, ?_, fun linked => ?_, ?_⟩
  · cases c <;> first | rfl | exact hpictograph
  · cases c <;> first | rfl | exact hpictograph
  · cases c with
    | extend role => cases role <;> first | rfl | exact hconsonant _
    | zwj => exact hconsonant _
    | _ => rfl
  · cases c <;> first | rfl | cases hextender

theorem joins_of_isExtender (hextender : c.isExtender = true) (hne : before ≠ [])
    (hcontrol : ∀ last ∈ before.head?, last.isControl = false) : joins before c = true := by
  cases before with
  | nil => exact absurd rfl hne
  | cons last before =>
    have hlast : last.isControl = false := hcontrol last rfl
    have hnext : c.isControl = false := by cases c <;> first | rfl | cases hextender
    simp [joins, hlast, hnext, hextender]

theorem oddIndicators_eq_true (h : oddIndicators before = true) :
    before.head? = some .regionalIndicator := by
  cases before with
  | nil => cases h
  | cons last before => cases last <;> first | rfl | cases h

theorem joins_regionalIndicator (h : oddIndicators before = true) :
    joins before .regionalIndicator = true := by
  have hlast := oddIndicators_eq_true h
  cases before with
  | nil => cases h
  | cons last before =>
    obtain rfl : last = .regionalIndicator := Option.some.inj hlast
    simp [joins, isControl, h]

/-- Where a cluster begins, what stands before it does not matter to what comes. -/
theorem context_of_not_joins (h : joins before c = false) :
    context (c :: before) = context [c] := by
  by_cases hextender : c.isExtender = true
  · apply context_cons_of_isExtender hextender
    intro last hlast
    by_contra hcontrol
    have hne : before ≠ [] := by
      rintro rfl
      cases hlast
    have hjoins : joins before c = true := by
      apply joins_of_isExtender hextender hne
      intro last' hlast'
      obtain rfl := Option.some.inj (hlast.symm.trans hlast')
      exact Bool.eq_false_iff.mpr hcontrol
    rw [hjoins] at h
    cases h
  · rw [Bool.not_eq_true] at hextender
    apply context_cons_of_not_isExtender hextender
    rintro rfl
    show oddIndicators before = false
    by_contra hodd
    rw [joins_regionalIndicator (Bool.not_eq_false _ ▸ hodd)] at h
    cases h

/-! ### The clusters of a text -/

variable {α : Type*} (classOf : α → GraphemeClass)

/-- The classes before what follows `text`. -/
def after (before : List GraphemeClass) : List α → List GraphemeClass
  | [] => before
  | c :: rest => after (classOf c :: before) rest

/-- How many clusters begin in `text`. -/
def startsFrom (before : List GraphemeClass) : List α → Nat
  | [] => 0
  | c :: rest =>
    (if joins before (classOf c) then 0 else 1) + startsFrom (classOf c :: before) rest

/-- The clusters of a text behind the beginning of the first. -/
def splitFrom (before : List GraphemeClass) (current : List α) : List α → List (List α)
  | [] => [current]
  | c :: rest =>
    if joins before (classOf c) then splitFrom (classOf c :: before) (current ++ [c]) rest
    else current :: splitFrom (classOf c :: before) [c] rest

def graphemes : List α → List (List α)
  | [] => []
  | c :: rest => splitFrom classOf [classOf c] [c] rest

/-- A cluster behind `before`: it begins where no rule joins and every other character joins. -/
def IsCluster (before : List GraphemeClass) : List α → Prop
  | [] => False
  | c :: rest =>
    joins before (classOf c) = false ∧ startsFrom classOf (classOf c :: before) rest = 0

def Segmented (before : List GraphemeClass) : List (List α) → Prop
  | [] => True
  | g :: rest => IsCluster classOf before g ∧ Segmented (after classOf before g) rest

variable {classOf} {text rest g : List α} {gs hs : List (List α)}

theorem after_cons {c : α} :
    after classOf before (c :: text) = after classOf (classOf c :: before) text := rfl

theorem isCluster_cons {c : α} :
    IsCluster classOf before (c :: g) ↔
      joins before (classOf c) = false ∧ startsFrom classOf (classOf c :: before) g = 0 := Iff.rfl

theorem after_append :
    after classOf before (text ++ rest) = after classOf (after classOf before text) rest := by
  induction text generalizing before with
  | nil => rfl
  | cons c text ih => exact ih

theorem startsFrom_append :
    startsFrom classOf before (text ++ rest) =
      startsFrom classOf before text + startsFrom classOf (after classOf before text) rest := by
  induction text generalizing before with
  | nil => exact (Nat.zero_add _).symm
  | cons c text ih =>
    simp only [List.cons_append, startsFrom, after]
    rw [ih]
    omega

theorem context_after_congr (h : context before = context before') :
    context (after classOf before text) = context (after classOf before' text) := by
  induction text generalizing before before' with
  | nil => exact h
  | cons c text ih => exact ih (context_cons_congr h)

theorem startsFrom_congr (h : context before = context before') :
    startsFrom classOf before text = startsFrom classOf before' text := by
  induction text generalizing before before' with
  | nil => rfl
  | cons c text ih =>
    unfold startsFrom
    rw [joins_congr h, ih (context_cons_congr h)]

theorem isCluster_congr (h : context before = context before') :
    IsCluster classOf before g ↔ IsCluster classOf before' g := by
  cases g with
  | nil => rfl
  | cons c g =>
    rw [isCluster_cons, isCluster_cons, joins_congr h, startsFrom_congr (context_cons_congr h)]

theorem segmented_congr (h : context before = context before') :
    Segmented classOf before gs ↔ Segmented classOf before' gs := by
  induction gs generalizing before before' with
  | nil => rfl
  | cons g gs ih =>
    unfold Segmented
    rw [isCluster_congr h, ih (context_after_congr h)]

theorem segmented_append :
    Segmented classOf before (gs ++ hs) ↔
      Segmented classOf before gs ∧ Segmented classOf (after classOf before gs.flatten) hs := by
  induction gs generalizing before with
  | nil => simp [Segmented, after]
  | cons g gs ih => simp only [List.cons_append, Segmented, ih, List.flatten_cons, after_append,
      and_assoc]

/-- What stands before a cluster does not matter behind it either. -/
theorem IsCluster.context_after (h : IsCluster classOf before g) :
    context (after classOf before g) = context (after classOf [] g) := by
  cases g with
  | nil => cases h
  | cons c g =>
    rw [after_cons, after_cons]
    exact context_after_congr (context_of_not_joins h.1)

theorem IsCluster.alone (h : IsCluster classOf before g) : IsCluster classOf [] g := by
  cases g with
  | nil => cases h
  | cons c g =>
    refine ⟨rfl, ?_⟩
    rw [← startsFrom_congr (context_of_not_joins h.1)]
    exact h.2

theorem Segmented.alone (h : Segmented classOf before gs) : Segmented classOf [] gs := by
  cases gs with
  | nil => exact h
  | cons g gs => exact ⟨h.1.alone, (segmented_congr h.1.context_after).mp h.2⟩

theorem splitFrom_append_of_joins (h : startsFrom classOf before g = 0) (current : List α) :
    splitFrom classOf before current (g ++ rest) =
      splitFrom classOf (after classOf before g) (current ++ g) rest := by
  induction g generalizing before current with
  | nil => rw [List.append_nil]; rfl
  | cons c g ih =>
    unfold startsFrom at h
    have hjoins : joins before (classOf c) = true := by
      by_contra hnot
      rw [if_neg hnot] at h
      omega
    rw [List.cons_append, splitFrom, if_pos hjoins, ih (by rw [if_pos hjoins] at h; omega), after,
      List.append_assoc, List.singleton_append]

theorem Segmented.splitFrom (h : Segmented classOf before gs) (current : List α) :
    splitFrom classOf before current gs.flatten = current :: gs := by
  induction gs generalizing before current with
  | nil => rfl
  | cons g gs ih =>
    cases g with
    | nil => exact h.1.elim
    | cons c g =>
      have hnot : ¬ joins before (classOf c) = true := by rw [h.1.1]; exact Bool.false_ne_true
      have hrest : Segmented classOf (after classOf (classOf c :: before) g) gs := h.2
      rw [List.flatten_cons, List.cons_append, Quilon.splitFrom, if_neg hnot,
        splitFrom_append_of_joins h.1.2, List.singleton_append, ih hrest]

theorem Segmented.graphemes (h : Segmented classOf [] gs) :
    graphemes classOf gs.flatten = gs := by
  cases gs with
  | nil => rfl
  | cons g gs =>
    cases g with
    | nil => exact h.1.elim
    | cons c g =>
      have hrest : Segmented classOf (after classOf [classOf c] g) gs := h.2
      rw [List.flatten_cons, List.cons_append, Quilon.graphemes, splitFrom_append_of_joins h.1.2,
        List.singleton_append, hrest.splitFrom]

theorem segmented_splitFrom {current : List α} (h : IsCluster classOf before current) :
    Segmented classOf before (splitFrom classOf (after classOf before current) current text) := by
  induction text generalizing before current with
  | nil => exact ⟨h, trivial⟩
  | cons c text ih =>
    unfold splitFrom
    split
    case isTrue hjoins =>
      have hafter : classOf c :: after classOf before current =
          after classOf before (current ++ [c]) := by rw [after_append]; rfl
      rw [hafter]
      apply ih
      cases current with
      | nil => cases h
      | cons d current =>
        rw [after_cons] at hjoins
        rw [List.cons_append, isCluster_cons, startsFrom_append, (isCluster_cons.mp h).2,
          startsFrom, if_pos hjoins]
        exact ⟨h.1, rfl⟩
    case isFalse hjoins =>
      have hcluster : IsCluster classOf (after classOf before current) [c] :=
        isCluster_cons.mpr ⟨Bool.eq_false_iff.mpr hjoins, rfl⟩
      exact ⟨h, ih hcluster⟩

theorem flatten_splitFrom (current : List α) :
    (splitFrom classOf before current text).flatten = current ++ text := by
  induction text generalizing before current with
  | nil => simp [splitFrom]
  | cons c text ih =>
    unfold splitFrom
    split
    · rw [ih, List.append_assoc, List.singleton_append]
    · rw [List.flatten_cons, ih, List.singleton_append]

theorem segmented_graphemes (classOf : α → GraphemeClass) (text : List α) :
    Segmented classOf [] (graphemes classOf text) := by
  cases text with
  | nil => trivial
  | cons c text =>
    have hcluster : IsCluster classOf [] [c] := ⟨rfl, rfl⟩
    exact segmented_splitFrom hcluster

@[simp]
theorem flatten_graphemes (classOf : α → GraphemeClass) (text : List α) :
    (graphemes classOf text).flatten = text := by
  cases text with
  | nil => rfl
  | cons c text => exact flatten_splitFrom [c]

theorem graphemes_eq_iff :
    graphemes classOf text = gs ↔ gs.flatten = text ∧ Segmented classOf [] gs := by
  constructor
  · rintro rfl
    exact ⟨flatten_graphemes classOf text, segmented_graphemes classOf text⟩
  · rintro ⟨rfl, h⟩
    exact h.graphemes

/-! ### Counting, and texts made of clusters -/

theorem length_splitFrom (current : List α) :
    (splitFrom classOf before current text).length = 1 + startsFrom classOf before text := by
  induction text generalizing before current with
  | nil => rfl
  | cons c text ih =>
    unfold splitFrom startsFrom
    split
    · rw [ih]
      omega
    · rw [List.length_cons, ih]
      omega

theorem length_graphemes : (graphemes classOf text).length = startsFrom classOf [] text := by
  cases text with
  | nil => rfl
  | cons c text => exact length_splitFrom [c]

theorem startsFrom_le (before : List GraphemeClass) (text : List α) :
    startsFrom classOf before text ≤ text.length := by
  induction text generalizing before with
  | nil => exact Nat.le_refl _
  | cons c text ih =>
    have hrest := ih (classOf c :: before)
    unfold startsFrom
    rw [List.length_cons]
    split <;> omega

/-- A text has no more clusters than items. -/
theorem length_graphemes_le (text : List α) : (graphemes classOf text).length ≤ text.length := by
  rw [length_graphemes]
  exact startsFrom_le [] text

theorem length_graphemes_append :
    (graphemes classOf (text ++ rest)).length =
      (graphemes classOf text).length + startsFrom classOf (after classOf [] text) rest := by
  rw [length_graphemes, length_graphemes, startsFrom_append]

theorem graphemes_eq_nil_iff : graphemes classOf text = [] ↔ text = [] := by
  constructor
  · intro h
    rw [← flatten_graphemes classOf text, h]
    rfl
  · rintro rfl
    rfl

theorem graphemes_ne_nil (h : text ≠ []) : graphemes classOf text ≠ [] :=
  fun hnil => h (graphemes_eq_nil_iff.mp hnil)

/-- A text made of the first clusters of another. -/
theorem graphemes_flatten_take (classOf : α → GraphemeClass) (text : List α) (k : Nat) :
    graphemes classOf ((graphemes classOf text).take k).flatten =
      (graphemes classOf text).take k := by
  have h := segmented_graphemes classOf text
  rw [← List.take_append_drop k (graphemes classOf text), segmented_append] at h
  exact h.1.graphemes

/-- A text made of the last clusters of another. -/
theorem graphemes_flatten_drop (classOf : α → GraphemeClass) (text : List α) (k : Nat) :
    graphemes classOf ((graphemes classOf text).drop k).flatten =
      (graphemes classOf text).drop k := by
  have h := segmented_graphemes classOf text
  rw [← List.take_append_drop k (graphemes classOf text), segmented_append] at h
  exact h.2.alone.graphemes

/-- A cluster taken out of its text is one still. -/
theorem graphemes_of_mem (h : g ∈ graphemes classOf text) : graphemes classOf g = [g] := by
  obtain ⟨front, back, hsplit⟩ := List.append_of_mem h
  have hsegmented := segmented_graphemes classOf text
  rw [hsplit, segmented_append] at hsegmented
  have hcluster : Segmented classOf [] [g] := ⟨hsegmented.2.1.alone, trivial⟩
  have hgraphemes := hcluster.graphemes
  rwa [List.flatten_singleton] at hgraphemes

/-- What the rules read behind a text they read behind its last cluster. -/
theorem context_after_getLast (h : (graphemes classOf text).getLast? = some g) :
    context (after classOf [] g) = context (after classOf [] text) := by
  have hsegmented := segmented_graphemes classOf text
  have hflatten := flatten_graphemes classOf text
  obtain ⟨front, hfront⟩ := List.getLast?_eq_some_iff.mp h
  rw [hfront, segmented_append] at hsegmented
  rw [hfront, List.flatten_append, List.flatten_singleton] at hflatten
  have hlast := hsegmented.2.1.context_after
  rw [← after_append, hflatten] at hlast
  exact hlast.symm

/-- A cluster begins with every character where no rule joins. -/
theorem length_graphemes_of_not_joins
    (h : ∀ front c back, text = front ++ c :: back →
      joins (after classOf [] front) (classOf c) = false) :
    (graphemes classOf text).length = text.length := by
  suffices hstarts : ∀ front back, text = front ++ back →
      startsFrom classOf (after classOf [] front) back = back.length by
    rw [length_graphemes]
    exact hstarts [] text rfl
  intro front back
  induction back generalizing front with
  | nil => intro _; rfl
  | cons c back ih =>
    intro hsplit
    have hrest := ih (front ++ [c]) (by rw [hsplit, List.append_assoc, List.singleton_append])
    rw [after_append, after_cons] at hrest
    have hbegins := h front c back hsplit
    unfold startsFrom
    rw [if_neg (by rw [hbegins]; exact Bool.false_ne_true), List.length_cons]
    change startsFrom classOf (classOf c :: after classOf [] front) back = back.length at hrest
    omega

theorem Segmented.ne_nil (h : Segmented classOf before gs) : ∀ g ∈ gs, g ≠ [] := by
  induction gs generalizing before with
  | nil => intro g hg; cases hg
  | cons g gs ih =>
    intro g' hg'
    rcases List.mem_cons.mp hg' with rfl | hg'
    · rintro rfl
      exact h.1.elim
    · exact ih h.2 g' hg'

theorem length_eq_one_of_length_flatten (hne : ∀ g ∈ gs, g ≠ [])
    (h : gs.length = gs.flatten.length) : ∀ g ∈ gs, g.length = 1 := by
  have hle : ∀ hs : List (List α), (∀ g ∈ hs, g ≠ []) → hs.length ≤ hs.flatten.length := by
    intro hs hhs
    induction hs with
    | nil => exact Nat.le_refl 0
    | cons g hs ih =>
      have hpos := List.length_pos_iff.mpr (hhs g List.mem_cons_self)
      have hrest := ih fun g' hg' => hhs g' (List.mem_cons_of_mem _ hg')
      rw [List.length_cons, List.flatten_cons, List.length_append]
      omega
  induction gs with
  | nil => intro g hg; cases hg
  | cons g gs ih =>
    have hpos := List.length_pos_iff.mpr (hne g List.mem_cons_self)
    have hne' : ∀ g' ∈ gs, g' ≠ [] := fun g' hg' => hne g' (List.mem_cons_of_mem _ hg')
    have hrest := hle gs hne'
    rw [List.length_cons, List.flatten_cons, List.length_append] at h
    intro g' hg'
    rcases List.mem_cons.mp hg' with rfl | hg'
    · omega
    · exact ih hne' (by omega) g' hg'

/-- As many clusters as characters: each character is one. -/
theorem length_graphemes_eq_iff :
    (graphemes classOf text).length = text.length ↔
      ∀ g ∈ graphemes classOf text, g.length = 1 := by
  have hflatten := flatten_graphemes classOf text
  constructor
  · intro h
    apply length_eq_one_of_length_flatten (segmented_graphemes classOf text).ne_nil
    rw [hflatten, h]
  · intro h
    have hlengths : (graphemes classOf text).map List.length =
        List.replicate (graphemes classOf text).length 1 := by
      rw [List.eq_replicate_iff, List.length_map]
      refine ⟨rfl, fun n hn => ?_⟩
      obtain ⟨g, hg, rfl⟩ := List.mem_map.mp hn
      exact h g hg
    calc (graphemes classOf text).length
        = ((graphemes classOf text).map List.length).sum := by
          rw [hlengths, List.sum_replicate_nat, Nat.mul_one]
      _ = text.length := by rw [← List.length_flatten, hflatten]

theorem eq_map_singleton_flatten (h : ∀ g ∈ gs, g.length = 1) :
    gs = gs.flatten.map fun c => [c] := by
  induction gs with
  | nil => rfl
  | cons g gs ih =>
    obtain ⟨c, rfl⟩ := List.length_eq_one_iff.mp (h g List.mem_cons_self)
    have hrest := ih fun g' hg' => h g' (List.mem_cons_of_mem _ hg')
    rw [List.flatten_cons, List.singleton_append, List.map_cons, ← hrest]

/-! ### One text behind another -/

theorem segmented_of_not_joins {c : α} (h : joins before (classOf c) = false)
    (hgs : gs.flatten.head? = some c) (hsegmented : Segmented classOf [] gs) :
    Segmented classOf before gs := by
  cases gs with
  | nil => exact trivial
  | cons g gs =>
    cases g with
    | nil => exact hsegmented.1.elim
    | cons c' g =>
      obtain rfl : c' = c := Option.some.inj hgs
      have hcluster : IsCluster classOf before (c' :: g) := by
        rw [isCluster_cons, startsFrom_congr (context_of_not_joins h)]
        exact ⟨h, hsegmented.1.2⟩
      exact ⟨hcluster, (segmented_congr hcluster.context_after).mpr hsegmented.2⟩

/-- Where no rule joins two texts, their clusters stand side by side. -/
theorem graphemes_append_of_not_joins {c : α}
    (h : joins (after classOf [] text) (classOf c) = false)
    (hrest : rest.head? = some c) :
    graphemes classOf (text ++ rest) = graphemes classOf text ++ graphemes classOf rest := by
  rw [graphemes_eq_iff, List.flatten_append, flatten_graphemes, flatten_graphemes, segmented_append,
    flatten_graphemes]
  refine ⟨rfl, segmented_graphemes classOf text, ?_⟩
  apply segmented_of_not_joins h _ (segmented_graphemes classOf rest)
  rw [flatten_graphemes, hrest]

/-- Where every rule joins, the last cluster takes all of the text behind it. -/
theorem graphemes_append_of_joins (hlast : (graphemes classOf text).getLast? = some g)
    (h : startsFrom classOf (after classOf [] text) rest = 0) :
    (graphemes classOf (text ++ rest)).getLast? = some (g ++ rest) := by
  obtain ⟨init, hinit⟩ := List.getLast?_eq_some_iff.mp hlast
  have hsegmented := segmented_graphemes classOf text
  have hflatten := flatten_graphemes classOf text
  rw [hinit, segmented_append] at hsegmented
  rw [hinit, List.flatten_append, List.flatten_singleton] at hflatten
  have hcluster : IsCluster classOf (after classOf [] init.flatten) (g ++ rest) := by
    have hg := hsegmented.2.1
    cases g with
    | nil => exact hg.elim
    | cons c g =>
      rw [List.cons_append, isCluster_cons, startsFrom_append, (isCluster_cons.mp hg).2,
        ← after_cons, ← after_append, hflatten, h]
      exact ⟨hg.1, rfl⟩
  have hall : graphemes classOf (text ++ rest) = init ++ [g ++ rest] := by
    rw [graphemes_eq_iff, List.flatten_append, List.flatten_singleton, ← List.append_assoc,
      hflatten, segmented_append]
    exact ⟨rfl, hsegmented.1, hcluster, trivial⟩
  rw [hall, List.getLast?_concat]

end Quilon
