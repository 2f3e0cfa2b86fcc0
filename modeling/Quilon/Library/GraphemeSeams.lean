import Mathlib.Tactic.Common
import Mathlib.Data.List.Infix
import Mathlib.Data.List.TakeWhile
import Quilon.Library.Graphemes

/-!
# Counting clusters across a seam

How many clusters a text has behind another one, told from how many it has alone and from what its
first cluster does there.  That count is right unless the clusters behind the first one change too
(`startsFrom_seam_iff`), which happens in two ways: the text begins with extending characters whose
next character joins them only because of what they extend (`ripplesExtended`), or an odd run of
three or more regional indicators is paired anew (`ripplesIndicators`).
-/

namespace Quilon

open GraphemeClass

variable {α : Type*} (classOf : α → GraphemeClass)

def isExtenderOf (c : α) : Bool := (classOf c).isExtender

def isIndicator (c : α) : Bool := classOf c = .regionalIndicator

/-- The character behind the extending characters `text` begins with joins them behind `before`, and
does not by itself. -/
def ripplesExtended (before : List GraphemeClass) (text : List α) : Bool :=
  let extenders := text.takeWhile (isExtenderOf classOf)
  match text.dropWhile (isExtenderOf classOf) with
  | [] => false
  | next :: _ =>
    !extenders.isEmpty && joins (after classOf before extenders) (classOf next) &&
      !joins (after classOf [] extenders) (classOf next)

def indicatorRun (text : List α) : Nat := (text.takeWhile (isIndicator classOf)).length

/-- The regional indicators `text` begins with are paired anew, and one pair fewer is left. -/
def ripplesIndicators (before : List GraphemeClass) (text : List α) : Bool :=
  oddIndicators before && indicatorRun classOf text % 2 == 1 &&
    decide (3 ≤ indicatorRun classOf text)

def ripples (before : List GraphemeClass) (text : List α) : Bool :=
  ripplesExtended classOf before text || ripplesIndicators classOf before text

variable {classOf} {before before' : List GraphemeClass} {text rest : List α} {c : α}

theorem startsFrom_cons_of_joins (h : joins before (classOf c) = true) :
    startsFrom classOf before (c :: text) = startsFrom classOf (classOf c :: before) text := by
  rw [startsFrom, if_pos h, Nat.zero_add]

theorem startsFrom_cons_of_not_joins (h : joins before (classOf c) = false) :
    startsFrom classOf before (c :: text) = 1 + startsFrom classOf (classOf c :: before) text := by
  rw [startsFrom, if_neg (by rw [h]; exact Bool.false_ne_true)]

/-! ### Behind extending characters -/

theorem not_isControl_of_isExtender {k : GraphemeClass} (h : k.isExtender = true) :
    k.isControl = false := by
  cases k <;> first | rfl | cases h

/-- Extending characters go on with the cluster they stand in. -/
theorem startsFrom_extenders {last : GraphemeClass} (hlast : last.isExtender = true)
    (h : ∀ c ∈ text, isExtenderOf classOf c = true) :
    startsFrom classOf (last :: before) text = 0 := by
  induction text generalizing before last with
  | nil => rfl
  | cons c text ih =>
    have hc : (classOf c).isExtender = true := h c List.mem_cons_self
    have hjoins : joins (last :: before) (classOf c) = true := by
      apply joins_of_isExtender hc (List.cons_ne_nil _ _)
      intro last' hlast'
      obtain rfl : last = last' := Option.some.inj hlast'
      exact not_isControl_of_isExtender hlast
    rw [startsFrom_cons_of_joins hjoins]
    exact ih hc fun d hd => h d (List.mem_cons_of_mem _ hd)

/-- The nearest class behind extending characters is the same whatever stands before them. -/
theorem head?_after_extenders (classOf : α → GraphemeClass) (before before' : List GraphemeClass)
    (hne : text ≠ []) :
    (after classOf before text).head? = (after classOf before' text).head? := by
  induction text generalizing before before' with
  | nil => exact absurd rfl hne
  | cons c text ih =>
    by_cases htext : text = []
    · rw [htext]
      rfl
    · rw [after_cons, after_cons]
      exact ih _ _ htext

theorem isExtender_after (before : List GraphemeClass)
    (h : ∀ c ∈ text, isExtenderOf classOf c = true)
    (hbefore : ∀ last ∈ before.head?, last.isExtender = true) :
    ∀ last ∈ (after classOf before text).head?, last.isExtender = true := by
  induction text generalizing before with
  | nil => exact hbefore
  | cons c text ih =>
    rw [after_cons]
    apply ih _ (fun d hd => h d (List.mem_cons_of_mem _ hd))
    intro last hlast
    obtain rfl := Option.some.inj hlast
    exact h c List.mem_cons_self

theorem oddIndicators_of_isExtender (h : ∀ last ∈ before.head?, last.isExtender = true) :
    oddIndicators before = false := by
  by_contra hodd
  rw [Bool.not_eq_false] at hodd
  have hextender := h _ (oddIndicators_eq_true hodd)
  cases hextender

/-- Extending characters alone are behind no consonant and no pictograph. -/
theorem after_extenders (before : List GraphemeClass)
    (h : ∀ c ∈ text, isExtenderOf classOf c = true)
    (hconsonant : ∀ linked, afterConsonant linked before = false)
    (hpictograph : afterPictograph before = false) (hjoiner : afterJoiner before = false) :
    (∀ linked, afterConsonant linked (after classOf before text) = false) ∧
      afterJoiner (after classOf before text) = false := by
  induction text generalizing before with
  | nil => exact ⟨hconsonant, hjoiner⟩
  | cons c text ih =>
    have hc : (classOf c).isExtender = true := h c List.mem_cons_self
    rw [after_cons]
    apply ih _ (fun d hd => h d (List.mem_cons_of_mem _ hd))
    · intro linked
      cases hclass : classOf c with
      | extend role => cases role <;> first | rfl | exact hconsonant _
      | zwj => exact hconsonant _
      | _ => rw [hclass] at hc; cases hc
    · cases hclass : classOf c with
      | extend role => exact hpictograph
      | zwj => rfl
      | _ => rw [hclass] at hc; cases hc
    · cases hclass : classOf c with
      | zwj => exact hpictograph
      | _ => rfl

theorem after_extenders_alone (h : ∀ c ∈ text, isExtenderOf classOf c = true) :
    (∀ linked, afterConsonant linked (after classOf [] text) = false) ∧
      afterJoiner (after classOf [] text) = false ∧
        oddIndicators (after classOf [] text) = false := by
  obtain ⟨hconsonant, hjoiner⟩ := after_extenders [] h (fun _ => rfl) rfl rfl
  have hextender := isExtender_after [] h fun last hlast => by cases hlast
  exact ⟨hconsonant, hjoiner, oddIndicators_of_isExtender hextender⟩

/-- What joins extending characters by themselves joins them anywhere. -/
theorem joins_extenders_of_alone {n : GraphemeClass} (hne : text ≠ [])
    (h : ∀ c ∈ text, isExtenderOf classOf c = true)
    (hjoins : joins (after classOf [] text) n = true) :
    joins (after classOf before text) n = true := by
  obtain ⟨hconsonant, hjoiner, hodd⟩ := after_extenders_alone h
  have hhead := head?_after_extenders classOf [] before hne
  cases halone : after classOf [] text with
  | nil =>
    rw [halone] at hjoins
    cases hjoins
  | cons last front =>
    cases hbehind : after classOf before text with
    | nil =>
      rw [halone, hbehind] at hhead
      cases hhead
    | cons last' front' =>
      rw [halone, hbehind] at hhead
      obtain rfl : last = last' := Option.some.inj hhead
      rw [halone] at hjoins hconsonant hjoiner hodd
      simp only [joins, hconsonant, hjoiner, hodd, Bool.and_false, Bool.or_false] at hjoins
      simp only [joins]
      split
      case isTrue => rfl
      case isFalse hcrlf =>
        rw [if_neg hcrlf] at hjoins
        split
        case isTrue hcontrol =>
          rw [if_pos hcontrol] at hjoins
          exact hjoins
        case isFalse hcontrol =>
          rw [if_neg hcontrol] at hjoins
          rw [hjoins, Bool.true_or, Bool.true_or, Bool.true_or]

/-- Behind the character after extending ones it does not matter what they extend. -/
theorem context_after_extenders {n : GraphemeClass} (hne : text ≠ [])
    (h : ∀ c ∈ text, isExtenderOf classOf c = true) (hn : n.isExtender = false) :
    context (n :: after classOf before text) = context (n :: after classOf [] text) := by
  apply context_cons_of_not_isExtender hn
  intro _
  have halone := isExtender_after [] h fun last hlast => by cases hlast
  have hhead := head?_after_extenders classOf [] before hne
  rw [oddIndicators_of_isExtender halone, oddIndicators_of_isExtender (hhead ▸ halone)]

/-! ### The first cluster -/

/-- What the first cluster of a text and the rest of it are. -/
theorem head?_graphemes (classOf : α → GraphemeClass) (c : α) (text : List α) :
    ∃ own others, text = own ++ others ∧ (graphemes classOf (c :: text)).head? = some (c :: own) ∧
      startsFrom classOf [classOf c] own = 0 ∧
        ∀ d rest, others = d :: rest →
          joins (after classOf [classOf c] own) (classOf d) = false := by
  have hsegmented := segmented_graphemes classOf (c :: text)
  have hflatten := flatten_graphemes classOf (c :: text)
  cases hclusters : graphemes classOf (c :: text) with
  | nil =>
    rw [graphemes_eq_nil_iff] at hclusters
    cases hclusters
  | cons g gs =>
    rw [hclusters] at hsegmented hflatten
    cases g with
    | nil => exact hsegmented.1.elim
    | cons c' own =>
      rw [List.flatten_cons, List.cons_append] at hflatten
      injection hflatten with hc htext
      subst hc
      refine ⟨own, gs.flatten, htext.symm, rfl, hsegmented.1.2, ?_⟩
      rintro d rest hothers
      cases gs with
      | nil => cases hothers
      | cons g' gs =>
        cases g' with
        | nil => exact hsegmented.2.1.elim
        | cons d' g' =>
          rw [List.flatten_cons, List.cons_append] at hothers
          injection hothers with hd
          rw [← hd]
          exact hsegmented.2.1.1

/-! ### Behind regional indicators -/

theorem isIndicator_iff : isIndicator classOf c = true ↔ classOf c = .regionalIndicator :=
  decide_eq_true_iff

theorem joins_indicators :
    joins (.regionalIndicator :: before) .regionalIndicator =
      oddIndicators (.regionalIndicator :: before) := by
  simp [joins, isControl, hangulJoins, isExtender]

/-- What is no regional indicator does not see how many stand before it. -/
theorem startsFrom_after_indicators (before before' : List GraphemeClass)
    (h : ∀ c ∈ text.head?, isIndicator classOf c = false) :
    startsFrom classOf (.regionalIndicator :: before) text =
      startsFrom classOf (.regionalIndicator :: before') text := by
  cases text with
  | nil => rfl
  | cons c text =>
    have hc : classOf c ≠ .regionalIndicator := by
      intro hclass
      have hnot := h c rfl
      rw [isIndicator_iff.mpr hclass] at hnot
      cases hnot
    have hjoins : joins (.regionalIndicator :: before) (classOf c) =
        joins (.regionalIndicator :: before') (classOf c) := by
      simp [joins, hc, afterConsonant, afterJoiner]
    have hcontext : context (classOf c :: .regionalIndicator :: before) =
        context (classOf c :: .regionalIndicator :: before') := by
      rw [context_eq_iff]
      revert hc
      generalize classOf c = k
      intro hc
      refine ⟨rfl, ?_, ?_, fun linked => ?_, ?_⟩
      · cases k <;> rfl
      · cases k <;> rfl
      · cases k with
        | extend role => cases role <;> rfl
        | _ => rfl
      · cases k <;> first | rfl | exact absurd rfl hc
    rw [startsFrom, startsFrom, hjoins, startsFrom_congr hcontext]

/-- Regional indicators pair up behind the ones before them. -/
theorem startsFrom_indicators (h : ∀ c ∈ text, isIndicator classOf c = true) :
    startsFrom classOf (.regionalIndicator :: before) text =
      (text.length + if oddIndicators (.regionalIndicator :: before) then 0 else 1) / 2 := by
  induction text generalizing before with
  | nil =>
    rw [startsFrom, List.length_nil]
    split <;> decide
  | cons c text ih =>
    have hc : classOf c = .regionalIndicator := isIndicator_iff.mp (h c List.mem_cons_self)
    have hall : ∀ d ∈ text, isIndicator classOf d = true :=
      fun d hd => h d (List.mem_cons_of_mem _ hd)
    have hrest := @ih (.regionalIndicator :: before) hall
    have hflip : oddIndicators (.regionalIndicator :: .regionalIndicator :: before) =
        !oddIndicators (.regionalIndicator :: before) := rfl
    rw [startsFrom, hc, joins_indicators, hrest, hflip, List.length_cons]
    by_cases hodd : oddIndicators (.regionalIndicator :: before) = true
    · simp only [hodd, Bool.not_true, Bool.false_eq_true, if_true, if_false]
      omega
    · rw [Bool.not_eq_true] at hodd
      simp only [hodd, Bool.not_false, Bool.false_eq_true, if_true, if_false]
      omega

theorem after_indicators (before : List GraphemeClass)
    (h : ∀ c ∈ text, isIndicator classOf c = true) :
    ∃ front, after classOf (.regionalIndicator :: before) text = .regionalIndicator :: front := by
  induction text generalizing before with
  | nil => exact ⟨before, rfl⟩
  | cons c text ih =>
    have hc : classOf c = .regionalIndicator := isIndicator_iff.mp (h c List.mem_cons_self)
    rw [after_cons, hc]
    exact ih _ fun d hd => h d (List.mem_cons_of_mem _ hd)

/-- The clusters of a text that begins with a run of regional indicators, behind others. -/
theorem startsFrom_indicators_append (h : ∀ c ∈ text, isIndicator classOf c = true)
    (hrest : ∀ c ∈ rest.head?, isIndicator classOf c = false) :
    startsFrom classOf (.regionalIndicator :: before) (text ++ rest) =
      (text.length + if oddIndicators (.regionalIndicator :: before) then 0 else 1) / 2 +
        startsFrom classOf [.regionalIndicator] rest := by
  obtain ⟨front, hafter⟩ := after_indicators before h
  rw [startsFrom_append, startsFrom_indicators h, hafter,
    startsFrom_after_indicators front [] hrest]

/-! ### The seam -/

/-- What the first character does at the seam is counted on both sides. -/
theorem seam_reduce (own : List α) :
    (startsFrom classOf before (c :: text) + 1 =
        startsFrom classOf [] (c :: text) + startsFrom classOf before (c :: own)) ↔
      startsFrom classOf (classOf c :: before) text =
        startsFrom classOf [classOf c] text + startsFrom classOf (classOf c :: before) own := by
  have halone : joins [] (classOf c) = false := rfl
  rw [startsFrom_cons_of_not_joins halone, startsFrom, startsFrom]
  generalize (if joins before (classOf c) = true then 0 else 1) = seam
  omega

theorem takeWhile_of_not {p : α → Bool} (h : p c = false) : (c :: text).takeWhile p = [] := by
  rw [List.takeWhile_cons, if_neg (by rw [h]; exact Bool.false_ne_true)]

theorem ripplesExtended_of_not (h : isExtenderOf classOf c = false) :
    ripplesExtended classOf before (c :: text) = false := by
  unfold ripplesExtended
  rw [takeWhile_of_not h, List.dropWhile_cons, if_neg (by rw [h]; exact Bool.false_ne_true)]
  rfl

theorem ripplesIndicators_of_not (h : isIndicator classOf c = false) :
    ripplesIndicators classOf before (c :: text) = false := by
  unfold ripplesIndicators indicatorRun
  rw [takeWhile_of_not h]
  exact Bool.and_false _

theorem head?_dropWhile (p : α → Bool) (text : List α) :
    ∀ c ∈ (text.dropWhile p).head?, p c = false := by
  intro c hc
  have hnot := List.head?_dropWhile_not p text
  rw [Option.mem_def.mp hc] at hnot
  exact hnot

/-- A prefix of `text ++ rest` either ends in `text` or goes past it. -/
theorem prefix_cases {own others : List α} (h : text ++ rest = own ++ others) :
    (∃ more, text = own ++ more) ∨
      ∃ n past behind, own = text ++ n :: past ∧ rest = n :: behind ∧ behind = past ++ others := by
  rcases List.append_eq_append_iff.mp h with ⟨past, hown, hrest⟩ | ⟨more, htext, _⟩
  · cases past with
    | nil =>
      left
      exact ⟨[], by rw [hown, List.append_nil, List.append_nil]⟩
    | cons n past => exact .inr ⟨n, past, past ++ others, hown, hrest, rfl⟩
  · exact .inl ⟨more, htext⟩

/-- A seam before extending characters. -/
theorem seam_of_isExtender {own others : List α} (hc : isExtenderOf classOf c = true)
    (htext : text = own ++ others) (hown : startsFrom classOf [classOf c] own = 0) :
    startsFrom classOf (classOf c :: before) text =
        startsFrom classOf [classOf c] text + startsFrom classOf (classOf c :: before) own ↔
      ripplesExtended classOf before (c :: text) = false := by
  have hclass : (classOf c).isExtender = true := hc
  have hall : ∀ d ∈ text.takeWhile (isExtenderOf classOf), isExtenderOf classOf d = true :=
    fun d hd => List.mem_takeWhile_imp hd
  have hnot := head?_dropWhile (isExtenderOf classOf) text
  have hsplit := List.takeWhile_append_dropWhile (p := isExtenderOf classOf) (l := text)
  unfold ripplesExtended
  rw [List.takeWhile_cons, if_pos hc, List.dropWhile_cons, if_pos hc]
  revert hall hnot hsplit
  generalize text.takeWhile (isExtenderOf classOf) = extenders
  generalize text.dropWhile (isExtenderOf classOf) = rest
  intro hall hnot hsplit
  have hstarts : ∀ before' rest', startsFrom classOf (classOf c :: before') (extenders ++ rest') =
      startsFrom classOf (after classOf (classOf c :: before') extenders) rest' := by
    intro before' rest'
    rw [startsFrom_append, startsFrom_extenders hclass hall, Nat.zero_add]
  have hwithin : (∃ more, extenders = own ++ more) →
      startsFrom classOf (classOf c :: before) own = 0 := by
    rintro ⟨more, rfl⟩
    exact startsFrom_extenders hclass fun d hd => hall d (List.mem_append_left _ hd)
  rw [← hsplit] at htext ⊢
  rw [hstarts, hstarts]
  cases rest with
  | nil =>
    have hzero : startsFrom classOf (classOf c :: before) own = 0 := by
      rcases prefix_cases htext with hmore | ⟨_, _, _, _, hrest, _⟩
      · exact hwithin hmore
      · cases hrest
    simp [hzero, startsFrom]
  | cons n behind =>
    have hn : (classOf n).isExtender = false := hnot n rfl
    have hall' : ∀ d ∈ c :: extenders, isExtenderOf classOf d = true := by
      intro d hd
      rcases List.mem_cons.mp hd with rfl | hd
      · exact hc
      · exact hall d hd
    have hcontext : context (classOf n :: after classOf (classOf c :: before) extenders) =
        context (classOf n :: after classOf [classOf c] extenders) :=
      context_after_extenders (List.cons_ne_nil c extenders) hall' hn
    have hsame : startsFrom classOf (classOf n :: after classOf (classOf c :: before) extenders)
        behind = startsFrom classOf (classOf n :: after classOf [classOf c] extenders) behind :=
      startsFrom_congr hcontext
    cases halone : joins (after classOf [classOf c] extenders) (classOf n) with
    | true =>
      have hjoins : joins (after classOf before (c :: extenders)) (classOf n) = true :=
        joins_extenders_of_alone (List.cons_ne_nil c extenders) hall' halone
      rw [after_cons] at hjoins
      have hzero : startsFrom classOf (classOf c :: before) own = 0 := by
        rcases prefix_cases htext with hmore | ⟨n', past, _, rfl, hrest, _⟩
        · exact hwithin hmore
        · obtain rfl : n = n' := by injection hrest
          rw [hstarts, startsFrom_cons_of_joins halone] at hown
          rw [hstarts, startsFrom_cons_of_joins hjoins, startsFrom_congr hcontext, hown]
      rw [startsFrom_cons_of_joins hjoins, startsFrom_cons_of_joins halone, hsame, hzero]
      simp [after_cons, halone]
    | false =>
      have hzero : startsFrom classOf (classOf c :: before) own = 0 := by
        rcases prefix_cases htext with hmore | ⟨n', past, _, rfl, hrest, _⟩
        · exact hwithin hmore
        · obtain rfl : n = n' := by injection hrest
          rw [hstarts, startsFrom_cons_of_not_joins halone] at hown
          omega
      rw [startsFrom_cons_of_not_joins halone, hzero, startsFrom, hsame]
      simp only [after_cons, halone, List.isEmpty_cons, Bool.not_false, Bool.true_and,
        Bool.and_true]
      cases joins (after classOf (classOf c :: before) extenders) (classOf n) <;> simp

/-- What the first cluster holds of the indicators behind its first one. -/
theorem first_cluster_indicators {own others ris : List α}
    (hris : ∀ d ∈ ris, isIndicator classOf d = true)
    (hrest : ∀ d ∈ rest.head?, isIndicator classOf d = false) (htext : ris ++ rest = own ++ others)
    (hown : startsFrom classOf [.regionalIndicator] own = 0)
    (hboundary : ∀ d behind, others = d :: behind →
      joins (after classOf [.regionalIndicator] own) (classOf d) = false)
    (hbefore : oddIndicators (.regionalIndicator :: before) = false) :
    startsFrom classOf (.regionalIndicator :: before) own = if ris = [] then 0 else 1 := by
  cases ris with
  | nil =>
    have hhead : ∀ d ∈ own.head?, isIndicator classOf d = false := by
      cases own with
      | nil => intro d hd; cases hd
      | cons d own =>
        intro d' hd
        apply hrest
        rw [List.nil_append] at htext
        rw [htext]
        exact hd
    rw [startsFrom_after_indicators before [] hhead, hown, if_pos rfl]
  | cons d ris =>
    have hd : classOf d = .regionalIndicator := isIndicator_iff.mp (hris d List.mem_cons_self)
    have hpair : joins [.regionalIndicator] .regionalIndicator = true := rfl
    have hthird : joins [.regionalIndicator, .regionalIndicator] .regionalIndicator = false := rfl
    rw [if_neg (List.cons_ne_nil d ris)]
    cases own with
    | nil =>
      -- the second indicator pairs with the first, so the cluster does not end before it
      have hends := hboundary d _ htext.symm
      rw [hd] at hends
      exact absurd (hends.symm.trans hpair) Bool.false_ne_true
    | cons d' own =>
      obtain rfl : d = d' := by injection htext
      rw [startsFrom_cons_of_joins (by rw [hd]; exact hpair), hd] at hown
      have hhead : ∀ e ∈ own.head?, isIndicator classOf e = false := by
        cases own with
        | nil => intro e he; cases he
        | cons e own =>
          intro e' he
          obtain rfl := Option.some.inj he
          by_contra hindicator
          rw [Bool.not_eq_false, isIndicator_iff] at hindicator
          rw [startsFrom_cons_of_not_joins (by rw [hindicator]; exact hthird)] at hown
          omega
      have hfirst : joins (.regionalIndicator :: before) (classOf d) = false := by
        rw [hd, joins_indicators, hbefore]
      rw [startsFrom_cons_of_not_joins hfirst, hd,
        startsFrom_after_indicators (.regionalIndicator :: before) [.regionalIndicator] hhead, hown]

/-- A seam between regional indicators, the one on the left without a partner. -/
theorem seam_of_isIndicator {own others : List α} (hc : isIndicator classOf c = true)
    (hodd : oddIndicators before = true) (htext : text = own ++ others)
    (hown : startsFrom classOf [classOf c] own = 0)
    (hboundary : ∀ d behind, others = d :: behind →
      joins (after classOf [classOf c] own) (classOf d) = false) :
    startsFrom classOf (classOf c :: before) text =
        startsFrom classOf [classOf c] text + startsFrom classOf (classOf c :: before) own ↔
      ripplesIndicators classOf before (c :: text) = false := by
  have hclass := isIndicator_iff.mp hc
  have hall : ∀ d ∈ text.takeWhile (isIndicator classOf), isIndicator classOf d = true :=
    fun d hd => List.mem_takeWhile_imp hd
  have hnot := head?_dropWhile (isIndicator classOf) text
  have hsplit := List.takeWhile_append_dropWhile (p := isIndicator classOf) (l := text)
  unfold ripplesIndicators indicatorRun
  rw [List.takeWhile_cons, if_pos hc, hodd, Bool.true_and, List.length_cons]
  revert hall hnot hsplit
  generalize text.takeWhile (isIndicator classOf) = ris
  generalize text.dropWhile (isIndicator classOf) = rest
  intro hall hnot hsplit
  rw [hclass] at hown hboundary ⊢
  have hbefore : oddIndicators (.regionalIndicator :: before) = false := by
    rw [oddIndicators, hodd]
    rfl
  have halone : oddIndicators [.regionalIndicator] = true := rfl
  have hfirst := first_cluster_indicators hall hnot (hsplit.trans htext) hown hboundary hbefore
  rw [← hsplit, startsFrom_indicators_append hall hnot, startsFrom_indicators_append hall hnot,
    hfirst, hbefore, halone, if_pos rfl, if_neg Bool.false_ne_true]
  rw [Bool.and_eq_false_iff, decide_eq_false_iff_not, beq_eq_false_iff_ne]
  cases ris with
  | nil =>
    rw [if_pos rfl, List.length_nil]
    omega
  | cons d ris =>
    rw [if_neg (List.cons_ne_nil d ris), List.length_cons]
    omega

/-- A text behind another one has as many clusters more as it has alone, but for its first cluster,
exactly if no other cluster of it changes. -/
theorem startsFrom_seam_iff {first : List α}
    (hfirst : (graphemes classOf text).head? = some first) :
    startsFrom classOf before text + 1 =
        startsFrom classOf [] text + startsFrom classOf before first ↔
      ripples classOf before text = false := by
  cases text with
  | nil => cases hfirst
  | cons c text =>
    obtain ⟨own, others, htext, hhead, hown, hboundary⟩ := head?_graphemes classOf c text
    obtain rfl : c :: own = first := Option.some.inj (hhead.symm.trans hfirst)
    rw [seam_reduce]
    unfold ripples
    by_cases hextender : isExtenderOf classOf c = true
    · have hindicator : isIndicator classOf c = false := by
        by_contra hindicator
        rw [Bool.not_eq_false, isIndicator_iff] at hindicator
        rw [isExtenderOf, hindicator] at hextender
        cases hextender
      rw [ripplesIndicators_of_not hindicator, Bool.or_false]
      exact seam_of_isExtender hextender htext hown
    · rw [Bool.not_eq_true] at hextender
      rw [ripplesExtended_of_not hextender, Bool.false_or]
      by_cases hpairs : isIndicator classOf c = true ∧ oddIndicators before = true
      · exact seam_of_isIndicator hpairs.1 hpairs.2 htext hown hboundary
      · -- behind `c` nothing is left of what stands before it
        have hcontext : context (classOf c :: before) = context [classOf c] := by
          apply context_cons_of_not_isExtender hextender
          intro hclass
          by_contra hodd
          exact hpairs ⟨isIndicator_iff.mpr hclass, (Bool.not_eq_false _).mp hodd⟩
        have hquiet : ripplesIndicators classOf before (c :: text) = false := by
          by_cases hindicator : isIndicator classOf c = true
          · have hodd : oddIndicators before = false := by
              by_contra hodd
              exact hpairs ⟨hindicator, (Bool.not_eq_false _).mp hodd⟩
            unfold ripplesIndicators
            rw [hodd]
            rfl
          · exact ripplesIndicators_of_not (Bool.eq_false_iff.mpr hindicator)
        rw [startsFrom_congr hcontext, startsFrom_congr hcontext, hown, hquiet]
        exact iff_of_true rfl rfl

end Quilon
